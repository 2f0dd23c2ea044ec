/-!
JSON values and the text they are written as. The fields of an object keep their order.
-/

set_option autoImplicit false

namespace Tern

inductive Json
  | null
  | bool (value : Bool)
  /-- The number `± digits * 10 ^ exponent`; `isInteger` says that it is written without a fraction
  and without an exponent. -/
  | number (isNegative : Bool) (digits : Nat) (exponent : Int) (isInteger : Bool)
  | string (value : String)
  | array (elements : List Json)
  | object (fields : List (String × Json))
  /-- A text in which half of a surrogate pair stands alone, or an object with such a name. It
  stands for no characters, so that it can be passed over but not used. -/
  | unreadable
  deriving Repr, Inhabited

namespace Json

def ofNat (n : Nat) : Json := number false n 0 true

def ofInt : Int → Json
  | .ofNat n => ofNat n
  | .negSucc n => number true (n + 1) 0 true

def hexDigit (n : Nat) : Char := if n < 10 then Char.ofNat (48 + n) else Char.ofNat (87 + n)

/-- Quotes, backslashes and control characters are escaped; all else stands for itself. -/
def escape (c : Char) : List Char :=
  if c = '"' then ['\\', '"']
  else if c = '\\' then ['\\', '\\']
  else if c = '\n' then ['\\', 'n']
  else if c = '\r' then ['\\', 'r']
  else if c = '\t' then ['\\', 't']
  else if c = '\x08' then ['\\', 'b']
  else if c = '\x0c' then ['\\', 'f']
  else if c.toNat < 32 then
    ['\\', 'u', '0', '0', hexDigit (c.toNat / 16), hexDigit (c.toNat % 16)]
  else [c]

def quote (s : String) : String :=
  String.ofList ('"' :: s.toList.flatMap escape ++ ['"'])

def numberText (isNegative : Bool) (digits : Nat) (exponent : Int) (isInteger : Bool) : String :=
  let sign := if isNegative then "-" else ""
  if isInteger then sign ++ toString (digits * Nat.pow 10 exponent.toNat)
  else sign ++ toString digits ++ "e" ++ toString exponent

/-- The least text that is written well and cannot be used. -/
def unreadableText : String := "\"\\ud800\""

mutual
/-- The text on one line. -/
def compact : Json → String
  | null => "null"
  | bool b => if b then "true" else "false"
  | number s d e i => numberText s d e i
  | string s => quote s
  | array xs => "[" ++ ",".intercalate (compactAll xs) ++ "]"
  | object fs => "\x7b" ++ ",".intercalate (compactFields fs) ++ "\x7d"
  | unreadable => unreadableText
def compactAll : List Json → List String
  | [] => []
  | x :: xs => compact x :: compactAll xs
def compactFields : List (String × Json) → List String
  | [] => []
  | (k, x) :: fs => (quote k ++ ":" ++ compact x) :: compactFields fs
end

/-- Lines between brackets, indented by two more blanks than the brackets; nothing between brackets
that hold nothing. -/
def bracketed (opening closing : String) (depth : Nat) (lines : List String) : String :=
  if lines.isEmpty then opening ++ closing
  else
    let indent (n : Nat) := "\n" ++ String.ofList (List.replicate (2 * n) ' ')
    opening ++ indent (depth + 1) ++ ("," ++ indent (depth + 1)).intercalate lines
      ++ indent depth ++ closing

mutual
/-- The text on several lines, at a depth of nesting. -/
def pretty (depth : Nat) : Json → String
  | null => "null"
  | bool b => if b then "true" else "false"
  | number s d e i => numberText s d e i
  | string s => quote s
  | array xs => bracketed "[" "]" depth (prettyAll (depth + 1) xs)
  | object fs => bracketed "\x7b" "\x7d" depth (prettyFields (depth + 1) fs)
  | unreadable => unreadableText
def prettyAll (depth : Nat) : List Json → List String
  | [] => []
  | x :: xs => pretty depth x :: prettyAll depth xs
def prettyFields (depth : Nat) : List (String × Json) → List String
  | [] => []
  | (k, x) :: fs => (quote k ++ ": " ++ pretty depth x) :: prettyFields depth fs
end

end Json

end Tern
