import Tern.Json
import Tern.Text.Reading

/-!
Reading JSON. Each reader returns what is left of the text, which is shorter than the text it read.
-/

set_option autoImplicit false

namespace Tern.Json

open Text (Reading hexValue? isDigit)

def isBlank (c : Char) : Bool := c = ' ' || c = '\t' || c = '\n' || c = '\r'

def skipBlanks (cs : List Char) : List Char := cs.dropWhile isBlank

theorem length_skipBlanks_le (cs : List Char) : (skipBlanks cs).length ≤ cs.length :=
  (List.dropWhile_sublist _).length_le

def unit16? : List Char → Option Nat
  | [a, b, c, d] =>
    match hexValue? a, hexValue? b, hexValue? c, hexValue? d with
    | some a, some b, some c, some d => some (a * 4096 + b * 256 + c * 16 + d)
    | _, _, _, _ => none
  | _ => none

/-- The character after a backslash, and how many characters it takes. Outside the basic plane a
character is written as two units; a unit of such a pair that stands alone is no character. -/
def escaped? : List Char → Option (Option Char × Nat)
  | '"' :: _ => some ('"', 1)
  | '\\' :: _ => some ('\\', 1)
  | '/' :: _ => some ('/', 1)
  | 'b' :: _ => some ('\x08', 1)
  | 'f' :: _ => some ('\x0c', 1)
  | 'n' :: _ => some ('\n', 1)
  | 'r' :: _ => some ('\r', 1)
  | 't' :: _ => some ('\t', 1)
  | 'u' :: cs =>
    match unit16? (cs.take 4) with
    | none => none
    | some n =>
      if n < 0xD800 ∨ 0xDFFF < n then some (Char.ofNat n, 5)
      else if 0xDBFF < n then some (none, 5)
      else
        match cs.drop 4 with
        | '\\' :: 'u' :: ds =>
          match unit16? (ds.take 4) with
          | some m =>
            if 0xDC00 ≤ m ∧ m ≤ 0xDFFF then
              some (Char.ofNat (0x10000 + (n - 0xD800) * 1024 + (m - 0xDC00)), 11)
            else some (none, 5)
          | none => none
        | _ => some (none, 5)
  | _ => none

/-- The characters up to the closing quote, after those that are given in reverse; none if a unit
among them is no character. -/
def readString (cs : List Char) (text : Option (List Char)) :
    Option (Reading cs (Option String)) :=
  match cs with
  | [] => none
  | c :: rest =>
    if c = '"' then some (.next (text.map fun t => String.ofList t.reverse))
    else if c = '\\' then
      match escaped? rest with
      | none => none
      | some (e, n) =>
        (readString (rest.drop n) (e.bind fun e => text.map (e :: ·))).map fun r =>
          (r.afterDrop n).later
    else if c.toNat < 32 then none
    else (readString rest (text.map (c :: ·))).map .later
termination_by cs.length
decreasing_by
  all_goals simp only [List.length_drop, List.length_cons]
  all_goals omega

def textValue : Option String → Json
  | some s => string s
  | none => unreadable

def fieldsValue : Option (List (String × Json)) → Json
  | some fields => object fields
  | none => unreadable

def consField (key : Option String) (value : Json) (fields : Option (List (String × Json))) :
    Option (List (String × Json)) :=
  key.bind fun key => fields.map ((key, value) :: ·)

def natural (digits : List Char) : Nat := digits.foldl (fun n d => n * 10 + (d.toNat - 48)) 0

def readNumber (isNegative : Bool) (cs : List Char) : Option (Reading cs Json) :=
  let whole := cs.takeWhile isDigit
  if whole.isEmpty || (whole.head? = some '0' && 1 < whole.length) then none
  else
    let afterWhole := cs.dropWhile isDigit
    let fraction? : Option (List Char × List Char) :=
      match afterWhole with
      | '.' :: ds =>
        if (ds.takeWhile isDigit).isEmpty then none
        else some (ds.takeWhile isDigit, ds.dropWhile isDigit)
      | ds => some ([], ds)
    match fraction? with
    | none => none
    | some (fraction, afterFraction) =>
      let exponent? : Option (Int × List Char) :=
        match afterFraction with
        | e :: ds =>
          if e = 'e' ∨ e = 'E' then
            let (sign, ds) : Int × List Char :=
              match ds with
              | '-' :: ds => (-1, ds)
              | '+' :: ds => (1, ds)
              | ds => (1, ds)
            if (ds.takeWhile isDigit).isEmpty then none
            else some (sign * natural (ds.takeWhile isDigit), ds.dropWhile isDigit)
          else some (0, e :: ds)
        | [] => some (0, [])
      match exponent? with
      | none => none
      | some (exponent, rest) =>
        let value := number isNegative (natural (whole ++ fraction)) (exponent - fraction.length)
          (rest.length = afterWhole.length)
        if h : rest.length < cs.length then some ⟨value, rest, h⟩ else none

/-- The text after `word`, if it starts with it. -/
def afterWord? (word : String) (cs : List Char) : Option (List Char) :=
  if word.toList.isPrefixOf cs then some (cs.drop word.length) else none

mutual
def readValue (cs : List Char) : Option (Reading cs Json) :=
  have hb := length_skipBlanks_le cs
  match h : skipBlanks cs with
  | [] => none
  | c :: rest =>
    have hlt : rest.length < cs.length := by simp only [h, List.length_cons] at hb; omega
    if c = '"' then
      (readString rest (some [])).map fun r => (r.map textValue).after (Nat.le_of_lt hlt)
    else if c = '[' then
      match h' : skipBlanks rest with
      | ']' :: rest' => some ⟨array [], rest', by
          have := length_skipBlanks_le rest
          simp only [h', List.length_cons] at this
          omega⟩
      | _ => (readElements rest).map fun r => (r.map array).after (Nat.le_of_lt hlt)
    else if c = '\x7b' then
      match h' : skipBlanks rest with
      | '\x7d' :: rest' => some ⟨object [], rest', by
          have := length_skipBlanks_le rest
          simp only [h', List.length_cons] at this
          omega⟩
      | _ => (readFields rest).map fun r => (r.map fieldsValue).after (Nat.le_of_lt hlt)
    else if c = '-' then (readNumber true rest).map (·.after (Nat.le_of_lt hlt))
    else if isDigit c then
      (readNumber false (c :: rest)).map (·.after (by rw [h] at hb; exact hb))
    else
      let words : List (String × Json) :=
        [("null", null), ("true", bool true), ("false", bool false)]
      words.findSome? fun (word, value) =>
        (afterWord? word (c :: rest)).bind fun rest' =>
          if h : rest'.length < cs.length then some ⟨value, rest', h⟩ else none
termination_by (cs.length, 0)

/-- Values between commas up to a closing bracket. -/
def readElements (cs : List Char) : Option (Reading cs (List Json)) :=
  match readValue cs with
  | none => none
  | some ⟨value, rest, hrest⟩ =>
    have hb := length_skipBlanks_le rest
    match h : skipBlanks rest with
    | ',' :: more =>
      have hlt : more.length < cs.length := by simp only [h, List.length_cons] at hb; omega
      (readElements more).map fun r => (r.map (value :: ·)).after (Nat.le_of_lt hlt)
    | ']' :: more => some ⟨[value], more, by simp only [h, List.length_cons] at hb; omega⟩
    | _ => none
termination_by (cs.length, 1)

/-- Named values between commas up to a closing brace; none if a name is not readable. -/
def readFields (cs : List Char) : Option (Reading cs (Option (List (String × Json)))) :=
  have hb₀ := length_skipBlanks_le cs
  match h₀ : skipBlanks cs with
  | '"' :: afterQuote =>
    match readString afterQuote (some []) with
    | none => none
    | some ⟨key, afterKey, hkey⟩ =>
      have hb₁ := length_skipBlanks_le afterKey
      match h₁ : skipBlanks afterKey with
      | ':' :: afterColon =>
        have hcolon : afterColon.length < cs.length := by
          simp only [h₀, h₁, List.length_cons] at hb₀ hb₁
          omega
        match readValue afterColon with
        | none => none
        | some ⟨value, rest, hrest⟩ =>
          have hb := length_skipBlanks_le rest
          match h : skipBlanks rest with
          | ',' :: more =>
            have hlt : more.length < cs.length := by simp only [h, List.length_cons] at hb; omega
            (readFields more).map fun r => (r.map (consField key value)).after (Nat.le_of_lt hlt)
          | '\x7d' :: more =>
            some ⟨consField key value (some []), more, by
              simp only [h, List.length_cons] at hb; omega⟩
          | _ => none
      | _ => none
  | _ => none
termination_by (cs.length, 1)
end

def ofText? (text : String) : Option Json :=
  match readValue text.toList with
  | some ⟨value, rest, _⟩ => if (skipBlanks rest).isEmpty then some value else none
  | none => none

end Tern.Json
