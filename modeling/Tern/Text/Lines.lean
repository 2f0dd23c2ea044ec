/-!
Lines of a text, and the blanks around it.
-/

set_option autoImplicit false

namespace Tern.Text

def ofLines (lines : List String) : String := String.join (lines.map (· ++ "\n"))

/-- The lines with the line feeds that end them; nothing after the last line feed is no line. -/
def splitLines : List Char → List (List Char)
  | [] => []
  | c :: cs =>
    if c = '\n' then [c] :: splitLines cs
    else
      match splitLines cs with
      | [] => [[c]]
      | line :: lines => (c :: line) :: lines

/-- A line without its break, which is a line feed with or without a return before it. -/
def withoutBreak (line : List Char) : List Char :=
  match line.reverse with
  | '\n' :: '\r' :: cs => cs.reverse
  | '\n' :: cs => cs.reverse
  | _ => line

def toLines (text : String) : List String :=
  (splitLines text.toList).map fun line => String.ofList (withoutBreak line)

/-- White space of any script. -/
def isBlank (c : Char) : Bool :=
  let n := c.toNat
  (9 ≤ n && n ≤ 13) || n = 0x20 || n = 0x85 || n = 0xA0 || n = 0x1680
    || (0x2000 ≤ n && n ≤ 0x200A) || n = 0x2028 || n = 0x2029 || n = 0x202F || n = 0x205F
    || n = 0x3000

def trim (text : String) : String :=
  String.ofList ((text.toList.dropWhile isBlank).reverse.dropWhile isBlank).reverse

def blanks (n : Nat) : String := String.ofList (List.replicate n ' ')

/-- The text with blanks before it, up to the given width. -/
def alignRight (width : Nat) (text : String) : String := blanks (width - text.length) ++ text

end Tern.Text
