import Tern.Span

/-!
How a line of text lies on a screen. A tab goes on to the next stop, a control character takes no
column, and neither does a sequence that sets a style: it starts with an escape and ends with the
letter `m`. Every other character takes one column.
-/

set_option autoImplicit false

namespace Tern.Text

def tabStop : Nat := 4

def isControl (c : Char) : Bool := c.toNat < 32 || c.toNat = 127

def widths (inStyle : Bool) (column : Nat) : List Char → List Nat
  | [] => []
  | c :: cs =>
    if inStyle then 0 :: widths (c != 'm') column cs
    else if c = '\x1b' then 0 :: widths true column cs
    else
      let width := if c = '\t' then tabStop - column % tabStop else if isControl c then 0 else 1
      width :: widths false (column + width) cs

def columns (text : List Char) : Nat := (widths false 0 text).foldl (· + ·) 0

def expandTabs (text : List Char) : List Char :=
  (text.zip (widths false 0 text)).flatMap fun (c, width) =>
    if c = '\t' then List.replicate width ' ' else [c]

/-- The characters of the first `n` bytes; one that they cut is whole. -/
def takeBytes (n : Nat) : List Char → List Char
  | [] => []
  | c :: cs => if n = 0 then [] else c :: takeBytes (n - c.utf8Size) cs

def dropBytes (n : Nat) : List Char → List Char
  | [] => []
  | c :: cs => if n = 0 then c :: cs else dropBytes (n - c.utf8Size) cs

/-- The column at which the bytes after the first `n` start. All of them that do not belong to the
text share the column after its end. -/
def columnAt (text : List Char) (n : Nat) : Nat :=
  if byteLength text < n then columns text + 1 else columns (takeBytes n text)

end Tern.Text
