import Tern.Text.Lines

/-!
Outlines: trees of lines. The parts of a line stand below it, two blanks further in.
-/

set_option autoImplicit false

namespace Tern.Text

inductive Outline
  | node (line : String) (parts : List Outline)

namespace Outline

def leaf (line : String) : Outline := node line []

def indented (depth : Nat) (line : String) : String := blanks (2 * depth) ++ line

mutual
/-- The lines of an outline that stands at a depth. -/
def lines (depth : Nat) : Outline → List String
  | node line parts => indented depth line :: linesAll (depth + 1) parts
def linesAll (depth : Nat) : List Outline → List String
  | [] => []
  | o :: os => lines depth o ++ linesAll depth os
end

def text (o : Outline) : String := ofLines (lines 0 o)

end Outline

end Tern.Text
