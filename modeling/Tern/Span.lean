/-!
Places in a source text. A span is a half-open range of byte offsets into the UTF-8 form of the
text; a position is the line and column that a reader sees.
-/

set_option autoImplicit false

namespace Tern

structure Span where
  start : Nat
  stop : Nat
  deriving DecidableEq, Repr, Inhabited

namespace Span

/-- The least span covering both. -/
def join (a b : Span) : Span := ⟨min a.start b.start, max a.stop b.stop⟩

end Span

/-- Number of bytes of a text in UTF-8. -/
def byteLength : List Char → Nat
  | [] => 0
  | c :: cs => c.utf8Size + byteLength cs

@[simp] theorem byteLength_nil : byteLength [] = 0 := rfl

@[simp] theorem byteLength_cons (c : Char) (cs : List Char) :
    byteLength (c :: cs) = c.utf8Size + byteLength cs := rfl

theorem byteLength_append (a b : List Char) :
    byteLength (a ++ b) = byteLength a + byteLength b := by
  induction a with
  | nil => simp
  | cons c cs ih => simp [ih, Nat.add_assoc]

/-- A line and a column, both counted from one. -/
structure Position where
  line : Nat
  column : Nat
  deriving DecidableEq, Repr

namespace Position

/-- Walks `offset` bytes into the text. An offset inside a character stays before it, and one past
the end stays at the end. -/
def advance (p : Position) : List Char → Nat → Position
  | [], _ => p
  | c :: cs, offset =>
    if offset < c.utf8Size then p
    else if c = '\n' then advance ⟨p.line + 1, 1⟩ cs (offset - c.utf8Size)
    else advance ⟨p.line, p.column + 1⟩ cs (offset - c.utf8Size)

/-- Lines end at a line feed only; the column counts characters. -/
def ofOffset (source : String) (offset : Nat) : Position :=
  advance ⟨1, 1⟩ source.toList offset

def text (p : Position) : String := toString p.line ++ ":" ++ toString p.column

end Position

end Tern
