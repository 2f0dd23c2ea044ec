import Tern.Text.Columns
import Tern.Text.Lines

/-!
The part of a source that a report shows: the line with the place it is about, and one line before
and after it. To find them, a return alone is a line break as well; in what is shown, it is a
character of its line.
-/

set_option autoImplicit false

namespace Tern

structure ExcerptLine where
  number : Nat
  start : Nat
  /-- The characters with the break. -/
  chars : List Char
  deriving DecidableEq, Repr

namespace ExcerptLine

def stop (l : ExcerptLine) : Nat := l.start + byteLength l.chars

def text (l : ExcerptLine) : List Char := Text.withoutBreak l.chars

def column (l : ExcerptLine) (offset : Nat) : Nat := Text.columnAt l.text (offset - l.start)

def Holds (l : ExcerptLine) (span : Span) : Prop :=
  l.start ≤ span.start ∧ span.start < l.stop ∧ span.stop ≤ l.stop

instance (l : ExcerptLine) (span : Span) : Decidable (l.Holds span) :=
  inferInstanceAs (Decidable (_ ∧ _))

end ExcerptLine

structure Excerpt where
  /-- Where the place starts; its column counts bytes. -/
  place : Position
  lines : List ExcerptLine
  deriving DecidableEq, Repr

namespace Excerpt

def breaks (offset : Nat) : List Char → List Span
  | [] => []
  | '\r' :: '\n' :: cs => ⟨offset, offset + 2⟩ :: breaks (offset + 2) cs
  | c :: cs =>
    if c = '\n' ∨ c = '\r' then ⟨offset, offset + 1⟩ :: breaks (offset + 1) cs
    else breaks (offset + c.utf8Size) cs

/-- Numbers lines that follow the given number of lines. A return that is left at the end does not
end its line, which then has the number of the line before. -/
def numberLines (passed start : Nat) : List (List Char) → List ExcerptLine
  | [] => []
  | line :: lines =>
    ⟨if line.getLast? = some '\r' then passed else passed + 1, start, line⟩
      :: numberLines (passed + 1) (start + byteLength line) lines

def around (source : String) (span : Span) : Excerpt :=
  let chars := source.toList
  let all := breaks 0 chars
  let before := (all.filter fun b => b.stop ≤ span.start).reverse
  let after := all.filter fun b => span.stop ≤ b.start
  let lineStart := (before.head?.map Span.stop).getD 0
  let start := (before[1]?.map Span.stop).getD 0
  let stop := (after[1]?.map Span.stop).getD (byteLength chars)
  let shown := Text.takeBytes (stop - start) (Text.dropBytes start chars)
  ⟨⟨before.length + 1, span.start - lineStart + 1⟩,
    numberLines (before.length - 1) start (Text.splitLines shown)⟩

def numberWidth (e : Excerpt) : Nat :=
  (toString ((e.lines.getLast?.map ExcerptLine.number).getD 0)).length

end Excerpt

end Tern
