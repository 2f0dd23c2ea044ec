import Tern.Token

/-!
Reading a source text as tokens. Each step looks at the rest of the text and takes a non-empty piece
of it: a token, a gap (blanks and comments) or input that is no token. The longest token wins.
-/

set_option autoImplicit false

namespace Tern

inductive Piece
  | token (token : Token)
  | gap
  | unknown
  deriving DecidableEq, Repr

namespace Piece

def isBlank (c : Char) : Bool := c = ' ' || c = '\t' || c = '\r' || c = '\n' || c = '\x0c'

def isDigit (c : Char) : Bool := '0' ≤ c && c ≤ '9'

def isNameStart (c : Char) : Bool := ('a' ≤ c && c ≤ 'z') || ('A' ≤ c && c ≤ 'Z') || c = '_'

def isNamePart (c : Char) : Bool := isNameStart c || isDigit c

def isNumberPart (c : Char) : Bool := isDigit c || c = '_'

/-- The number of characters up to and with the closing quote, or, if there is none, the number of
characters that a broken string covers: all of the text, or what stands before a backslash that
escapes a line feed or nothing. -/
def stringLength : List Char → Bool × Nat
  | [] => (false, 0)
  | '"' :: _ => (true, 1)
  | '\\' :: [] => (false, 0)
  | '\\' :: c :: cs =>
    if c = '\n' then (false, 0)
    else let (closed, n) := stringLength cs; (closed, n + 2)
  | _ :: cs => let (closed, n) := stringLength cs; (closed, n + 1)

/-- The number of characters up to and with the end of a block comment. -/
def commentLength? : List Char → Option Nat
  | [] => none
  | '*' :: '/' :: _ => some 2
  | _ :: cs => (commentLength? cs).map (· + 1)

/-- The number of further characters of a number, and whether it has a fraction. -/
def numberLength (cs : List Char) : Bool × Nat :=
  let whole := (cs.takeWhile isNumberPart).length
  match cs.drop whole with
  | '.' :: d :: rest =>
    if isDigit d then (true, whole + 2 + (rest.takeWhile isNumberPart).length)
    else (false, whole)
  | _ => (false, whole)

/-- The piece at the start of the text `c :: cs`, with the number of characters of `cs` it takes. -/
def atStart (c : Char) (cs : List Char) : Piece × Nat :=
  let lexeme (n : Nat) := String.ofList (c :: cs.take n)
  if isBlank c then (gap, 0)
  else if isDigit c then
    match numberLength cs with
    | (true, n) => (token (.float (lexeme n)), n)
    | (false, n) => (token (.integer (lexeme n)), n)
  else if isNameStart c then
    let n := (cs.takeWhile isNamePart).length
    match Keyword.ofText? (lexeme n) with
    | some word => (token (.keyword word), n)
    | none => (token (.identifier (lexeme n)), n)
  else if c = '"' then
    match stringLength cs with
    | (true, n) => (token (.string (lexeme n)), n)
    | (false, n) => (unknown, n)
  else
    match c, cs with
    | '/', '/' :: rest => (gap, 1 + (rest.takeWhile (· ≠ '\n')).length)
    | '/', '*' :: rest =>
      match commentLength? rest with
      | some n => (gap, 1 + n)
      | none => (unknown, 1 + rest.length)
    | _, _ =>
      match Mark.ofStart? (c :: cs) with
      | some m => (token (.mark m), m.text.length - 1)
      | none => (unknown, 0)

theorem size_text_le (c : Char) (cs : List Char) :
    max 1 (String.ofList (c :: cs)).length ≤ cs.length + 1 := by
  simp [Nat.add_comm]

/-- A token has no more characters than its piece of the text. -/
theorem size_le_of_atStart {c : Char} {cs : List Char} {t : Token} {n : Nat}
    (h : atStart c cs = (token t, n)) : t.size ≤ (cs.take n).length + 1 := by
  unfold atStart at h
  dsimp only at h
  repeat' split at h
  all_goals
    first
    | obtain ⟨rfl, rfl⟩ := by simpa only [Prod.mk.injEq, token.injEq] using h
      first
      | exact size_text_le ..
      | simp [Token.size]
    | simp at h

end Piece

structure Scan where
  lexemes : List Lexeme
  errors : List Span
  deriving DecidableEq, Repr

namespace Scan

/-- Reads the text from byte `pos` on; `fresh` says whether a line break stands between the last
token or error and this place. -/
def read (cs : List Char) (pos : Nat) (fresh : Bool) : Scan :=
  match cs with
  | [] => ⟨[], []⟩
  | c :: rest =>
    let (piece, n) := Piece.atStart c rest
    let taken := c :: rest.take n
    let stop := pos + byteLength taken
    match piece with
    | .gap => read (rest.drop n) stop (fresh || taken.contains '\n')
    | .token t =>
      let scan := read (rest.drop n) stop false
      { scan with lexemes := ⟨t, ⟨pos, stop⟩, fresh⟩ :: scan.lexemes }
    | .unknown =>
      let scan := read (rest.drop n) stop false
      { scan with errors := ⟨pos, stop⟩ :: scan.errors }
termination_by cs.length
decreasing_by all_goals (simp only [List.length_drop, List.length_cons]; omega)

def ofText (text : List Char) (offset : Nat) : Scan := read text offset false

theorem totalSize_read_le (cs : List Char) (pos : Nat) (fresh : Bool) :
    Lexeme.totalSize (read cs pos fresh).lexemes ≤ cs.length := by
  fun_induction read cs pos fresh with
  | case1 => exact Nat.le_refl 0
  | case2 pos fresh c rest n taken stop h ih =>
    simp only [List.length_drop, List.length_cons] at ih ⊢
    omega
  | case3 pos fresh c rest n taken stop t scan h ih =>
    have ht := Piece.size_le_of_atStart h
    simp only [scan, List.length_take, List.length_drop, List.length_cons,
      Lexeme.totalSize] at ht ih ⊢
    omega
  | case4 pos fresh c rest n taken stop scan h ih =>
    simp only [scan, List.length_drop, List.length_cons] at ih ⊢
    omega

end Scan

end Tern
