import Tern.Token.Scan
import Tern.Parse.Error

/-!
A place in a list of tokens, and the outcome of reading something from it. The outcome carries what
makes every parser end: the place reached is never behind the place it started from, and a value is
never found without consuming tokens.
-/

set_option autoImplicit false

namespace Tern.Parse

structure Cursor where
  /-- Tokens not yet read. -/
  rest : List Lexeme
  /-- End of the last token read. -/
  lastStop : Nat
  /-- End of the text. -/
  textStop : Nat
  /-- Errors found so far, in order. -/
  errors : List ParseError
  deriving Repr

namespace Cursor

/-- The start of a text that stands at byte `offset` of the source. -/
def start (text : List Char) (offset : Nat) : Cursor :=
  let scan := Scan.ofText text offset
  { rest := scan.lexemes
    lastStop := offset
    textStop := offset + byteLength text
    errors := scan.errors.map fun s =>
      .unrecognized (sliceBytes text (s.start - offset) (s.stop - offset)) s }
where
  /-- The characters between two byte offsets. -/
  sliceBytes (text : List Char) (start stop : Nat) : String :=
    String.ofList (takeBytes (stop - start) (dropBytes start text))
  dropBytes (n : Nat) : List Char → List Char
    | [] => []
    | c :: cs => if n = 0 then c :: cs else dropBytes (n - c.utf8Size) cs
  takeBytes (n : Nat) : List Char → List Char
    | [] => []
    | c :: cs => if n = 0 then [] else c :: takeBytes (n - c.utf8Size) cs

/-- The amount of text that is left; every token counts. -/
def weight (c : Cursor) : Nat := Lexeme.totalSize c.rest

theorem weight_start_le (text : List Char) (offset : Nat) :
    (start text offset).weight ≤ text.length :=
  Scan.totalSize_read_le text offset false

theorem weight_le {c d : Cursor} (h : d.weight < c.weight) : d.weight ≤ c.weight := Nat.le_of_lt h

def peek? (c : Cursor) : Option Token := c.rest.head?.map (·.token)

def isAtEnd (c : Cursor) : Bool := c.rest.isEmpty

def isAt (c : Cursor) (t : Token) : Bool := c.peek? == some t

def isAtMark (c : Cursor) (m : Mark) : Bool := c.isAt (.mark m)

/-- The next token stands first on a line. -/
def isAtLineStart (c : Cursor) : Bool := c.rest.head?.any (·.startsLine)

/-- The place of the next token, or the end of the text. -/
def currentSpan (c : Cursor) : Span := (c.rest.head?.map (·.span)).getD ⟨c.textStop, c.textStop⟩

/-- From the start of `s` to the end of the last token read. -/
def spanFrom (c : Cursor) (s : Span) : Span := ⟨s.start, max c.lastStop s.stop⟩

def report (c : Cursor) (e : ParseError) : Cursor := { c with errors := c.errors ++ [e] }

def reportAll (c : Cursor) (es : List ParseError) : Cursor := { c with errors := c.errors ++ es }

@[simp] theorem weight_report (c : Cursor) (e : ParseError) : (c.report e).weight = c.weight := rfl

@[simp] theorem weight_reportAll (c : Cursor) (es : List ParseError) :
    (c.reportAll es).weight = c.weight := rfl

def reportExpected (c : Cursor) (what : String) : Cursor :=
  c.report <| match c.rest with
    | lexeme :: _ => .unexpected what lexeme.token.text lexeme.span
    | [] => .endOfInput what ⟨c.textStop, c.textStop⟩

@[simp] theorem weight_reportExpected (c : Cursor) (what : String) :
    (c.reportExpected what).weight = c.weight := rfl

/-- The place after the next token, if there is one. -/
def advance (c : Cursor) : Cursor :=
  match c.rest with
  | [] => c
  | lexeme :: rest => { c with rest, lastStop := lexeme.span.stop }

theorem weight_advance_le (c : Cursor) : c.advance.weight ≤ c.weight := by
  rcases c with ⟨_ | ⟨l, r⟩, _, _, _⟩ <;> simp [advance, weight, Lexeme.totalSize]

theorem weight_advance_lt {c : Cursor} (h : 0 < c.weight) : c.advance.weight < c.weight := by
  rcases c with ⟨_ | ⟨l, r⟩, _, _, _⟩
  · simp [weight, Lexeme.totalSize] at h
  · have := l.token.size_pos
    simp only [advance, weight, Lexeme.totalSize]
    omega

theorem weight_pos_of_rest {c : Cursor} {l : Lexeme} {ls : List Lexeme} (h : c.rest = l :: ls) :
    0 < c.weight := by
  have := l.token.size_pos
  simp only [weight, h, Lexeme.totalSize]
  omega

theorem weight_pos_of_peek? {c : Cursor} {t : Token} (h : c.peek? = some t) : 0 < c.weight := by
  rcases hr : c.rest with _ | ⟨l, ls⟩
  · simp [peek?, hr] at h
  · exact weight_pos_of_rest hr

theorem size_le_weight_of_peek? {c : Cursor} {t : Token} (h : c.peek? = some t) :
    t.size ≤ c.weight := by
  rcases hr : c.rest with _ | ⟨l, ls⟩
  · simp [peek?, hr] at h
  · simp only [peek?, hr, List.head?_cons, Option.map_some, Option.some.injEq] at h
    subst h
    simp [weight, hr, Lexeme.totalSize]

theorem weight_pos_of_isAt {c : Cursor} {t : Token} (h : c.isAt t = true) : 0 < c.weight :=
  weight_pos_of_peek? (eq_of_beq h)

theorem weight_pos_of_not_isAtEnd {c : Cursor} (h : c.isAtEnd = false) : 0 < c.weight := by
  rcases hr : c.rest with _ | ⟨l, ls⟩
  · simp [isAtEnd, hr] at h
  · exact weight_pos_of_rest hr

/-- Reads the token `t` if it comes next. -/
def eat? (c : Cursor) (t : Token) : Option { d : Cursor // d.weight < c.weight } :=
  if h : c.isAt t = true then some ⟨c.advance, weight_advance_lt (weight_pos_of_isAt h)⟩ else none

/-- Reads the token `t` if it comes next, and says whether it did. -/
def skip (c : Cursor) (t : Token) : Bool × { d : Cursor // d.weight ≤ c.weight } :=
  if c.isAt t then (true, ⟨c.advance, c.weight_advance_le⟩) else (false, ⟨c, Nat.le_refl _⟩)

/-- The rest of the tokens after those with the property `p`. -/
def skipWhile (p : Lexeme → Bool) (c : Cursor) : { d : Cursor // d.weight ≤ c.weight } :=
  match h : c.rest with
  | [] => ⟨c, Nat.le_refl _⟩
  | lexeme :: _ =>
    if p lexeme then
      have hlt := weight_advance_lt (weight_pos_of_rest h)
      let d := skipWhile p c.advance
      ⟨d.val, Nat.le_trans d.property (Nat.le_of_lt hlt)⟩
    else ⟨c, Nat.le_refl _⟩
termination_by c.weight

/-- Skips semicolons. -/
def separators (c : Cursor) : { d : Cursor // d.weight ≤ c.weight } :=
  c.skipWhile fun l => l.token = .mark .semicolon

/-- Goes on to the next line or closing brace. -/
def toSafePlace (c : Cursor) : { d : Cursor // d.weight ≤ c.weight } :=
  c.skipWhile fun l => !(l.token = .mark .rightBrace) && !l.startsLine

end Cursor

/-- What reading from `c` gave: a value, if the tokens have the right form, and the place reached.
A value took at least `k` of the weight. -/
structure Outcome (k : Nat) (c : Cursor) (α : Type) where
  value : Option α
  cursor : Cursor
  le : cursor.weight ≤ c.weight
  consumes : value.isSome → cursor.weight + k ≤ c.weight

namespace Outcome

variable {α β : Type} {c : Cursor} {k : Nat}

/-- No value; reading stopped at `d`. -/
def fail (d : Cursor) (h : d.weight ≤ c.weight) : Outcome k c α := ⟨none, d, h, by simp⟩

def done (a : α) : Outcome 0 c α := ⟨some a, c, Nat.le_refl _, by simp⟩

/-- A value together with a place further on. -/
def found (a : α) (d : Cursor) (h : d.weight < c.weight) : Outcome 1 c α :=
  ⟨some a, d, Nat.le_of_lt h, fun _ => h⟩

def relax (r : Outcome 1 c α) : Outcome 0 c α := ⟨r.value, r.cursor, r.le, fun _ => r.le⟩

def map (f : α → β) (r : Outcome k c α) : Outcome k c β :=
  ⟨r.value.map f, r.cursor, r.le, by simpa using r.consumes⟩

/-- Goes on from where a value was found. -/
def andThen (r : Outcome 1 c α) (f : α → (d : Cursor) → d.weight < c.weight → Outcome 0 d β) :
    Outcome 1 c β :=
  match r with
  | ⟨none, d, h, _⟩ => fail d h
  | ⟨some a, d, _, h⟩ =>
    have hd := h rfl
    let s := f a d hd
    ⟨s.value, s.cursor, Nat.le_trans s.le (Nat.le_of_lt hd), fun _ => Nat.lt_of_le_of_lt s.le hd⟩

/-- Goes on from where a value was found that need not have consumed anything. -/
def thenMaybe (r : Outcome 0 c α) (f : α → (d : Cursor) → d.weight ≤ c.weight → Outcome 0 d β) :
    Outcome 0 c β :=
  match r with
  | ⟨none, d, h, _⟩ => fail d h
  | ⟨some a, d, h, _⟩ =>
    let s := f a d h
    ⟨s.value, s.cursor, Nat.le_trans s.le h, fun _ => Nat.le_trans s.le h⟩

/-- Reads from a place that is not behind `c`. -/
def weaken {d : Cursor} (h : d.weight ≤ c.weight) (r : Outcome k d α) : Outcome k c α :=
  ⟨r.value, r.cursor, Nat.le_trans r.le h, fun hs => Nat.le_trans (r.consumes hs) h⟩

end Outcome

namespace Cursor

/-- Reads the token `t`, or reports that it was expected. -/
def expect (c : Cursor) (t : Token) : Outcome 1 c Span :=
  if h : c.isAt t = true then
    .found c.currentSpan c.advance (weight_advance_lt (weight_pos_of_isAt h))
  else .fail (c.reportExpected ("`" ++ t.text ++ "`")) (Nat.le_refl _)

/-- Reads an identifier, or reports that `what` was expected. -/
def expectName (c : Cursor) (what : String) : Outcome 1 c (String × Span) :=
  match h : c.peek? with
  | some (.identifier name) =>
    .found (name, c.currentSpan) c.advance (weight_advance_lt (weight_pos_of_peek? h))
  | _ => .fail (c.reportExpected what) (Nat.le_refl _)

/-- Reads `item, item, …` up to and with the mark `close`; a comma may stand before it. -/
def commaList {α : Type} (close : Mark) (c : Cursor)
    (item : (d : Cursor) → d.weight ≤ c.weight → Outcome 1 d α) : Outcome 1 c (List α) :=
  if c.isAtMark close then (c.expect (.mark close)).map fun _ => []
  else
    (item c (Nat.le_refl _)).andThen fun a d hd =>
      match d.eat? (.mark .comma) with
      | none => ((d.expect (.mark close)).map fun _ => [a]).relax
      | some ⟨e, he⟩ =>
        have hec : e.weight < c.weight := Nat.lt_trans he hd
        let more := commaList close e fun f hf => item f (Nat.le_trans hf (Nat.le_of_lt hec))
        ((more.map (a :: ·)).relax).weaken (weight_le he)
termination_by c.weight

/-- Reads one statement. After a failure, goes on to a safe place, past at least one token. -/
def statement (c : Cursor) (h : 0 < c.weight) {α : Type} (r : Outcome 1 c α) :
    Option α × { d : Cursor // d.weight < c.weight } :=
  match r with
  | ⟨some a, d, _, hd⟩ =>
    let e := d.separators
    (some a, ⟨e.val, Nat.lt_of_le_of_lt e.property (hd rfl)⟩)
  | ⟨none, d, hd, _⟩ =>
    let moved : { e : Cursor // e.weight < c.weight } :=
      if hlt : d.weight < c.weight then ⟨d, hlt⟩
      else ⟨d.advance, by
        have he : d.weight = c.weight := by omega
        rw [← he]
        exact weight_advance_lt (he ▸ h)⟩
    let safe := moved.val.toSafePlace
    let e := safe.val.separators
    (none, ⟨e.val, Nat.lt_of_le_of_lt (Nat.le_trans e.property safe.property) moved.property⟩)

/-- Reads statements up to a closing brace or the end. -/
def statements {α : Type} (c : Cursor)
    (item : (d : Cursor) → d.weight ≤ c.weight → Outcome 1 d α) :
    List α × { d : Cursor // d.weight ≤ c.weight } :=
  if h : c.isAtEnd = true ∨ c.isAtMark .rightBrace = true then ([], ⟨c, Nat.le_refl _⟩)
  else
    have hpos : 0 < c.weight := weight_pos_of_not_isAtEnd (by simpa using (not_or.mp h).1)
    match c.statement hpos (item c (Nat.le_refl _)) with
    | (a?, ⟨d, hd⟩) =>
      let more := statements d fun e he => item e (Nat.le_trans he (Nat.le_of_lt hd))
      (a?.toList ++ more.1, ⟨more.2.val, Nat.le_trans more.2.property (Nat.le_of_lt hd)⟩)
termination_by c.weight

end Cursor

end Tern.Parse
