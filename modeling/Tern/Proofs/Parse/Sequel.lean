import Tern.Proofs.Parse.Progress
import Tern.Proofs.Parse.Shift

/-!
A text as a part of a longer one. In the longer text its tokens are moved, and those of other
statements may follow on a new line. What is read from the text alone is then read in the longer text
as well, as long as reading does not come to the end of the text in the middle of something; where a
statement ends, the next line does not continue it, with two exceptions, for which a condition on the
last token is needed.
-/

set_option autoImplicit false

namespace Tern

/-- The token can stand first in a statement, or separates statements. -/
def Token.opensStatement : Token → Bool
  | .keyword .pub | .keyword .val | .keyword .var | .keyword .data | .mark .semicolon => true
  | t => t.startsExpression

theorem Token.opens_of_starts {t : Token} (h : t.startsExpression = true) :
    t.opensStatement = true := by
  unfold Token.opensStatement
  split
  all_goals first | rfl | exact h

def Token.isIdentifier : Token → Bool
  | .identifier _ => true
  | _ => false

namespace Parse

/-- How a text goes on in a longer one. -/
structure Sequel where
  /-- The number of bytes before the text. -/
  offset : Nat
  /-- The tokens after the text. -/
  tokens : List Lexeme
  /-- The longer text ends where the text does. -/
  isEnd : Bool
  nothing : isEnd = true → tokens = []
  opens : ∀ l ∈ tokens.head?, l.startsLine = true ∧ l.token.opensStatement = true

namespace Sequel

/-- The text is moved, and nothing follows. -/
def moved (k : Nat) : Sequel := ⟨k, [], true, fun _ => rfl, by simp⟩

/-- The cursor `c'` is in the longer text where `c` is in the text. -/
structure Continues (q : Sequel) (c c' : Cursor) : Prop where
  rest : c'.rest = c.rest.map (Lexeme.shift q.offset) ++ q.tokens
  lastStop : c'.lastStop = c.lastStop + q.offset
  textStop : q.isEnd = true → c'.textStop = c.textStop + q.offset
  errors : c'.errors = c.errors.map (ParseError.shift q.offset)
  apart : ∀ l ∈ c.rest, ∀ m ∈ q.tokens.head?, l.span.stop + q.offset ≠ m.span.start

/-- What comes next in the text comes next in the longer text. -/
def Ahead (q : Sequel) (c : Cursor) : Prop := q.isEnd = true ∨ c.rest ≠ []

/-- The token does not come next after the text. -/
def Hides (q : Sequel) (t : Token) : Prop := ∀ l ∈ q.tokens.head?, l.token ≠ t

/-- The mark does not follow if the last of the tokens is a name. -/
def Shuts (q : Sequel) (m : Mark) (ls : List Lexeme) : Prop :=
  ∀ l ∈ ls.getLast?, l.token.isIdentifier = true → q.Hides (.mark m)

theorem continues_start (k : Nat) (code : List Char) (offset : Nat) :
    (moved k).Continues (.start code offset) (.start code (offset + k)) := by
  rw [Cursor.start_shift]
  exact ⟨by simp [moved], rfl, fun _ => rfl, rfl, by simp [moved]⟩

variable {q : Sequel} {c d c' d' : Cursor}

theorem rest_ne_nil_iff : c.rest ≠ [] ↔ 0 < c.weight := by
  cases hr : c.rest with
  | nil => simp [Cursor.weight, hr, Lexeme.totalSize]
  | cons l ls => simp [Cursor.weight_pos_of_rest hr]

theorem Ahead.mono (h : q.Ahead d) (hle : d.weight ≤ c.weight) : q.Ahead c := by
  rcases h with h | h
  · exact .inl h
  · rw [rest_ne_nil_iff] at h
    exact .inr (rest_ne_nil_iff.mpr (by omega))

theorem sees_or_hides {t : Token} (h : q.Ahead c ∨ (c.rest = [] → q.Hides t)) :
    q.Ahead c ∨ q.Hides t := by
  rcases h with h | h
  · exact .inl h
  · by_cases hnil : c.rest = []
    · exact .inr (h hnil)
    · exact .inl (.inr hnil)

theorem hides_of_not_opens {t : Token} (h : t.opensStatement = false) : q.Hides t := by
  rintro l hl rfl
  rw [(q.opens l hl).2] at h
  cases h

theorem Shuts.suffix {m : Mark} {ls ls' : List Lexeme} (h : q.Shuts m ls) (hs : ls' <:+ ls) :
    q.Shuts m ls' := by
  obtain ⟨taken, rfl⟩ := hs
  intro l hl
  apply h l
  rw [List.getLast?_append, hl]
  rfl

namespace Continues

theorem rest_of_nil (h : q.Continues c c') (hr : c.rest = []) : c'.rest = q.tokens := by
  rw [h.rest, hr]
  rfl

theorem peek? (h : q.Continues c c') (ha : q.Ahead c) : c'.peek? = c.peek? := by
  cases hr : c.rest with
  | nil =>
    rcases ha with ha | ha
    · simp [Cursor.peek?, h.rest, hr, q.nothing ha]
    · exact absurd hr ha
  | cons l ls => simp [Cursor.peek?, h.rest, hr, Lexeme.shift]

theorem isAt (h : q.Continues c c') (ha : q.Ahead c) (t : Token) : c'.isAt t = c.isAt t := by
  rw [Cursor.isAt, Cursor.isAt, h.peek? ha]

theorem isAtLineStart (h : q.Continues c c') (ha : q.Ahead c) :
    c'.isAtLineStart = c.isAtLineStart := by
  cases hr : c.rest with
  | nil =>
    rcases ha with ha | ha
    · simp [Cursor.isAtLineStart, h.rest, hr, q.nothing ha]
    · exact absurd hr ha
  | cons l ls => simp [Cursor.isAtLineStart, h.rest, hr, Lexeme.shift]

theorem currentSpan (h : q.Continues c c') (ha : q.Ahead c) :
    c'.currentSpan = c.currentSpan.shift q.offset := by
  cases hr : c.rest with
  | nil =>
    rcases ha with ha | ha
    · simp [Cursor.currentSpan, h.rest, hr, q.nothing ha, h.textStop ha, Span.shift]
    · exact absurd hr ha
  | cons l ls => simp [Cursor.currentSpan, h.rest, hr, Lexeme.shift]

theorem spanFrom (h : q.Continues c c') (s : Span) :
    c'.spanFrom (s.shift q.offset) = (c.spanFrom s).shift q.offset := by
  simp only [Cursor.spanFrom, Span.shift, h.lastStop, Span.mk.injEq, true_and]
  omega

theorem weight (h : q.Continues c c') :
    c'.weight = c.weight + Lexeme.totalSize q.tokens := by
  have hsum (ls : List Lexeme) : Lexeme.totalSize (ls.map (Lexeme.shift q.offset) ++ q.tokens) =
      Lexeme.totalSize ls + Lexeme.totalSize q.tokens := by
    induction ls with
    | nil => simp [Lexeme.totalSize]
    | cons l ls ih =>
      simp only [List.map_cons, List.cons_append, Lexeme.totalSize, ih, Lexeme.shift]
      omega
  rw [Cursor.weight, h.rest, hsum, Cursor.weight]

theorem reportAll (h : q.Continues c c') (es : List ParseError) :
    q.Continues (c.reportAll es) (c'.reportAll (es.map (ParseError.shift q.offset))) :=
  ⟨h.rest, h.lastStop, h.textStop, by simp [Cursor.reportAll, h.errors], h.apart⟩

theorem report (h : q.Continues c c') (e : ParseError) :
    q.Continues (c.report e) (c'.report (e.shift q.offset)) :=
  h.reportAll [e]

theorem reportExpected (h : q.Continues c c') (ha : q.Ahead c) (what : String) :
    q.Continues (c.reportExpected what) (c'.reportExpected what) := by
  cases hr : c.rest with
  | nil =>
    have hreport := h.report (.endOfInput what ⟨c.textStop, c.textStop⟩)
    rcases ha with ha | ha
    · simpa [Cursor.reportExpected, h.rest, hr, q.nothing ha, h.textStop ha, ParseError.shift,
        Span.shift] using hreport
    · exact absurd hr ha
  | cons l ls =>
    have hreport := h.report (.unexpected what l.token.text l.span)
    simpa [Cursor.reportExpected, h.rest, hr, Lexeme.shift, ParseError.shift] using hreport

theorem advance (h : q.Continues c c') (ha : q.Ahead c) : q.Continues c.advance c'.advance := by
  cases hr : c.rest with
  | nil =>
    rcases ha with ha | ha
    · have hr' : c'.rest = [] := by rw [h.rest_of_nil hr, q.nothing ha]
      simpa [Cursor.advance, hr, hr'] using h
    · exact absurd hr ha
  | cons l ls =>
    have hr' : c'.rest = l.shift q.offset :: (ls.map (Lexeme.shift q.offset) ++ q.tokens) := by
      rw [h.rest, hr]
      rfl
    simp only [Cursor.advance, hr, hr']
    refine ⟨rfl, rfl, h.textStop, h.errors, ?_⟩
    intro m hm
    exact h.apart m (by rw [hr]; exact List.mem_cons_of_mem _ hm)

end Continues

/-- A token is read in both texts or in none. -/
theorem Continues.eat? (h : q.Continues c c') (t : Token) (ha : q.Ahead c ∨ q.Hides t) :
    (c.eat? t = none ∧ c'.eat? t = none) ∨
      ∃ d hd d' hd', c.eat? t = some ⟨d, hd⟩ ∧ c'.eat? t = some ⟨d', hd'⟩ ∧ q.Continues d d' := by
  by_cases hc : q.Ahead c
  · have hat := h.isAt hc t
    cases hr : c.isAt t with
    | false => exact .inl ⟨by simp [Cursor.eat?, hr], by simp [Cursor.eat?, hat, hr]⟩
    | true =>
      rw [hr] at hat
      exact .inr ⟨c.advance, _, c'.advance, _, dif_pos hr, dif_pos hat, h.advance hc⟩
  · have hnil : c.rest = [] := by
      by_contra hne
      exact hc (.inr hne)
    have hhides := ha.resolve_left hc
    refine .inl ⟨by simp [Cursor.eat?, Cursor.isAt, Cursor.peek?, hnil], ?_⟩
    have hat : ¬ c'.isAt t = true := by
      simp only [Cursor.isAt, Cursor.peek?, h.rest_of_nil hnil, beq_iff_eq,
        Option.map_eq_some_iff, not_exists, not_and]
      exact hhides
    simp [Cursor.eat?, hat]

theorem Continues.skip (h : q.Continues c c') (t : Token) (ha : q.Ahead c) :
    ∃ b d hd d' hd', c.skip t = (b, ⟨d, hd⟩) ∧ c'.skip t = (b, ⟨d', hd'⟩) ∧ q.Continues d d' ∧
      d.rest <:+ c.rest := by
  have hat := h.isAt ha t
  by_cases hr : c.isAt t = true
  · exact ⟨true, c.advance, _, c'.advance, _, if_pos hr, if_pos (hat.trans hr), h.advance ha,
      c.advances_advance.rest⟩
  · exact ⟨false, c, _, c', _, if_neg hr, if_neg (hat ▸ hr), h, List.suffix_refl _⟩

end Sequel

open Sequel

/-! What is read in both texts -/

namespace Outcome

variable {α β : Type} {k : Nat} {q : Sequel} {c c' : Cursor} {ends ends' : Prop}

/-- Reading stopped inside of the text or, if that may happen, ended with it. -/
def Whole (q : Sequel) (ends : Prop) (r : Outcome k c α) : Prop :=
  q.Ahead r.cursor ∨ (r.value.isSome ∧ ends)

/-- What was read in the text is read in the longer text. -/
def Carries [Shift α] (q : Sequel) (ends : Prop) (r : Outcome k c α) (r' : Outcome k c' α) : Prop :=
  r.Whole q ends → r'.value = r.value.map (shift q.offset) ∧ q.Continues r.cursor r'.cursor

theorem rest_ne_nil_of_isSome {r : Outcome 1 c α} (h : r.value.isSome) : c.rest ≠ [] := by
  have := r.consumes h
  exact rest_ne_nil_iff.mpr (by omega)

theorem rest_ne_nil_of_relax {r : Outcome 1 c α} (h : r.relax.value.isSome) : c.rest ≠ [] :=
  rest_ne_nil_of_isSome (r := r) h

theorem isSome_of_thenMaybe {r : Outcome 0 c α}
    {f : α → (d : Cursor) → d.weight ≤ c.weight → Outcome 0 d β}
    (h : (r.thenMaybe f).value.isSome) : r.value.isSome := by
  obtain ⟨_ | a, d, hle, hc⟩ := r
  · cases h
  · rfl

theorem Whole.ahead {r : Outcome 1 c α} (h : r.Whole q ends) : q.Ahead c := by
  rcases h with h | ⟨h, _⟩
  · exact h.mono r.le
  · exact .inr (rest_ne_nil_of_isSome h)

/-- The first part ends the text only if the second part may end it, or has a token left. -/
theorem Whole.first {m : Nat} {r : Outcome k c α} {s : Outcome m r.cursor β} (hr : r.value.isSome)
    (hs : s.Whole q ends) (hends : s.value.isSome → ends → ends' ∨ r.cursor.rest ≠ []) :
    r.Whole q ends' := by
  rcases hs with ha | ⟨hsome, hended⟩
  · exact .inl (ha.mono s.le)
  · rcases hends hsome hended with hb | hne
    · exact .inr ⟨hr, hb⟩
    · exact .inl (.inr hne)

variable [Shift α] [Shift β]

/-- Reading that needs a token to succeed may assume that there is one. -/
theorem carries_of_ahead {r : Outcome 1 c α} {r' : Outcome 1 c' α}
    (h : q.Ahead c → r.Carries q ends r') : r.Carries q ends r' := fun hw => h hw.ahead hw

/-- The same, when the first thing read needs a token. -/
theorem carries_of_needs {r : Outcome k c α} {r' : Outcome k c' α}
    (hneeds : r.value.isSome → c.rest ≠ []) (h : q.Ahead c → r.Carries q ends r') :
    r.Carries q ends r' := by
  intro hw
  rcases id hw with ha | ⟨hsome, _⟩
  · exact h (ha.mono r.le) hw
  · exact h (.inr (hneeds hsome)) hw

/-- Before something else, reading may assume that there is a token. -/
theorem carries_before_of_ahead {r : Outcome k c α} {r' : Outcome k c' α}
    (h : q.Ahead c → r.Carries q False r') : r.Carries q False r' := by
  intro hw
  rcases id hw with ha | ⟨_, hfalse⟩
  · exact h (ha.mono r.le) hw
  · exact hfalse.elim

theorem Carries.before {r : Outcome k c α} {r' : Outcome k c' α} (h : r.Carries q ends r') :
    r.Carries q False r' := fun hw => h (hw.imp_right fun hf => hf.2.elim)

theorem Carries.imp {r : Outcome k c α} {r' : Outcome k c' α} (h : r.Carries q ends r')
    (hends : ∀ a ∈ r.value, ends' → ends) : r.Carries q ends' r' := by
  intro hw
  apply h
  rcases hw with ha | ⟨hsome, hended⟩
  · exact .inl ha
  · obtain ⟨a, hvalue⟩ := Option.isSome_iff_exists.mp hsome
    exact .inr ⟨hsome, hends a hvalue hended⟩

/-- At the end of the text reading may assume that it may end. -/
theorem carries_of_ahead_or {r : Outcome k c α} {r' : Outcome k c' α}
    (h : q.Ahead c ∨ ends → r.Carries q ends r') : r.Carries q ends r' := by
  intro hw
  rcases id hw with ha | ⟨_, hended⟩
  · exact h (.inl (ha.mono r.le)) hw
  · exact h (.inr hended) hw

theorem carries_fail {d d' : Cursor} {h : d.weight ≤ c.weight} {h' : d'.weight ≤ c'.weight}
    (hd : q.Ahead d → q.Continues d d') :
    (fail d h : Outcome k c α).Carries q ends (fail d' h') := by
  intro hw
  rcases hw with ha | ⟨hsome, _⟩
  · exact ⟨rfl, hd ha⟩
  · cases hsome

theorem carries_done {a a' : α} (hc : q.Continues c c') (ha : a' = shift q.offset a) :
    (done a : Outcome 0 c α).Carries q ends (done a' : Outcome 0 c' α) := by
  intro _
  subst ha
  exact ⟨rfl, hc⟩

theorem carries_found {a a' : α} {d d' : Cursor} {h : d.weight < c.weight} {h' : d'.weight < c'.weight}
    (hd : q.Continues d d') (ha : a' = shift q.offset a) :
    (found a d h).Carries q ends (found a' d' h') := by
  intro _
  subst ha
  exact ⟨rfl, hd⟩

theorem Carries.relax {r : Outcome 1 c α} {r' : Outcome 1 c' α} (h : r.Carries q ends r') :
    r.relax.Carries q ends r'.relax := h

theorem Carries.map {r : Outcome k c α} {r' : Outcome k c' α} (h : r.Carries q ends r') {f f' : α → β}
    (hf : ∀ a, f' (shift q.offset a) = shift q.offset (f a)) :
    (r.map f).Carries q ends (r'.map f') := by
  intro hw
  obtain ⟨hvalue, hcursor⟩ := h (by simpa [Whole, Outcome.map] using hw)
  refine ⟨?_, hcursor⟩
  cases hr : r.value <;> simp [Outcome.map, hvalue, hr, hf]

theorem Carries.weaken {d d' : Cursor} {r : Outcome k d α} {r' : Outcome k d' α}
    (h : r.Carries q ends r') {hle : d.weight ≤ c.weight} {hle' : d'.weight ≤ c'.weight} :
    (r.weaken hle).Carries q ends (r'.weaken hle') := h

section Chain

variable {r : Outcome 1 c α} {r' : Outcome 1 c' α}
  {f : α → (d : Cursor) → d.weight < c.weight → Outcome 0 d β}
  {f' : α → (d : Cursor) → d.weight < c'.weight → Outcome 0 d β}

/-- The first part ends the text only if the second part reads nothing. -/
theorem Carries.andThenOf (h : r.Carries q ends' r')
    (hends : ∀ a d hd, (f a d hd).value.isSome → ends → ends' ∨ d.rest ≠ [])
    (hf : ∀ a d hd d' hd', r.value = some a → r.cursor = d → q.Continues d d' →
      (f a d hd).Carries q ends (f' (shift q.offset a) d' hd')) :
    (r.andThen f).Carries q ends (r'.andThen f') := by
  obtain ⟨value, d, hle, hc⟩ := r
  obtain ⟨value', d', hle', hc'⟩ := r'
  intro hw
  cases value with
  | none =>
    rcases hw with ha | ⟨hsome, _⟩
    · obtain ⟨hvalue, hcursor⟩ := h (.inl ha)
      obtain rfl : value' = none := hvalue
      exact ⟨rfl, hcursor⟩
    · cases hsome
  | some a =>
    have hsecond : (f a d (hc rfl)).Whole q ends := hw
    obtain ⟨hvalue, hcursor⟩ := h (hsecond.first rfl (hends a d (hc rfl)))
    obtain rfl : value' = some (shift q.offset a) := hvalue
    exact hf a d (hc rfl) d' (hc' rfl) rfl rfl hcursor hw

theorem Carries.andThen (h : r.Carries q True r')
    (hf : ∀ a d hd d' hd', q.Continues d d' →
      (f a d hd).Carries q ends (f' (shift q.offset a) d' hd')) :
    (r.andThen f).Carries q ends (r'.andThen f') :=
  h.andThenOf (fun _ _ _ _ _ => .inl trivial) fun a d hd d' hd' _ _ => hf a d hd d' hd'

/-- The second part needs a token. -/
theorem Carries.andThenMore (h : r.Carries q False r')
    (hmore : ∀ a d hd, (f a d hd).value.isSome → d.rest ≠ [])
    (hf : ∀ a d hd d' hd', q.Continues d d' →
      (f a d hd).Carries q ends (f' (shift q.offset a) d' hd')) :
    (r.andThen f).Carries q ends (r'.andThen f') :=
  h.andThenOf (fun a d hd hsome _ => .inr (hmore a d hd hsome)) fun a d hd d' hd' _ _ =>
    hf a d hd d' hd'

end Chain

section Chain

variable {r : Outcome 0 c α} {r' : Outcome 0 c' α}
  {f : α → (d : Cursor) → d.weight ≤ c.weight → Outcome 0 d β}
  {f' : α → (d : Cursor) → d.weight ≤ c'.weight → Outcome 0 d β}

theorem Carries.thenMaybeOf (h : r.Carries q ends' r')
    (hends : ∀ a d hd, (f a d hd).value.isSome → ends → ends' ∨ d.rest ≠ [])
    (hf : ∀ a d hd d' hd', r.value = some a → r.cursor = d → q.Continues d d' →
      (f a d hd).Carries q ends (f' (shift q.offset a) d' hd')) :
    (r.thenMaybe f).Carries q ends (r'.thenMaybe f') := by
  obtain ⟨value, d, hle, hc⟩ := r
  obtain ⟨value', d', hle', hc'⟩ := r'
  intro hw
  cases value with
  | none =>
    rcases hw with ha | ⟨hsome, _⟩
    · obtain ⟨hvalue, hcursor⟩ := h (.inl ha)
      obtain rfl : value' = none := hvalue
      exact ⟨rfl, hcursor⟩
    · cases hsome
  | some a =>
    have hsecond : (f a d hle).Whole q ends := hw
    obtain ⟨hvalue, hcursor⟩ := h (hsecond.first rfl (hends a d hle))
    obtain rfl : value' = some (shift q.offset a) := hvalue
    exact hf a d hle d' hle' rfl rfl hcursor hw

theorem Carries.thenMaybe (h : r.Carries q True r')
    (hf : ∀ a d hd d' hd', q.Continues d d' →
      (f a d hd).Carries q ends (f' (shift q.offset a) d' hd')) :
    (r.thenMaybe f).Carries q ends (r'.thenMaybe f') :=
  h.thenMaybeOf (fun _ _ _ _ _ => .inl trivial) fun a d hd d' hd' _ _ => hf a d hd d' hd'

/-- Both parts stand before something else. -/
theorem Carries.thenMaybeBefore (h : r.Carries q False r')
    (hf : ∀ a d hd d' hd', q.Continues d d' →
      (f a d hd).Carries q False (f' (shift q.offset a) d' hd')) :
    (r.thenMaybe f).Carries q False (r'.thenMaybe f') :=
  h.thenMaybeOf (fun _ _ _ _ hfalse => hfalse.elim) fun a d hd d' hd' _ _ => hf a d hd d' hd'

theorem Carries.thenMaybeMore (h : r.Carries q False r')
    (hmore : ∀ a d hd, (f a d hd).value.isSome → d.rest ≠ [])
    (hf : ∀ a d hd d' hd', q.Continues d d' →
      (f a d hd).Carries q ends (f' (shift q.offset a) d' hd')) :
    (r.thenMaybe f).Carries q ends (r'.thenMaybe f') :=
  h.thenMaybeOf (fun a d hd hsome _ => .inr (hmore a d hd hsome)) fun a d hd d' hd' _ _ =>
    hf a d hd d' hd'

end Chain

end Outcome

open Outcome

namespace Cursor

variable {α : Type} [Shift α] {q : Sequel} {c c' : Cursor}

theorem carries_expect (h : q.Continues c c') (t : Token) :
    (c.expect t).Carries q True (c'.expect t) := by
  apply carries_of_ahead
  intro ha
  have hat := h.isAt ha t
  unfold expect
  by_cases hr : c.isAt t = true
  · rw [dif_pos hr, dif_pos (hat.trans hr)]
    exact carries_found (h.advance ha) (h.currentSpan ha)
  · rw [dif_neg hr, dif_neg (hat ▸ hr)]
    exact carries_fail fun _ => h.reportExpected ha _

theorem carries_expectName (h : q.Continues c c') (what : String) :
    (c.expectName what).Carries q True (c'.expectName what) := by
  apply carries_of_ahead
  intro ha
  have hpeek := h.peek? ha
  unfold expectName
  split
  · rename_i name hname
    split
    · rename_i name' hname'
      obtain rfl : name' = name := by
        rw [hpeek, hname] at hname'
        exact (Token.identifier.inj (Option.some.inj hname')).symm
      exact carries_found (h.advance ha) (by rw [h.currentSpan ha]; rfl)
    · rename_i hnone
      exact absurd (hpeek.trans hname) (hnone name)
  · rename_i hnone
    split
    · rename_i name' hname'
      exact absurd (hpeek.symm.trans hname') (hnone name')
    · exact carries_fail fun _ => h.reportExpected ha _

/-- The items of a list stand before a comma or the closing mark. -/
theorem carries_commaList (close : Mark) {c c' : Cursor} (h : q.Continues c c')
    (item : (d : Cursor) → d.weight ≤ c.weight → Outcome 1 d α)
    (item' : (d : Cursor) → d.weight ≤ c'.weight → Outcome 1 d α)
    (hitem : ∀ d hd d' hd', q.Continues d d' → (item d hd).Carries q False (item' d' hd')) :
    (commaList close c item).Carries q True (commaList close c' item') := by
  apply carries_of_ahead
  intro ha
  have hat := h.isAt ha (.mark close)
  rw [commaList, commaList, isAtMark, isAtMark, hat]
  split
  · exact (carries_expect h _).map fun _ => rfl
  · apply (hitem c _ c' _ h).andThenMore
    · intro a d hd hsome
      cases he : d.eat? (.mark .comma) with
      | none =>
        simp only [he] at hsome
        exact rest_ne_nil_of_isSome (r := (d.expect (.mark close)).map fun _ => [a]) hsome
      | some e =>
        intro hnil
        simp [eat?, isAt, peek?, hnil] at he
    · intro a d hd d' hd' hcont
      rcases hcont.eat? (.mark .comma) (.inr (hides_of_not_opens rfl)) with
        ⟨he, he'⟩ | ⟨e, hlt, e', hlt', he, he', hnext⟩
      · simp only [he, he']
        apply Carries.relax
        exact (carries_expect hcont _).map fun _ => rfl
      · simp only [he, he']
        apply Carries.weaken
        apply Carries.relax
        have hmore := carries_commaList close hnext _ _ fun f hf f' hf' => hitem f
          (Nat.le_trans hf (Nat.le_of_lt (Nat.lt_trans hlt hd))) f'
          (Nat.le_trans hf' (Nat.le_of_lt (Nat.lt_trans hlt' hd')))
        exact hmore.map fun _ => rfl
termination_by c.weight
decreasing_by all_goals omega

theorem isAt_of_nil (h : c.rest = []) (t : Token) : c.isAt t = false := by
  simp [isAt, peek?, h]

theorem eat?_of_nil (h : c.rest = []) (t : Token) : c.eat? t = none := by
  simp [eat?, isAt_of_nil h]

/-! Skipping and statements -/

theorem skipWhile_of_nil {p : Lexeme → Bool} (h : c.rest = []) : (c.skipWhile p).val = c := by
  rw [skipWhile]
  split
  · rfl
  · simp_all

theorem skipWhile_of_pos {p : Lexeme → Bool} {l : Lexeme} {ls : List Lexeme} (h : c.rest = l :: ls)
    (hp : p l = true) : (c.skipWhile p).val = (c.advance.skipWhile p).val := by
  rw [skipWhile]
  split
  · simp_all
  · simp_all

theorem skipWhile_of_neg {p : Lexeme → Bool} {l : Lexeme} {ls : List Lexeme} (h : c.rest = l :: ls)
    (hp : p l = false) : (c.skipWhile p).val = c := by
  rw [skipWhile]
  split
  · rfl
  · simp_all

/-- Skipping stops in both texts, or goes on after the end of the first. -/
theorem continues_skipWhile (p : Lexeme → Bool) (hp : ∀ l, p (l.shift q.offset) = p l) {c c' : Cursor}
    (h : q.Continues c c') :
    ∃ e, q.Continues (c.skipWhile p).val e ∧ (c'.skipWhile p).val = (e.skipWhile p).val ∧
      (q.Ahead (c.skipWhile p).val → (e.skipWhile p).val = e) := by
  cases hr : c.rest with
  | nil =>
    rw [skipWhile_of_nil hr]
    refine ⟨c', h, rfl, ?_⟩
    rintro (ha | ha)
    · exact skipWhile_of_nil (by rw [h.rest_of_nil hr, q.nothing ha])
    · exact absurd hr ha
  | cons l ls =>
    have hr' : c'.rest = l.shift q.offset :: (ls.map (Lexeme.shift q.offset) ++ q.tokens) := by
      rw [h.rest, hr]
      rfl
    cases hl : p l with
    | true =>
      rw [skipWhile_of_pos hr hl, skipWhile_of_pos hr' (by rw [hp, hl])]
      have hlt := weight_advance_lt (weight_pos_of_rest hr)
      exact continues_skipWhile p hp (h.advance (.inr (by simp [hr])))
    | false =>
      rw [skipWhile_of_neg hr hl]
      refine ⟨c', h, rfl, fun _ => ?_⟩
      exact skipWhile_of_neg hr' (by rw [hp, hl])
termination_by c.weight
decreasing_by all_goals omega

theorem continues_separators (h : q.Continues c c') (ha : q.Ahead c.separators.val) :
    q.Continues c.separators.val c'.separators.val := by
  obtain ⟨e, he, heq, hstop⟩ :=
    continues_skipWhile (fun l => l.token = .mark .semicolon) (fun _ => rfl) h
  rw [separators, separators, heq, hstop ha]
  exact he

theorem continues_toSafePlace (h : q.Continues c c') (ha : q.Ahead c.toSafePlace.val) :
    q.Continues c.toSafePlace.val c'.toSafePlace.val := by
  obtain ⟨e, he, heq, hstop⟩ := continues_skipWhile
    (fun l => !(l.token = .mark .rightBrace) && !l.startsLine) (fun _ => rfl) h
  rw [toSafePlace, toSafePlace, heq, hstop ha]
  exact he

omit [Shift α] in
theorem statement_of_none (hpos : 0 < c.weight) {d : Cursor} {hle : d.weight ≤ c.weight}
    {hd : (none : Option α).isSome → d.weight + 1 ≤ c.weight} :
    (c.statement hpos (⟨none, d, hle, hd⟩ : Outcome 1 c α)).2.val =
      ((if d.weight < c.weight then d else d.advance).toSafePlace.val.separators).val := by
  simp only [statement]
  by_cases hlt : d.weight < c.weight
  · rw [dif_pos hlt, if_pos hlt]
  · rw [dif_neg hlt, if_neg hlt]

/-- One statement before another or before a brace, read or passed over. -/
theorem continues_statement (h : q.Continues c c') (hpos : 0 < c.weight) (hpos' : 0 < c'.weight)
    {r : Outcome 1 c α} {r' : Outcome 1 c' α} (hr : r.Carries q False r')
    (ha : q.Ahead (c.statement hpos r).2.val) :
    (c'.statement hpos' r').1 = (c.statement hpos r).1.map (shift q.offset) ∧
      q.Continues (c.statement hpos r).2.val (c'.statement hpos' r').2.val := by
  obtain ⟨value, d, hle, hd⟩ := r
  obtain ⟨value', d', hle', hd'⟩ := r'
  cases value with
  | some a =>
    have hahead : q.Ahead d := ha.mono d.separators.property
    obtain ⟨hvalue, hcursor⟩ := hr (.inl hahead)
    obtain rfl : value' = some (shift q.offset a) := hvalue
    exact ⟨rfl, continues_separators hcursor ha⟩
  | none =>
    rw [statement_of_none] at ha
    generalize hmoved : (if d.weight < c.weight then d else d.advance) = moved at ha
    have hsafe : q.Ahead moved.toSafePlace.val := ha.mono moved.toSafePlace.val.separators.property
    have hahead : q.Ahead moved := hsafe.mono moved.toSafePlace.property
    have hd : q.Ahead d := by
      apply hahead.mono
      rw [← hmoved]
      split
      · exact Nat.le_refl _
      · exact d.weight_advance_le
    obtain ⟨hvalue, hcursor⟩ := hr (.inl hd)
    obtain rfl : value' = none := hvalue
    refine ⟨rfl, ?_⟩
    rw [statement_of_none, statement_of_none, hmoved]
    have hnext : q.Continues moved (if d'.weight < c'.weight then d' else d'.advance) := by
      have hweight := h.weight
      have hweight' : d'.weight = d.weight + Lexeme.totalSize q.tokens := hcursor.weight
      rw [← hmoved]
      by_cases hlt : d.weight < c.weight
      · rw [if_pos hlt, if_pos (by omega)]
        exact hcursor
      · rw [if_neg hlt, if_neg (by omega)]
        exact hcursor.advance hd
    exact continues_separators (continues_toSafePlace hnext hsafe) ha

omit [Shift α] in
theorem statements_of_stop {item : (d : Cursor) → d.weight ≤ c.weight → Outcome 1 d α}
    (h : c.isAtEnd = true ∨ c.isAtMark .rightBrace = true) :
    c.statements item = ([], ⟨c, Nat.le_refl _⟩) := by
  rw [statements, dif_pos h]

omit [Shift α] in
theorem statements_of_go (item : (d : Cursor) → d.weight ≤ c.weight → Outcome 1 d α)
    (h : ¬ (c.isAtEnd = true ∨ c.isAtMark .rightBrace = true)) (hpos : 0 < c.weight) :
    let first := c.statement hpos (item c (Nat.le_refl _))
    let more := first.2.val.statements fun e he =>
      item e (Nat.le_trans he (Nat.le_of_lt first.2.property))
    (c.statements item).1 = first.1.toList ++ more.1 ∧ (c.statements item).2.val = more.2.val := by
  rw [statements, dif_neg h]
  exact ⟨rfl, rfl⟩

omit [Shift α] in
theorem stops_statements (c : Cursor) (item : (d : Cursor) → d.weight ≤ c.weight → Outcome 1 d α) :
    (c.statements item).2.val.isAtEnd = true ∨
      (c.statements item).2.val.isAtMark .rightBrace = true := by
  fun_induction statements c item with
  | case1 c item hc => exact hc
  | case2 c item hc hpos a? d hd hs more ih => exact ih

/-- A brace is among the tokens that are left. -/
def HasBrace (c : Cursor) : Prop := ∃ l ∈ c.rest, l.token = .mark .rightBrace

omit [Shift α] in
theorem hasBrace_of_ahead {item : (d : Cursor) → d.weight ≤ c.weight → Outcome 1 d α}
    (hsound : ∀ d hd, (item d hd).Sound) (ha : q.Ahead (c.statements item).2.val) :
    q.isEnd = true ∨ c.HasBrace := by
  rcases ha with ha | ha
  · exact .inl ha
  · right
    have hsuffix := (advances_statements c item hsound).rest
    have hstop := stops_statements c item
    cases hr : (c.statements item).2.val.rest with
    | nil => exact absurd hr ha
    | cons l ls =>
      rw [hr] at hsuffix
      refine ⟨l, hsuffix.subset List.mem_cons_self, ?_⟩
      simpa [isAtEnd, isAtMark, isAt, peek?, hr] using hstop

/-- The statements before a brace. -/
theorem continues_statements {c c' : Cursor} (h : q.Continues c c')
    (item : (d : Cursor) → d.weight ≤ c.weight → Outcome 1 d α)
    (item' : (d : Cursor) → d.weight ≤ c'.weight → Outcome 1 d α)
    (hsound : ∀ d hd, (item d hd).Sound)
    (hitem : ∀ d hd d' hd', q.Continues d d' → q.isEnd = true ∨ d.HasBrace →
      (item d hd).Carries q False (item' d' hd'))
    (ha : q.Ahead (c.statements item).2.val) :
    (c'.statements item').1 = (c.statements item).1.map (shift q.offset) ∧
      q.Continues (c.statements item).2.val (c'.statements item').2.val := by
  have hahead : q.Ahead c := ha.mono (c.statements item).2.property
  have hleft := hasBrace_of_ahead hsound ha
  have hend : c'.isAtEnd = c.isAtEnd := by
    have hpeek := h.peek? hahead
    cases hr : c.rest <;> cases hr' : c'.rest <;> simp_all [isAtEnd, peek?]
  have hbrace := h.isAt hahead (.mark .rightBrace)
  by_cases hstop : c.isAtEnd = true ∨ c.isAtMark .rightBrace = true
  · have hstop' : c'.isAtEnd = true ∨ c'.isAtMark .rightBrace = true := by
      rw [isAtMark, hbrace, hend]
      exact hstop
    rw [statements_of_stop hstop, statements_of_stop hstop']
    exact ⟨rfl, h⟩
  · have hstop' : ¬ (c'.isAtEnd = true ∨ c'.isAtMark .rightBrace = true) := by
      rw [isAtMark, hbrace, hend]
      exact hstop
    have hpos : 0 < c.weight := weight_pos_of_not_isAtEnd (by simpa using (not_or.mp hstop).1)
    have hpos' : 0 < c'.weight := weight_pos_of_not_isAtEnd (by simpa using (not_or.mp hstop').1)
    obtain ⟨hfst, hsnd⟩ := statements_of_go item hstop hpos
    obtain ⟨hfst', hsnd'⟩ := statements_of_go item' hstop' hpos'
    rw [hsnd] at ha
    generalize hs : c.statement hpos (item c (Nat.le_refl _)) = first at *
    generalize hs' : c'.statement hpos' (item' c' (Nat.le_refl _)) = first' at *
    obtain ⟨a?, d, hd⟩ := first
    obtain ⟨a?', d', hd'⟩ := first'
    have hfirst := continues_statement h hpos hpos'
      (hitem c (Nat.le_refl _) c' (Nat.le_refl _) h hleft)
    rw [hs, hs'] at hfirst
    obtain ⟨hvalue, hnext⟩ := hfirst (ha.mono (d.statements _).2.property)
    obtain ⟨hmore, hcursor⟩ := continues_statements hnext _ _ (fun e he => hsound e _)
      (fun e he e' he' => hitem e (Nat.le_trans he (Nat.le_of_lt hd)) e'
        (Nat.le_trans he' (Nat.le_of_lt hd'))) ha
    rw [hfst, hfst', hsnd, hsnd']
    refine ⟨?_, hcursor⟩
    dsimp only at hvalue
    rw [hmore, hvalue, List.map_append]
    congr 1
    cases a? <;> rfl
termination_by c.weight
decreasing_by all_goals omega

end Cursor

/-! Types -/

variable {q : Sequel} {c d c' d' : Cursor}

theorem carries_selectedCase (start : Span) (type : TypeRef) (h : q.Continues c c') :
    (selectedCase start type c).Carries q False
      (selectedCase (start.shift q.offset) (type.shift q.offset) c') := by
  apply carries_before_of_ahead
  intro ha
  unfold selectedCase
  rcases h.eat? (.mark .dot) (.inl ha) with ⟨hd, hd'⟩ | ⟨d, hlt, d', hlt', hd, hd', hnext⟩
  · simp only [hd, hd']
    exact carries_done h rfl
  · simp only [hd, hd']
    apply Carries.weaken
    apply Carries.relax
    apply (Cursor.carries_expectName hnext _).andThen
    rintro ⟨case, _⟩ e _ e' _ he
    exact carries_done he (by simp [TypeRef.shift, he.spanFrom])

theorem carries_typeRef {c c' : Cursor} (h : q.Continues c c') :
    (typeRef c).Carries q False (typeRef c') := by
  apply carries_of_ahead
  intro ha
  have hspan := h.currentSpan ha
  rw [typeRef, typeRef]
  dsimp only
  rw [hspan]
  rcases h.eat? (.mark .leftParen) (.inl ha) with ⟨hd, hd'⟩ | ⟨d, hlt, d', hlt', hd, hd', hnext⟩
  · simp only [hd, hd']
    apply (Cursor.carries_expectName h _).andThen
    rintro ⟨name, span⟩ d _ d' _ hcont
    apply carries_before_of_ahead
    intro had
    simp only [shift_prod, hcont.isAtLineStart had]
    split
    · exact carries_selectedCase _ _ hcont
    · rcases hcont.eat? (.mark .leftBracket) (.inl had) with
        ⟨he, he'⟩ | ⟨e, hlt, e', hlt', he, he', hnext⟩
      · simp only [he, he']
        exact carries_selectedCase _ _ hcont
      · simp only [he, he']
        apply Carries.weaken
        have hargs := Cursor.carries_commaList .rightBracket hnext (fun f _ => typeRef f)
          (fun f _ => typeRef f) fun f _ f' _ hf => carries_typeRef hf
        apply hargs.relax.thenMaybe
        intro args f _ f' _ hf
        rw [hf.spanFrom]
        have happlied := carries_selectedCase c.currentSpan
          (.applied (.named name span) args (f.spanFrom c.currentSpan)) hf
        simpa [TypeRef.shift] using happlied
  · simp only [hd, hd']
    apply Carries.weaken
    have hparams := Cursor.carries_commaList .rightParen hnext (fun e _ => typeRef e)
      (fun e _ => typeRef e) fun e _ e' _ he => carries_typeRef he
    apply hparams.andThen
    intro params e _ e' _ he
    apply Carries.relax
    apply (Cursor.carries_expect he _).andThen
    intro _ f _ f' _ hf
    apply (carries_typeRef hf).relax.thenMaybeBefore
    intro ret g _ g' _ hg
    exact carries_done hg (by simp [TypeRef.shift, hg.spanFrom])
termination_by c.weight
decreasing_by all_goals omega

theorem carries_typeAfterColon (h : q.Continues c c') :
    (typeAfterColon c).Carries q False (typeAfterColon c') := by
  apply carries_before_of_ahead
  intro ha
  unfold typeAfterColon
  rcases h.eat? (.mark .colon) (.inl ha) with ⟨hd, hd'⟩ | ⟨d, hlt, d', hlt', hd, hd', hnext⟩
  · simp only [hd, hd']
    exact carries_done h rfl
  · simp only [hd, hd']
    apply Carries.weaken
    apply Carries.relax
    exact (carries_typeRef hnext).map fun _ => rfl

theorem carries_typeParams (h : q.Continues c c') :
    (typeParams c).Carries q False (typeParams c') := by
  apply carries_before_of_ahead
  intro ha
  unfold typeParams
  rcases h.eat? (.mark .leftBracket) (.inl ha) with ⟨hd, hd'⟩ | ⟨d, hlt, d', hlt', hd, hd', hnext⟩
  · simp only [hd, hd']
    exact carries_done h rfl
  · simp only [hd, hd']
    apply Carries.weaken
    apply Carries.relax
    apply Carries.before
    apply Cursor.carries_commaList _ hnext
    intro e _ e' _ he
    apply Carries.before
    exact (Cursor.carries_expectName he _).map fun _ => rfl

theorem carries_param (h : q.Continues c c') : (param c).Carries q False (param c') := by
  apply (Cursor.carries_expectName h _).andThen
  rintro ⟨name, span⟩ d _ d' _ hd
  apply Carries.relax
  apply (Cursor.carries_expect hd _).andThen
  intro _ e _ e' _ he
  apply (carries_typeRef he).relax.thenMaybeBefore
  intro type f _ f' _ hf
  exact carries_done hf (by simp [Param.shift, hf.spanFrom])

theorem carries_params (h : q.Continues c c') : (params c).Carries q True (params c') := by
  apply (Cursor.carries_expect h _).andThen
  intro _ d _ d' _ hd
  apply Carries.relax
  apply Cursor.carries_commaList _ hd
  intro e _ e' _ he
  exact carries_param he

/-! Declarations of data -/

theorem carries_caseField (h : q.Continues c c') :
    (caseField c).Carries q False (caseField c') := by
  apply carries_of_ahead
  intro ha
  unfold caseField
  dsimp only
  rw [h.currentSpan ha]
  obtain ⟨isPublic, d, hlt, d', hlt', hd, hd', hnext, _⟩ := h.skip (.keyword .pub) ha
  rw [hd, hd']
  apply Carries.weaken
  apply (Cursor.carries_expectName hnext _).andThen
  rintro ⟨name, _⟩ e _ e' _ he
  apply Carries.relax
  apply (Cursor.carries_expect he _).andThen
  intro _ f _ f' _ hf
  apply (carries_typeRef hf).relax.thenMaybeBefore
  intro type g _ g' _ hg
  exact carries_done hg (by simp [FieldDecl.shift, hg.spanFrom])

/-- The last token read on the way from `c` to `d` is a name. -/
def Cursor.ReadsName (c d : Cursor) : Prop := ∃ l, l.token.isIdentifier = true ∧ l :: d.rest <:+ c.rest

theorem Cursor.ReadsName.hides {m : Mark} (h : c.ReadsName d) (hshut : q.Shuts m c.rest)
    (hnil : d.rest = []) : q.Hides (.mark m) := by
  obtain ⟨l, hname, hsuffix⟩ := h
  rw [hnil] at hsuffix
  exact (hshut.suffix hsuffix) l rfl hname

theorem Cursor.ReadsName.of_suffix (h : d.ReadsName d') (hs : d.rest <:+ c.rest) : c.ReadsName d' := by
  obtain ⟨l, hname, hsuffix⟩ := h
  exact ⟨l, hname, hsuffix.trans hs⟩

theorem readsName_expectName {what : String} {x : String × Span}
    (h : (c.expectName what).value = some x) : c.ReadsName (c.expectName what).cursor := by
  unfold Cursor.expectName at h ⊢
  split at h
  · rename_i name hpeek
    cases hr : c.rest with
    | nil => simp [Cursor.peek?, hr] at hpeek
    | cons l ls =>
      have htoken : l.token = .identifier name := by simpa [Cursor.peek?, hr] using hpeek
      refine ⟨l, by rw [htoken]; rfl, ?_⟩
      simp [found, Cursor.advance, hr]
  · cases h

/-- A parenthesis on a new line would continue a case without fields. -/
theorem carries_caseDecl (h : q.Continues c c') :
    (caseDecl c).Carries q (q.Shuts .leftParen c.rest) (caseDecl c') := by
  apply carries_of_ahead
  intro ha
  unfold caseDecl
  dsimp only
  rw [h.currentSpan ha]
  obtain ⟨isPublic, d, hlt, d', hlt', hd, hd', hnext, hsuffix⟩ := h.skip (.keyword .pub) ha
  rw [hd, hd']
  apply Carries.weaken
  apply (Cursor.carries_expectName hnext _).andThenOf fun _ _ _ _ _ => .inl trivial
  rintro ⟨name, span⟩ e _ e' _ hvalue rfl he
  apply carries_of_ahead_or
  intro hsee
  have hreads := (readsName_expectName hvalue).of_suffix hsuffix
  have heat := sees_or_hides (hsee.imp_right fun hshut hnil => hreads.hides hshut hnil)
  rcases he.eat? (.mark .leftParen) heat with ⟨hf, hf'⟩ | ⟨f, hlt, f', hlt', hf, hf', hfields⟩
  · simp only [hf, hf']
    exact carries_done he (by simp [CaseDecl.shift, he.spanFrom])
  · simp only [hf, hf']
    apply Carries.weaken
    have hlist := Cursor.carries_commaList .rightParen hfields (fun g _ => caseField g)
      (fun g _ => caseField g) fun g _ g' _ hg => carries_caseField hg
    apply hlist.relax.thenMaybe
    intro fields g _ g' _ hg
    exact carries_done hg (by simp [CaseDecl.shift, hg.spanFrom])

theorem carries_caseDecls {c c' : Cursor} (h : q.Continues c c') :
    (caseDecls c).Carries q (q.Shuts .leftParen c.rest) (caseDecls c') := by
  rw [caseDecls, caseDecls]
  apply (carries_caseDecl h).andThenOf fun _ _ _ _ hshut => .inl hshut
  intro first d _ d' _ _ hcursor hd
  have hsuffix : d.rest <:+ c.rest := hcursor ▸ (sound_caseDecl c).advances.rest
  rcases hd.eat? (.mark .pipe) (.inr (hides_of_not_opens rfl)) with
    ⟨he, he'⟩ | ⟨e, hlt, e', hlt', he, he', hnext⟩
  · simp only [he, he']
    exact carries_done hd rfl
  · simp only [he, he']
    apply Carries.weaken
    apply Carries.relax
    have hmore := (carries_caseDecls hnext).imp fun _ _ (hshut : q.Shuts .leftParen c.rest) =>
      hshut.suffix ((Cursor.advances_of_eat? he).rest.trans hsuffix)
    exact hmore.map fun _ => rfl
termination_by c.weight
decreasing_by all_goals omega

theorem carries_dataDecl (isPublic : Bool) (start : Span) (h : q.Continues c c') :
    (dataDecl isPublic start c).Carries q (q.Shuts .leftParen c.rest)
      (dataDecl isPublic (start.shift q.offset) c') := by
  apply (Cursor.carries_expect h _).andThenOf fun _ _ _ _ _ => .inl trivial
  intro _ d _ d' _ _ hcd hd
  apply Carries.relax
  apply (Cursor.carries_expectName hd _).andThenOf fun _ _ _ _ _ => .inl trivial
  rintro ⟨name, _⟩ e _ e' _ _ hde he
  apply (carries_typeParams he).thenMaybeOf fun _ _ _ hsome _ => .inr (rest_ne_nil_of_relax hsome)
  intro typeParams f _ f' _ _ hef hf
  apply Carries.relax
  apply (Cursor.carries_expect hf _).andThenOf fun _ _ _ _ _ => .inl trivial
  intro _ g _ g' _ _ hfg hg
  have hsuffix : g.rest <:+ c.rest := by
    have h₁ := (c.sound_expect (.keyword .data)).advances.rest
    have h₂ := (d.sound_expectName "type name").advances.rest
    have h₃ := (sound_typeParams e).advances.rest
    have h₄ := (f.sound_expect (.mark .equal)).advances.rest
    rw [hcd] at h₁
    rw [hde] at h₂
    rw [hef] at h₃
    rw [hfg] at h₄
    exact h₄.trans (h₃.trans (h₂.trans h₁))
  have hcases := (carries_caseDecls hg).imp fun _ _ (hshut : q.Shuts .leftParen c.rest) =>
    hshut.suffix hsuffix
  apply hcases.relax.thenMaybeOf fun _ _ _ _ hshut => .inl hshut
  intro cases i _ i' _ _ _ hi
  exact carries_done hi (by simp [Node.shift, DataDecl.shift, hi.spanFrom])

end Parse

end Tern
