import Tern.Proofs.Parse.Continued

/-!
The first token of a statement. Whether it stands first on its line, and what was read before it, makes
no difference to the statement.
-/

set_option autoImplicit false

namespace Tern.Parse

open Outcome

/-- The same tokens are left and the same errors are known; only the first token may stand first on
its line in one of the places and not in the other. -/
structure Twins (c c' : Cursor) : Prop where
  rest : c'.rest = Scan.freshen c.rest
  textStop : c'.textStop = c.textStop
  errors : c'.errors = c.errors

namespace Twins

variable {c c' : Cursor}

theorem peek? (h : Twins c c') : c'.peek? = c.peek? := by
  rw [Cursor.peek?, h.rest, Cursor.peek?]
  cases c.rest <;> rfl

theorem isAt (h : Twins c c') (t : Token) : c'.isAt t = c.isAt t := by
  rw [Cursor.isAt, h.peek?, Cursor.isAt]

theorem isAtEnd (h : Twins c c') : c'.isAtEnd = c.isAtEnd := by
  rw [Cursor.isAtEnd, h.rest, Cursor.isAtEnd]
  cases c.rest <;> rfl

theorem weight (h : Twins c c') : c'.weight = c.weight := by
  rw [Cursor.weight, h.rest, Cursor.weight]
  cases c.rest <;> rfl

theorem currentSpan (h : Twins c c') : c'.currentSpan = c.currentSpan := by
  rw [Cursor.currentSpan, h.rest, h.textStop, Cursor.currentSpan]
  cases c.rest <;> rfl

/-- After a token the places are the same. -/
theorem advance (h : Twins c c') (hne : c.rest ≠ []) : c'.advance = c.advance := by
  obtain ⟨rest, lastStop, textStop, errors⟩ := c
  obtain ⟨rest', lastStop', textStop', errors'⟩ := c'
  obtain ⟨hrest, htext, herrors⟩ := h
  dsimp only at hrest htext herrors hne
  subst hrest htext herrors
  cases rest with
  | nil => exact absurd rfl hne
  | cons l ls => rfl

theorem advance_of_isAt (h : Twins c c') {t : Token} (hat : c.isAt t = true) :
    c'.advance = c.advance :=
  h.advance (Sequel.rest_ne_nil_iff.mpr (Cursor.weight_pos_of_isAt hat))

theorem reportExpected (h : Twins c c') (what : String) :
    Twins (c.reportExpected what) (c'.reportExpected what) := by
  refine ⟨h.rest, h.textStop, ?_⟩
  simp only [Cursor.reportExpected, Cursor.report, h.errors, h.rest, h.textStop]
  cases c.rest <;> rfl

/-- A token is read in both places or in none, and leads to the same place. -/
theorem eat? (h : Twins c c') (t : Token) :
    (c.eat? t = none ∧ c'.eat? t = none) ∨
      ∃ d hd hd', c.eat? t = some ⟨d, hd⟩ ∧ c'.eat? t = some ⟨d, hd'⟩ := by
  have hat := h.isAt t
  by_cases hr : c.isAt t = true
  · have hlt : c.advance.weight < c'.weight := by
      rw [← h.advance_of_isAt hr]
      exact Cursor.weight_advance_lt (Cursor.weight_pos_of_isAt (hat.trans hr))
    refine .inr ⟨c.advance, _, hlt, dif_pos hr, ?_⟩
    rw [Cursor.eat?, dif_pos (hat.trans hr)]
    simp only [h.advance_of_isAt hr]
  · exact .inl ⟨dif_neg hr, dif_neg (hat ▸ hr)⟩

theorem signOperator? (h : Twins c c') :
    (signOperator? c = none ∧ signOperator? c' = none) ∨
      ∃ op d hd hd', signOperator? c = some (op, ⟨d, hd⟩) ∧ signOperator? c' = some (op, ⟨d, hd'⟩) := by
  unfold Parse.signOperator?
  rcases h.eat? (.mark .bang) with ⟨hb, hb'⟩ | ⟨d, hd, hd', hb, hb'⟩
  · rcases h.eat? (.mark .minus) with ⟨hm, hm'⟩ | ⟨d, hd, hd', hm, hm'⟩
    · exact .inl ⟨by rw [hb, hm], by rw [hb', hm']⟩
    · exact .inr ⟨.negate, d, hd, hd', by rw [hb, hm], by rw [hb', hm']⟩
  · exact .inr ⟨.not, d, hd, hd', by rw [hb], by rw [hb']⟩

theorem isPath_iff {m p n : String} {s₁ s₂ s₃ s₄ s₅ : Span} {ls rest : List Lexeme} :
    IsPath m p n s₁ s₂ s₃ s₄ s₅ (Scan.freshen ls) rest ↔ IsPath m p n s₁ s₂ s₃ s₄ s₅ ls rest := by
  constructor
  · rintro ⟨⟨f₁, f₂, f₃, f₄, f₅, htokens⟩, hjoined⟩
    cases ls with
    | nil => cases htokens
    | cons l ls =>
      obtain ⟨t, s, f⟩ := l
      simp only [Scan.freshen, List.cons.injEq, Lexeme.mk.injEq] at htokens
      obtain ⟨⟨rfl, rfl, _⟩, rfl⟩ := htokens
      exact ⟨⟨f, f₂, f₃, f₄, f₅, rfl⟩, hjoined⟩
  · rintro ⟨⟨f₁, f₂, f₃, f₄, f₅, rfl⟩, hjoined⟩
    exact ⟨⟨true, f₂, f₃, f₄, f₅, rfl⟩, hjoined⟩

theorem qualifiedName? (h : Twins c c') :
    (qualifiedName? c = none ∧ qualifiedName? c' = none) ∨
      ∃ node d hd hd', qualifiedName? c = some (node, ⟨d, hd⟩) ∧
        qualifiedName? c' = some (node, ⟨d, hd'⟩) := by
  have hiff (node : Node) (d : Cursor) (hd : d.weight < c.weight) (hd' : d.weight < c'.weight) :
      Parse.qualifiedName? c' = some (node, ⟨d, hd'⟩) ↔
        Parse.qualifiedName? c = some (node, ⟨d, hd⟩) := by
    simp only [qualifiedName?_eq_some_iff, h.rest, isPath_iff, h.textStop, h.errors]
  have hweight := h.weight
  cases hq : Parse.qualifiedName? c with
  | none =>
    cases hq' : Parse.qualifiedName? c' with
    | none => exact .inl ⟨rfl, rfl⟩
    | some x =>
      obtain ⟨node, d, hd'⟩ := x
      rw [hiff node d (by omega)] at hq'
      rw [hq] at hq'
      cases hq'
  | some x =>
    obtain ⟨node, d, hd⟩ := x
    exact .inr ⟨node, d, hd, by omega, rfl, (hiff node d hd (by omega)).mpr hq⟩

end Twins

/-- What is found from one place is found from the other, and reading ends at the same place. -/
def Outcome.Agrees {α : Type} {k : Nat} {c c' : Cursor} (r : Outcome k c α) (r' : Outcome k c' α) :
    Prop :=
  ∀ a, r.value = some a → r'.value = some a ∧ r'.cursor = r.cursor

section Agrees

variable {α β : Type} {k : Nat} {c c' : Cursor}

theorem agrees_found {a : α} {d d' : Cursor} {hd : d.weight < c.weight} {hd' : d'.weight < c'.weight}
    (h : d' = d) : (found a d hd).Agrees (found a d' hd') :=
  fun _ ha => ⟨ha, h⟩

theorem agrees_fail {d : Cursor} {h : d.weight ≤ c.weight} {r' : Outcome k c' α} :
    (fail d h : Outcome k c α).Agrees r' := by
  intro a ha
  cases ha

theorem agrees_weaken {d d' : Cursor} (hd : d' = d) {hle : d.weight ≤ c.weight}
    {hle' : d'.weight ≤ c'.weight} (p : (d : Cursor) → Outcome k d α) :
    ((p d).weaken hle).Agrees ((p d').weaken hle') := by
  subst hd
  exact fun _ ha => ⟨ha, rfl⟩

theorem Outcome.Agrees.map {r : Outcome k c α} {r' : Outcome k c' α} (h : r.Agrees r') (f : α → β) :
    (r.map f).Agrees (r'.map f) := by
  intro b hb
  simp only [Outcome.map, Option.map_eq_some_iff] at hb
  obtain ⟨a, ha, rfl⟩ := hb
  obtain ⟨hvalue, hcursor⟩ := h a ha
  exact ⟨by simp [Outcome.map, hvalue], hcursor⟩

/-- What follows does not depend on where reading began. -/
theorem Outcome.Agrees.andThen {r : Outcome 1 c α} {r' : Outcome 1 c' α} (h : r.Agrees r')
    (f : α → (d : Cursor) → Outcome 0 d β) :
    (r.andThen fun a d _ => f a d).Agrees (r'.andThen fun a d _ => f a d) := by
  obtain ⟨_ | a, d, hle, hc⟩ := r
  · intro b hb
    cases hb
  · obtain ⟨value', d', hle', hc'⟩ := r'
    obtain ⟨hvalue, hcursor⟩ := h a rfl
    dsimp only at hvalue hcursor
    subst hvalue hcursor
    exact fun _ hb => ⟨hb, rfl⟩

end Agrees

variable {c c' : Cursor}

theorem agrees_expect (h : Twins c c') (t : Token) : (c.expect t).Agrees (c'.expect t) := by
  have hat := h.isAt t
  unfold Cursor.expect
  by_cases hr : c.isAt t = true
  · rw [dif_pos hr, dif_pos (hat.trans hr)]
    intro span hspan
    exact ⟨by rw [← hspan]; exact congrArg some h.currentSpan, h.advance_of_isAt hr⟩
  · rw [dif_neg hr]
    exact agrees_fail

theorem agrees_blockBody (h : Twins c c') : (blockBody c).Agrees (blockBody c') := by
  rw [blockBody, blockBody]
  exact (agrees_expect h _).andThen _

theorem agrees_branch (h : Twins c c') : (branch c).Agrees (branch c') := by
  rw [branch, branch]
  exact (agrees_expect h _).andThen _

theorem agrees_primary (h : Twins c c') : (primary c).Agrees (primary c') := by
  rcases hr : c.rest with _ | ⟨l, ls⟩
  · rw [primary_of_nil hr]
    exact agrees_fail
  have hadvance := h.advance (by simp [hr])
  have hspan := h.currentSpan
  have hpeek : c.peek? = some l.token := by simp [Cursor.peek?, hr]
  have hpeek' : c'.peek? = some l.token := h.peek?.trans hpeek
  have hlt := Cursor.weight_advance_lt (Cursor.weight_pos_of_peek? hpeek)
  have hlt' := Cursor.weight_advance_lt (Cursor.weight_pos_of_peek? hpeek')
  rw [primary_eq hpeek hlt, primary_eq hpeek' hlt']
  cases l.token with
  | keyword w =>
    cases w with
    | trueWord | falseWord =>
      dsimp only [readPrimary]
      rw [hspan]
      exact agrees_found hadvance
    | ifWord => exact agrees_branch h
    | whileWord | returnWord | fn => exact (agrees_expect h _).andThen _
    | _ => exact agrees_fail
  | mark m =>
    cases m with
    | leftParen =>
      dsimp only [readPrimary]
      exact agrees_weaken hadvance fun d => (binary .or d).andThen fun inner e _ =>
        ((e.expect (.mark .rightParen)).map fun _ => inner).relax
    | leftBrace => exact (agrees_blockBody h).map _
    | leftBracket =>
      dsimp only [readPrimary]
      rw [hspan]
      exact agrees_weaken hadvance fun d =>
        (d.commaList .rightBracket fun e _ => binary .or e).andThen fun elements e _ =>
          .done (Node.array elements (e.spanFrom c.currentSpan))
    | _ => exact agrees_fail
  | integer text =>
    dsimp only [readPrimary]
    rw [hspan]
    cases integerOf? text with
    | some n => exact agrees_found hadvance
    | none => exact agrees_found (by rw [hadvance])
  | float text =>
    dsimp only [readPrimary]
    rw [hspan]
    exact agrees_found hadvance
  | string raw =>
    dsimp only [readPrimary]
    rw [hspan]
    exact agrees_found (by rw [hadvance])
  | identifier name =>
    dsimp only [readPrimary]
    rw [hspan]
    split
    · exact agrees_found hadvance
    · rcases h.qualifiedName? with ⟨hpath, hpath'⟩ | ⟨node, d, hd, hd', hpath, hpath'⟩
      · rw [hpath, hpath']
        exact agrees_found hadvance
      · rw [hpath, hpath']
        exact agrees_found rfl

theorem agrees_unary (h : Twins c c') : (unary c).Agrees (unary c') := by
  rw [unary, unary, h.currentSpan]
  rcases h.signOperator? with ⟨hop, hop'⟩ | ⟨op, d, hd, hd', hop, hop'⟩
  · rw [hop, hop', suffixed, suffixed]
    exact (agrees_primary h).andThen _
  · rw [hop, hop']
    exact fun _ hvalue => ⟨hvalue, rfl⟩

theorem agrees_assignment (h : Twins c c') : (assignment c).Agrees (assignment c') := by
  obtain ⟨more, hmore⟩ := assignment_startsWith
  rw [hmore, hmore]
  exact (agrees_unary h).andThen _

theorem formOf_freshen (ls : List Lexeme) : formOf (Scan.freshen ls) = formOf ls := by
  rcases ls with _ | ⟨⟨t, _, _⟩, _ | ⟨⟨u, _, _⟩, ls⟩⟩
  · rfl
  · cases t with
    | keyword w => cases w <;> rfl
    | _ => rfl
  · cases t with
    | keyword w => cases w <;> cases u <;> rfl
    | _ => rfl

theorem agrees_statement (h : Twins c c') : (statement c).Agrees (statement c') := by
  have hat := h.isAt (.keyword .pub)
  by_cases hr : c.isAt (.keyword .pub) = true
  · rw [statement_eq (if_pos hr), statement_eq (if_pos (hat.trans hr)), h.currentSpan]
    exact agrees_weaken (h.advance_of_isAt hr) fun d => readForm true c.currentSpan d (formOf d.rest)
  · rw [statement_eq (if_neg hr), statement_eq (if_neg (hat ▸ hr)), h.currentSpan, h.rest,
      formOf_freshen]
    cases formOf c.rest with
    | function =>
      change (functionDecl false c.currentSpan c).Agrees (functionDecl false c.currentSpan c')
      rw [functionDecl, functionDecl]
      exact (agrees_expect h _).andThen _
    | value isMutable =>
      change (variableDecl false isMutable c.currentSpan _ c).Agrees
        (variableDecl false isMutable c.currentSpan _ c')
      rw [variableDecl, variableDecl]
      exact (agrees_expect h _).andThen _
    | data => exact (agrees_expect h _).andThen _
    | other => exact agrees_assignment h

theorem twins_separators (h : Twins c c') :
    c'.separators.val = c.separators.val ∨ Twins c.separators.val c'.separators.val := by
  have hrest := h.rest
  unfold Cursor.separators
  cases hr : c.rest with
  | nil =>
    rw [hr] at hrest
    rw [Cursor.skipWhile_of_nil hr, Cursor.skipWhile_of_nil hrest]
    exact .inr h
  | cons l ls =>
    rw [hr] at hrest
    by_cases hl : l.token = .mark .semicolon
    · rw [Cursor.skipWhile_of_pos hr (by simpa using hl),
        Cursor.skipWhile_of_pos hrest (by simpa using hl), h.advance (by simp [hr])]
      exact .inl rfl
    · rw [Cursor.skipWhile_of_neg hr (by simpa using hl),
        Cursor.skipWhile_of_neg hrest (by simpa using hl)]
      exact .inr h

end Tern.Parse
