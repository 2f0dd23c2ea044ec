import Tern.Proofs.Parse.Sequel

/-!
Expressions and statements of a text that is part of a longer one. No operator, call, index or value
of `return` is looked for on the next line, and no other token that continues an expression can stand
first in a statement.
-/

set_option autoImplicit false

namespace Tern.Parse

open Sequel Outcome

variable {q : Sequel} {c d c' d' : Cursor}

/-- Where the text ends, the next token of the longer text, if there is one, starts a line. -/
theorem Sequel.Continues.at_end (h : q.Continues c c') (ha : ¬ q.Ahead c) :
    c.rest = [] ∧ (c'.rest = [] ∨ c'.isAtLineStart = true) := by
  have hnil : c.rest = [] := by
    by_contra hne
    exact ha (.inr hne)
  refine ⟨hnil, ?_⟩
  rw [Cursor.isAtLineStart, h.rest_of_nil hnil]
  have hopens := q.opens
  cases htokens : q.tokens with
  | nil => exact .inl rfl
  | cons l ls => exact .inr (hopens l (by rw [htokens]; rfl)).1

theorem operator?_eq_some_iff {l : Level} {op : BinaryOp} {d : Cursor} {hd : d.weight < c.weight} :
    operator? l c = some (op, ⟨d, hd⟩) ↔
      c.isAtLineStart = false ∧ ∃ m, c.peek? = some (.mark m) ∧ l.operator? m = some op ∧
        d = c.advance := by
  unfold operator?
  cases hline : c.isAtLineStart with
  | true => simp
  | false =>
    simp only [Bool.false_eq_true, if_false]
    split
    · rename_i m hm
      simp only [Option.map_eq_some_iff, Prod.mk.injEq, Subtype.mk.injEq, hm]
      constructor
      · rintro ⟨_, hop, rfl, rfl⟩
        exact ⟨trivial, m, rfl, hop, rfl⟩
      · rintro ⟨_, m', hm', hop, rfl⟩
        cases hm'
        exact ⟨op, hop, rfl, rfl⟩
    · rename_i hm
      simp only [false_iff, not_and, reduceCtorEq]
      rintro _ ⟨m, hm', _⟩
      exact hm m hm'

/-- No operator is looked for on the next line. -/
theorem Sequel.Continues.operator? (h : q.Continues c c') (l : Level) :
    (operator? l c = none ∧ operator? l c' = none) ∨
      ∃ op d hd d' hd', operator? l c = some (op, ⟨d, hd⟩) ∧
        operator? l c' = some (op, ⟨d', hd'⟩) ∧ q.Continues d d' := by
  by_cases ha : q.Ahead c
  · have hline := h.isAtLineStart ha
    have hpeek := h.peek? ha
    cases hop : Parse.operator? l c with
    | none =>
      refine .inl ⟨rfl, ?_⟩
      cases hop' : Parse.operator? l c' with
      | none => rfl
      | some x =>
        obtain ⟨op, d', hd'⟩ := x
        rw [operator?_eq_some_iff, hline, hpeek] at hop'
        obtain ⟨hfresh, m, hm, hlevel, _⟩ := hop'
        have hlt := Cursor.weight_advance_lt (Cursor.weight_pos_of_peek? hm)
        have : Parse.operator? l c = some (op, ⟨c.advance, hlt⟩) :=
          operator?_eq_some_iff.mpr ⟨hfresh, m, hm, hlevel, rfl⟩
        rw [hop] at this
        cases this
    | some x =>
      obtain ⟨op, d, hd⟩ := x
      have hop' := operator?_eq_some_iff.mp hop
      rw [← hline, ← hpeek] at hop'
      obtain ⟨hfresh, m, hm, hlevel, rfl⟩ := hop'
      have hlt := Cursor.weight_advance_lt (Cursor.weight_pos_of_peek? hm)
      exact .inr ⟨op, c.advance, hd, c'.advance, hlt, rfl,
        operator?_eq_some_iff.mpr ⟨hfresh, m, hm, hlevel, rfl⟩, h.advance ha⟩
  · obtain ⟨hnil, hnext⟩ := h.at_end ha
    have hnone {e : Cursor} (he : e.rest = []) : Parse.operator? l e = none := by
      unfold Parse.operator?
      split
      · rfl
      · split
        · rename_i hm
          simp [Cursor.peek?, he] at hm
        · rfl
    refine .inl ⟨hnone hnil, ?_⟩
    rcases hnext with hnext | hnext
    · exact hnone hnext
    · exact if_pos hnext

theorem Sequel.Continues.signOperator? (h : q.Continues c c') (ha : q.Ahead c) :
    (signOperator? c = none ∧ signOperator? c' = none) ∨
      ∃ op d hd d' hd', signOperator? c = some (op, ⟨d, hd⟩) ∧
        signOperator? c' = some (op, ⟨d', hd'⟩) ∧ q.Continues d d' := by
  unfold Parse.signOperator?
  rcases h.eat? (.mark .bang) (.inl ha) with ⟨hb, hb'⟩ | ⟨d, hd, d', hd', hb, hb', hnext⟩
  · rcases h.eat? (.mark .minus) (.inl ha) with ⟨hm, hm'⟩ | ⟨d, hd, d', hd', hm, hm', hnext⟩
    · exact .inl ⟨by rw [hb, hm], by rw [hb', hm']⟩
    · exact .inr ⟨.negate, d, hd, d', hd', by rw [hb, hm], by rw [hb', hm'], hnext⟩
  · exact .inr ⟨.not, d, hd, d', hd', by rw [hb], by rw [hb'], hnext⟩

/-- The tokens of a path without blanks, and what follows. -/
structure IsPath (m p n : String) (s₁ s₂ s₃ s₄ s₅ : Span) (ls rest : List Lexeme) : Prop where
  tokens : ∃ f₁ f₂ f₃ f₄ f₅, ls = ⟨.identifier m, s₁, f₁⟩ :: ⟨.mark .slash, s₂, f₂⟩ ::
    ⟨.identifier p, s₃, f₃⟩ :: ⟨.mark .dot, s₄, f₄⟩ :: ⟨.identifier n, s₅, f₅⟩ :: rest
  joined : s₁.stop = s₂.start ∧ s₂.stop = s₃.start ∧ s₃.stop = s₄.start ∧ s₄.stop = s₅.start

theorem qualifiedName?_eq_some_iff {node : Node} {d : Cursor} {hd : d.weight < c.weight} :
    qualifiedName? c = some (node, ⟨d, hd⟩) ↔
      ∃ m p n s₁ s₂ s₃ s₄ s₅ rest, IsPath m p n s₁ s₂ s₃ s₄ s₅ c.rest rest ∧
        node = .qualified ⟨m, p⟩ n s₅ (s₁.join s₅) ∧ d = { c with rest, lastStop := s₅.stop } := by
  constructor
  · intro h
    unfold qualifiedName? at h
    split at h
    · rename_i m s₁ f₁ s₂ f₂ p s₃ f₃ s₄ f₄ n s₅ f₅ rest hrest
      split at h
      · rename_i hjoined
        cases h
        exact ⟨m, p, n, s₁, s₂, s₃, s₄, s₅, rest, ⟨⟨f₁, f₂, f₃, f₄, f₅, hrest⟩, hjoined⟩, rfl, rfl⟩
      · cases h
    · cases h
  · rintro ⟨m, p, n, s₁, s₂, s₃, s₄, s₅, rest, ⟨⟨f₁, f₂, f₃, f₄, f₅, hrest⟩, hjoined⟩, rfl, rfl⟩
    unfold qualifiedName?
    split
    · rename_i heq
      rw [hrest] at heq
      cases heq
      rw [if_pos hjoined]
    · rename_i hnot
      exact absurd hrest (hnot m s₁ f₁ s₂ f₂ p s₃ f₃ s₄ f₄ n s₅ f₅ rest)

theorem IsPath.shift {m p n : String} {s₁ s₂ s₃ s₄ s₅ : Span} {ls rest : List Lexeme}
    (h : IsPath m p n s₁ s₂ s₃ s₄ s₅ ls rest) (k : Nat) (more : List Lexeme) :
    IsPath m p n (s₁.shift k) (s₂.shift k) (s₃.shift k) (s₄.shift k) (s₅.shift k)
      (ls.map (Lexeme.shift k) ++ more) (rest.map (Lexeme.shift k) ++ more) := by
  obtain ⟨⟨f₁, f₂, f₃, f₄, f₅, rfl⟩, hjoined⟩ := h
  refine ⟨⟨f₁, f₂, f₃, f₄, f₅, rfl⟩, ?_⟩
  simp only [Span.shift]
  omega

/-- A path does not go on after the end of the text, because of the blank there. -/
theorem IsPath.of_continues {m p n : String} {s₁ s₂ s₃ s₄ s₅ : Span} {rest : List Lexeme}
    (h : q.Continues c c') (hne : c.rest ≠ []) (hp : IsPath m p n s₁ s₂ s₃ s₄ s₅ c'.rest rest) :
    ∃ t₁ t₂ t₃ t₄ t₅ rest', IsPath m p n t₁ t₂ t₃ t₄ t₅ c.rest rest' := by
  obtain ⟨⟨f₁, f₂, f₃, f₄, f₅, htokens⟩, h₁, h₂, h₃, h₄⟩ := hp
  -- the token before the end of the text does not touch the one after it
  have hapart (l : Lexeme) (hl : l ∈ c.rest) (t : Token) (s : Span) (f : Bool) (ls : List Lexeme)
      (hq : q.tokens = ⟨t, s, f⟩ :: ls) : (l.span.shift q.offset).stop ≠ s.start :=
    h.apart l hl ⟨t, s, f⟩ (by rw [hq]; rfl)
  rw [h.rest] at htokens
  rcases hr : c.rest with _ | ⟨l₁, _ | ⟨l₂, _ | ⟨l₃, _ | ⟨l₄, _ | ⟨l₅, ls⟩⟩⟩⟩⟩
  · exact absurd hr hne
  all_goals rw [hr] at htokens hapart
  all_goals simp only [List.map_cons, List.map_nil, List.cons_append, List.nil_append,
    List.cons.injEq, Lexeme.shift, Lexeme.mk.injEq] at htokens
  · obtain ⟨⟨_, rfl, _⟩, hq⟩ := htokens
    exact absurd h₁ (hapart l₁ (by simp) _ _ _ _ hq)
  · obtain ⟨_, ⟨_, rfl, _⟩, hq⟩ := htokens
    exact absurd h₂ (hapart l₂ (by simp) _ _ _ _ hq)
  · obtain ⟨_, _, ⟨_, rfl, _⟩, hq⟩ := htokens
    exact absurd h₃ (hapart l₃ (by simp) _ _ _ _ hq)
  · obtain ⟨_, _, _, ⟨_, rfl, _⟩, hq⟩ := htokens
    exact absurd h₄ (hapart l₄ (by simp) _ _ _ _ hq)
  · obtain ⟨⟨ht₁, rfl, _⟩, ⟨ht₂, rfl, _⟩, ⟨ht₃, rfl, _⟩, ⟨ht₄, rfl, _⟩, ⟨ht₅, rfl, _⟩, _⟩ := htokens
    refine ⟨l₁.span, l₂.span, l₃.span, l₄.span, l₅.span, ls, ⟨l₁.startsLine, l₂.startsLine,
      l₃.startsLine, l₄.startsLine, l₅.startsLine, ?_⟩, ?_⟩
    · rw [← ht₁, ← ht₂, ← ht₃, ← ht₄, ← ht₅]
    · simp only [Span.shift] at h₁ h₂ h₃ h₄
      omega

theorem Sequel.Continues.qualifiedName? (h : q.Continues c c') (hne : c.rest ≠ []) :
    (qualifiedName? c = none ∧ qualifiedName? c' = none) ∨
      ∃ node d hd d' hd', qualifiedName? c = some (node, ⟨d, hd⟩) ∧
        qualifiedName? c' = some (node.shift q.offset, ⟨d', hd'⟩) ∧ q.Continues d d' := by
  have hsome {c : Cursor} {m p n : String} {s₁ s₂ s₃ s₄ s₅ : Span} {rest : List Lexeme}
      (hp : IsPath m p n s₁ s₂ s₃ s₄ s₅ c.rest rest) : ∃ hd, Parse.qualifiedName? c =
        some (.qualified ⟨m, p⟩ n s₅ (s₁.join s₅), ⟨{ c with rest, lastStop := s₅.stop }, hd⟩) := by
    refine ⟨?_, qualifiedName?_eq_some_iff.mpr ⟨m, p, n, s₁, s₂, s₃, s₄, s₅, rest, hp, rfl, rfl⟩⟩
    obtain ⟨⟨f₁, f₂, f₃, f₄, f₅, hrest⟩, _⟩ := hp
    have := Token.size_pos (.identifier m)
    simp only [Cursor.weight, hrest, Lexeme.totalSize]
    omega
  cases hq : Parse.qualifiedName? c with
  | none =>
    refine .inl ⟨rfl, ?_⟩
    cases hq' : Parse.qualifiedName? c' with
    | none => rfl
    | some x =>
      obtain ⟨node, d', hd'⟩ := x
      obtain ⟨m, p, n, s₁, s₂, s₃, s₄, s₅, rest, hp, _⟩ := qualifiedName?_eq_some_iff.mp hq'
      obtain ⟨t₁, t₂, t₃, t₄, t₅, rest', hp'⟩ := hp.of_continues h hne
      obtain ⟨_, hpath⟩ := hsome hp'
      rw [hq] at hpath
      cases hpath
  | some x =>
    obtain ⟨node, d, hd⟩ := x
    obtain ⟨m, p, n, s₁, s₂, s₃, s₄, s₅, rest, hp, rfl, rfl⟩ := qualifiedName?_eq_some_iff.mp hq
    have hp' := hp.shift q.offset q.tokens
    rw [← h.rest] at hp'
    obtain ⟨hd', hpath⟩ := hsome hp'
    refine .inr ⟨_, _, hd, _, hd', rfl, ?_, ?_⟩
    · rw [hpath, Node.shift, Span.shift_join]
    · refine ⟨rfl, rfl, h.textStop, h.errors, ?_⟩
      obtain ⟨⟨f₁, f₂, f₃, f₄, f₅, hrest⟩, _⟩ := hp
      intro l hl
      exact h.apart l (by rw [hrest]; simp [hl])

/-! Strings -/

theorem fill_shift {n : Nat} (k : Nat)
    {run run' : (code : List Char) → Nat → code.length < n → Option Node × List ParseError}
    (hrun : ∀ code offset hlt, run' code (offset + k) hlt =
      ((run code offset hlt).1.map (Node.shift k), (run code offset hlt).2.map (ParseError.shift k)))
    (holes : List (String × Hole)) (h : ∀ x ∈ holes, x.2.size < n)
    (h' : ∀ x ∈ holes.map fun x => (x.1, x.2.shift k), x.2.size < n) :
    fill run' (holes.map fun x => (x.1, x.2.shift k)) h' =
      ((fill run holes h).1.map (Part.shift k), (fill run holes h).2.map (ParseError.shift k)) := by
  induction holes with
  | nil => rfl
  | cons x rest ih =>
    obtain ⟨before, hole⟩ := x
    have hbefore : (if before.isEmpty then [] else [Part.text before]).map (Part.shift k) =
        if before.isEmpty then [] else [Part.text before] := by
      split <;> rfl
    have hrest := ih (fun x hx => h x (List.mem_cons_of_mem _ hx))
      fun x hx => h' x (List.mem_cons_of_mem _ hx)
    cases hole with
    | name x span =>
      simp only [List.map_cons, Hole.shift_name, fill, hrest, List.map_append, hbefore, Part.shift,
        Node.shift]
    | code code offset =>
      have hcode := hrun code offset (h _ List.mem_cons_self)
      simp only [List.map_cons, Hole.shift_code, fill, hrest, List.map_append, hbefore]
      rw [hcode]
      cases (run code offset (h _ List.mem_cons_self)).1 <;> rfl

theorem stringNode_shift (k : Nat) (span : Span) (parts : List Part) (tail : String) :
    stringNode (span.shift k) (parts.map (Part.shift k)) tail =
      (stringNode span parts tail).shift k := by
  unfold stringNode
  cases parts with
  | nil => rfl
  | cons p ps =>
    simp only [List.map_cons, List.isEmpty_cons, Bool.false_eq_true, if_false, Node.shift,
      Part.shiftAll_eq]
    split <;> simp [Part.shift]

theorem readHole_shift {k : Nat} {code : List Char} {offset : Nat}
    (h : (binary .or (.start code offset)).Carries (moved k) True
      (binary .or (.start code (offset + k)))) :
    readHole code (offset + k) = ((readHole code offset).1.map (Node.shift k),
      (readHole code offset).2.map (ParseError.shift k)) := by
  have ha (c : Cursor) : (moved k).Ahead c := .inl rfl
  obtain ⟨hvalue, hcursor⟩ := h (.inl (ha _))
  have hend : (binary .or (.start code (offset + k))).cursor.isAtEnd =
      (binary .or (.start code offset)).cursor.isAtEnd := by
    simp [Cursor.isAtEnd, hcursor.rest, moved]
  unfold readHole
  simp only [hend, hvalue, Option.isSome_map]
  refine Prod.ext rfl ?_
  simp only
  split
  · exact (hcursor.reportExpected (ha _) _).errors
  · exact hcursor.errors

theorem unclosedHole_shift (k : Nat) (raw : String) (start : Nat) :
    unclosedHole raw (start + k) = (unclosedHole raw start).map (ParseError.shift k) := by
  unfold unclosedHole
  rw [Template.ofToken_shift, Template.shift]
  cases (Template.ofToken raw start).unclosed with
  | none => rfl
  | some p =>
    simp only [Option.map_some, Option.toList_some, List.map_cons, List.map_nil, ParseError.shift,
      Span.shift, Nat.add_right_comm]

theorem readHoles_shift (k : Nat) (raw : String) (start : Nat)
    (h : ∀ code offset, code.length < raw.length →
      (binary .or (.start code offset)).Carries (moved k) True
        (binary .or (.start code (offset + k)))) :
    readHoles raw (start + k) = ((readHoles raw start).1.map (Part.shift k),
      (readHoles raw start).2.map (ParseError.shift k)) := by
  have hholes := congrArg Template.holes (Template.ofToken_shift k raw start)
  unfold readHoles
  simp only [hholes]
  exact fill_shift k (fun code offset hlt => readHole_shift (h code offset hlt)) _ _ _

theorem assignTo?_shift (k : Nat) (target value : Node) :
    assignTo? (target.shift k) (value.shift k) = (assignTo? target value).map (Node.shift k) := by
  have hspan : (target.shift k).span.join (value.shift k).span =
      (target.span.join value.span).shift k := by simp [Span.shift_join]
  unfold assignTo?
  rw [hspan]
  cases target <;> simp [Node.shift]

/-! Primary expressions -/

theorem Cursor.weight_reportExpected_le (c : Cursor) (what : String) :
    (c.reportExpected what).weight ≤ c.weight :=
  Nat.le_of_eq (c.weight_reportExpected what)

/-- What a primary expression is, if `t` is its first token. -/
def readPrimary (c : Cursor) (hlt : c.advance.weight < c.weight) : Token → Outcome 1 c Node
  | .integer text =>
    match integerOf? text with
    | some n => .found (.literal (.int n) c.currentSpan) c.advance hlt
    | none =>
      .found (.literal (.int 0) c.currentSpan)
        (c.advance.report (.invalidLiteral .integer text c.currentSpan)) hlt
  | .float text => .found (.literal (.float (floatOf text)) c.currentSpan) c.advance hlt
  | .string raw =>
    let start := c.currentSpan.start
    .found (stringNode c.currentSpan (readHoles raw start).1 (Template.ofToken raw start).tail)
      (c.advance.reportAll ((readHoles raw start).2 ++ unclosedHole raw start)) hlt
  | .keyword .trueWord => .found (.literal (.bool true) c.currentSpan) c.advance hlt
  | .keyword .falseWord => .found (.literal (.bool false) c.currentSpan) c.advance hlt
  | .identifier name =>
    if name = "unit" then .found (.literal .unit c.currentSpan) c.advance hlt
    else
      match qualifiedName? c with
      | some (node, ⟨d, hd⟩) => .found node d hd
      | none => .found (.name name c.currentSpan) c.advance hlt
  | .mark .leftParen =>
    Outcome.weaken c.weight_advance_le <|
      (binary .or c.advance).andThen fun inner d _ =>
        ((d.expect (.mark .rightParen)).map fun _ => inner).relax
  | .mark .leftBrace => (blockBody c).map fun (body, span) => .block body span
  | .mark .leftBracket =>
    Outcome.weaken c.weight_advance_le <|
      (c.advance.commaList .rightBracket fun d _ => binary .or d).andThen fun elements d _ =>
        .done (.array elements (d.spanFrom c.currentSpan))
  | .keyword .ifWord => branch c
  | .keyword .whileWord =>
    (c.expect (.keyword .whileWord)).andThen fun start d _ =>
      (condition d).thenMaybe fun condition e _ =>
        (blockBody e).relax.thenMaybe fun (body, bodySpan) f _ =>
          .done (.loop condition (.block body bodySpan) (f.spanFrom start))
  | .keyword .returnWord =>
    (c.expect (.keyword .returnWord)).andThen fun start d _ =>
      if !d.isAtLineStart && d.peek?.any Token.startsExpression then
        (binary .or d).relax.thenMaybe fun value e _ =>
          .done (.ret (some value) (e.spanFrom start))
      else .done (.ret none (d.spanFrom start))
  | .keyword .fn =>
    (c.expect (.keyword .fn)).andThen fun start d _ =>
      ((params d).andThen fun params e _ =>
        (typeAfterColon e).thenMaybe fun returnType f _ =>
          (blockBody f).relax.thenMaybe fun (body, _) g _ =>
            .done (.lambda params returnType body (g.spanFrom start))).relax
  | _ => .fail (c.reportExpected "expression") (c.weight_reportExpected_le _)

theorem primary_eq {t : Token} (h : c.peek? = some t) (hlt : c.advance.weight < c.weight) :
    primary c = readPrimary c hlt t := by
  rw [primary]
  dsimp only
  split
  · simp_all
  · rename_i token htoken
    obtain rfl : token = t := Option.some.inj (htoken.symm.trans h)
    cases token with
    | keyword w => cases w <;> rfl
    | mark m => cases m <;> rfl
    | _ => rfl

theorem primary_of_nil (h : c.rest = []) :
    primary c = .fail (c.reportExpected "expression") (Nat.le_refl _) := by
  have hpeek : c.peek? = none := by simp [Cursor.peek?, h]
  rw [primary]
  dsimp only
  split
  · rfl
  · simp_all

/-! What an expression starts with -/

theorem andThen_assoc {α β γ : Type} (r : Outcome 1 c α) (f : α → (d : Cursor) → Outcome 0 d β)
    (g : β → (d : Cursor) → Outcome 0 d γ) :
    (r.andThen fun a d _ => f a d).andThen (fun b e _ => g b e) =
      r.andThen fun a d _ => (f a d).thenMaybe fun b e _ => g b e := by
  obtain ⟨_ | a, d, hle, hc⟩ := r
  · rfl
  · have hd : d.weight < c.weight := hc rfl
    have hgoOn (s : Outcome 0 d β) :
        (⟨s.value, s.cursor, Nat.le_trans s.le hle, fun _ => Nat.lt_of_le_of_lt s.le hd⟩ :
          Outcome 1 c β).andThen (fun b e _ => g b e) =
          let t := s.thenMaybe fun b e _ => g b e
          ⟨t.value, t.cursor, Nat.le_trans t.le hle, fun _ => Nat.lt_of_le_of_lt t.le hd⟩ := by
      rcases s with ⟨_ | b, e, he, _⟩ <;> rfl
    exact hgoOn (f a d)

/-- Reading with `p` is reading with `p'` and going on from there. -/
def StartsWith (p p' : (c : Cursor) → Outcome 1 c Node) : Prop :=
  ∃ more : Node → (d : Cursor) → Outcome 0 d Node,
    ∀ c, p c = (p' c).andThen fun node d _ => more node d

theorem StartsWith.trans {p₁ p₂ p₃ : (c : Cursor) → Outcome 1 c Node} (h₁ : StartsWith p₁ p₂)
    (h₂ : StartsWith p₂ p₃) : StartsWith p₁ p₃ := by
  obtain ⟨more₁, h₁⟩ := h₁
  obtain ⟨more₂, h₂⟩ := h₂
  refine ⟨fun node d => (more₂ node d).thenMaybe fun node e _ => more₁ node e, ?_⟩
  intro c
  rw [h₁, h₂, andThen_assoc]

theorem binary_startsWith (l : Level) : StartsWith (binary l) (operand l) :=
  ⟨binaryTail l, fun c => by rw [binary]⟩

/-- The first thing in an assignment or an expression is an operand without binary operators. -/
theorem assignment_startsWith : StartsWith assignment unary := by
  have hoperand (l : Level) {p : (c : Cursor) → Outcome 1 c Node} (h : ∀ c, operand l c = p c) :
      StartsWith (binary l) p := by
    obtain ⟨more, hmore⟩ := binary_startsWith l
    exact ⟨more, fun c => by rw [hmore, h]⟩
  have hassignment : StartsWith assignment (binary .or) := ⟨_, fun c => by rw [assignment]⟩
  have htest : StartsWith caseTest (binary .sum) := ⟨_, fun c => by rw [caseTest]⟩
  have hproduct := hoperand .product fun c => by rw [operand]
  have hsum := hoperand .sum fun c => by rw [operand]
  have hcomparison := hoperand .comparison fun c => by rw [operand]
  have hequality := hoperand .equality fun c => by rw [operand]
  have hand := hoperand .and fun c => by rw [operand]
  have hor := hoperand .or fun c => by rw [operand]
  exact hassignment.trans (hor.trans (hand.trans (hequality.trans (hcomparison.trans
    (htest.trans (hsum.trans hproduct))))))

/-- Reading failed and stopped at `d`. -/
structure Fails {α : Type} {k : Nat} {c : Cursor} (r : Outcome k c α) (d : Cursor) : Prop where
  value : r.value = none
  cursor : r.cursor = d

theorem Fails.andThen {α β : Type} {r : Outcome 1 c α} (h : Fails r d)
    (f : α → (e : Cursor) → e.weight < c.weight → Outcome 0 e β) : Fails (r.andThen f) d := by
  obtain ⟨value, e, hle, he⟩ := r
  obtain ⟨rfl, rfl⟩ := h
  exact ⟨rfl, rfl⟩

theorem fails_assignment (hsign : signOperator? c = none) (h : Fails (primary c) d) :
    Fails (assignment c) d := by
  have hunary : Fails (unary c) d := by
    rw [unary, hsign, suffixed]
    exact h.andThen _
  obtain ⟨more, hmore⟩ := assignment_startsWith
  rw [hmore]
  exact hunary.andThen _

theorem signOperator?_eq_none {t : Token} (h : c.peek? = some t) (hbang : t ≠ .mark .bang)
    (hminus : t ≠ .mark .minus) : signOperator? c = none := by
  have heat (m : Mark) (hm : t ≠ .mark m) : c.eat? (.mark m) = none := by
    simp [Cursor.eat?, Cursor.isAt, h, hm]
  rw [signOperator?, heat _ hbang, heat _ hminus]

/-- The word `fn` at the end of the text is no statement. -/
theorem fails_fn {l : Lexeme} (hrest : c.rest = [l]) (hl : l.token = .keyword .fn) :
    ∃ d, Fails (assignment c) d ∧ d.rest = [] := by
  have hpeek : c.peek? = some (.keyword .fn) := by simp [Cursor.peek?, hrest, hl]
  have hat : c.isAt (.keyword .fn) = true := by simp [Cursor.isAt, hpeek]
  have hnil : c.advance.rest = [] := by simp [Cursor.advance, hrest]
  refine ⟨c.advance.reportExpected "`(`", fails_assignment ?_ ?_, hnil⟩
  · exact signOperator?_eq_none hpeek (by decide) (by decide)
  · have hparams : Fails (params c.advance) (c.advance.reportExpected "`(`") := by
      have hnot : ¬ c.advance.isAt (.mark .leftParen) = true := by
        simp [Cursor.isAt, Cursor.peek?, hnil]
      apply Fails.andThen
      rw [Cursor.expect, dif_neg hnot]
      exact ⟨rfl, rfl⟩
    have hlt := Cursor.weight_advance_lt (Cursor.weight_pos_of_peek? hpeek)
    rw [primary_eq hpeek hlt, readPrimary, Cursor.expect, dif_pos hat]
    exact ⟨(hparams.andThen _).value, (hparams.andThen _).cursor⟩

/-! The form of a statement -/

/-- What a statement can be, as its first tokens tell. -/
inductive Form
  | function | value (isMutable : Bool) | data | other

def formOf : List Lexeme → Form
  | ⟨.keyword .fn, _, _⟩ :: ⟨.identifier _, _, _⟩ :: _ => .function
  | ⟨.keyword .val, _, _⟩ :: _ => .value false
  | ⟨.keyword .var, _, _⟩ :: _ => .value true
  | ⟨.keyword .data, _, _⟩ :: _ => .data
  | _ => .other

def readForm (isPublic : Bool) (start : Span) (c : Cursor) : Form → Outcome 1 c Node
  | .function => functionDecl isPublic start c
  | .value isMutable =>
    variableDecl isPublic isMutable start (.keyword (if isMutable then .var else .val)) c
  | .data => dataDecl isPublic start c
  | .other =>
    if isPublic then
      .fail (c.reportExpected "`fn`, `val`, `var` or `data` after `pub`")
        (c.weight_reportExpected_le _)
    else assignment c

theorem statement_eq {isPublic : Bool} {hd : d.weight ≤ c.weight}
    (h : c.skip (.keyword .pub) = (isPublic, ⟨d, hd⟩)) :
    statement c = (readForm isPublic c.currentSpan d (formOf d.rest)).weaken hd := by
  rw [statement, h]
  obtain ⟨rest, lastStop, textStop, errors⟩ := d
  dsimp only
  congr 1
  fun_cases formOf rest with
  | case5 h1 h2 h3 h4 => simp_all [readForm]
  | _ => rfl

theorem formOf_shift (k : Nat) (ls more : List Lexeme)
    (h : more = [] ∨ ls ≠ [] ∧ ls.map (·.token) ≠ [.keyword .fn]) :
    formOf (ls.map (Lexeme.shift k) ++ more) = formOf ls := by
  rcases ls with _ | ⟨⟨t, _, _⟩, _ | ⟨⟨u, _, _⟩, ls⟩⟩
  · obtain rfl : more = [] := by simpa using h
    rfl
  · cases t with
    | keyword w =>
      cases w with
      | fn =>
        obtain rfl : more = [] := by simpa using h
        rfl
      | _ => rfl
    | _ => rfl
  · cases t with
    | keyword w =>
      cases w with
      | fn => cases u <;> rfl
      | _ => rfl
    | _ => rfl

/-- Nothing but `pub fn` is left. -/
def Cursor.IsAtLastFn (c : Cursor) : Prop :=
  c.rest.map (·.token) = [.keyword .pub, .keyword .fn]

/-- A declaration of data comes next. -/
def Cursor.IsAtData (c : Cursor) : Prop := formOf (c.skip (.keyword .pub)).2.val.rest = .data

theorem Cursor.rest_of_skip {t : Token} {hle : d.weight ≤ c.weight} (h : c.skip t = (true, ⟨d, hle⟩)) :
    c.rest.map (·.token) = t :: d.rest.map (·.token) := by
  unfold Cursor.skip at h
  split at h
  · rename_i hat
    cases h
    cases hr : c.rest with
    | nil => simp [Cursor.isAt, Cursor.peek?, hr] at hat
    | cons l ls =>
      have htoken : l.token = t := by simpa [Cursor.isAt, Cursor.peek?, hr] using hat
      simp [Cursor.advance, hr, htoken]
  · cases h

theorem Cursor.HasBrace.not_isAtLastFn (h : c.HasBrace) : ¬ c.IsAtLastFn := by
  obtain ⟨l, hl, hbrace⟩ := h
  intro hlast
  have hmem := List.mem_map_of_mem (f := (·.token)) hl
  rw [hlast, hbrace] at hmem
  simp at hmem

/-- The word `fn` at the end is taken for a function without a name. -/
theorem carries_lastFn (isPublic : Bool) (start : Span) {form' : Form} (hend : ¬ q.isEnd = true)
    (hd : d.rest.map (·.token) = [.keyword .fn]) (hpublic : isPublic = false) (ends : Prop) :
    (readForm isPublic start d (formOf d.rest)).Carries q ends
      (readForm isPublic (start.shift q.offset) d' form') := by
  obtain ⟨⟨t, span, fresh⟩, hrest, rfl⟩ := List.map_eq_singleton_iff.mp hd
  obtain ⟨e, hfails, hnil⟩ := fails_fn hrest rfl
  subst hpublic
  rw [hrest]
  intro hw
  rcases hw with (hw | hw) | ⟨hw, _⟩
  · exact absurd hw hend
  · exact absurd (hfails.cursor ▸ hnil) hw
  · rw [show (readForm false start d (formOf [⟨.keyword .fn, span, fresh⟩])).value = none from
      hfails.value] at hw
    cases hw

theorem carries_block {r : Outcome 1 c (List Node × Span)} {r' : Outcome 1 c' (List Node × Span)}
    (h : r.Carries q True r') :
    (r.map fun (body, span) => Node.block body span).Carries q True
      (r'.map fun (body, span) => Node.block body span) :=
  h.map fun ⟨_, _⟩ => by simp [Node.shift]

theorem suffixTail_of_fresh {node : Node} (h : c.rest = [] ∨ c.isAtLineStart = true)
    (hdot : c.eat? (.mark .dot) = none) : suffixTail node c = .done node := by
  rw [suffixTail, hdot]
  rcases h with h | h
  · rw [Cursor.eat?_of_nil h, Cursor.eat?_of_nil h]
  · split
    · rw [if_pos h]
    · rw [if_pos h]
    · simp_all
    · rfl

mutual

theorem carries_statement {q : Sequel} {c c' : Cursor} (h : q.Continues c c')
    (hfn : q.isEnd = true ∨ ¬ c.IsAtLastFn) :
    (statement c).Carries q (c.IsAtData → q.Shuts .leftParen c.rest) (statement c') := by
  apply carries_of_ahead
  intro ha
  obtain ⟨isPublic, d, hd, d', hd', hskip, hskip', hnext, hsuffix⟩ := h.skip (.keyword .pub) ha
  rw [statement_eq hskip, statement_eq hskip', h.currentSpan ha]
  apply Carries.weaken
  apply carries_of_ahead
  intro had
  by_cases hlast : q.isEnd = true ∨ d.rest.map (·.token) ≠ [.keyword .fn]
  · have hform : formOf d'.rest = formOf d.rest := by
      rw [hnext.rest]
      apply formOf_shift
      by_cases hend : q.isEnd = true
      · exact .inl (q.nothing hend)
      · exact .inr ⟨had.resolve_left hend, hlast.resolve_left hend⟩
    rw [hform]
    cases hdata : formOf d.rest with
    | function =>
      have hdecl := carries_functionDecl isPublic c.currentSpan hnext
      exact hdecl.imp fun _ _ _ => trivial
    | value isMutable =>
      have hdecl := carries_variableDecl isPublic isMutable c.currentSpan
        (.keyword (if isMutable then .var else .val)) hnext
      exact hdecl.imp fun _ _ _ => trivial
    | data =>
      have hatdata : c.IsAtData := by
        rw [Cursor.IsAtData, hskip]
        exact hdata
      exact (carries_dataDecl isPublic _ hnext).imp fun _ _ hends => (hends hatdata).suffix hsuffix
    | other =>
      dsimp only [readForm]
      split
      · exact carries_fail fun _ => hnext.reportExpected had _
      · exact (carries_assignment hnext).imp fun _ _ _ => trivial
  · obtain ⟨hend, hrest⟩ := not_or.mp hlast
    rw [not_not] at hrest
    apply carries_lastFn isPublic _ hend hrest
    by_contra hpublic
    rw [Bool.not_eq_false] at hpublic
    subst hpublic
    apply hfn.resolve_left hend
    rw [Cursor.IsAtLastFn, Cursor.rest_of_skip hskip, hrest]
termination_by 32 * c.weight + 25
decreasing_by all_goals omega

theorem carries_functionDecl {q : Sequel} (isPublic : Bool) (start : Span) {c c' : Cursor}
    (h : q.Continues c c') :
    (functionDecl isPublic start c).Carries q True
      (functionDecl isPublic (start.shift q.offset) c') := by
  rw [functionDecl, functionDecl]
  apply (Cursor.carries_expect h _).andThen
  intro _ d _ d' _ hd
  apply Carries.relax
  apply (Cursor.carries_expectName hd _).andThen
  rintro ⟨name, _⟩ e _ e' _ he
  apply (carries_typeParams he).thenMaybeMore fun _ _ _ hsome => rest_ne_nil_of_relax hsome
  intro typeParams f _ f' _ hf
  apply Carries.relax
  apply (carries_params hf).andThen
  intro params g _ g' _ hg
  apply (carries_typeAfterColon hg).thenMaybeMore fun _ _ _ hsome =>
    rest_ne_nil_of_relax (isSome_of_thenMaybe hsome)
  intro returnType i _ i' _ hi
  apply (carries_blockBody hi).relax.thenMaybe
  rintro ⟨body, _⟩ j _ j' _ hj
  exact carries_done hj (by simp [Node.shift, FunctionHead.shift, hj.spanFrom])
termination_by 32 * c.weight + 24
decreasing_by all_goals omega

theorem carries_variableDecl {q : Sequel} (isPublic isMutable : Bool) (start : Span) (word : Token)
    {c c' : Cursor} (h : q.Continues c c') :
    (variableDecl isPublic isMutable start word c).Carries q True
      (variableDecl isPublic isMutable (start.shift q.offset) word c') := by
  rw [variableDecl, variableDecl]
  apply (Cursor.carries_expect h _).andThen
  intro _ d _ d' _ hd
  apply Carries.relax
  apply (Cursor.carries_expectName hd _).andThen
  rintro ⟨name, _⟩ e _ e' _ he
  apply (carries_typeAfterColon he).thenMaybeMore fun _ _ _ hsome => rest_ne_nil_of_relax hsome
  intro type f _ f' _ hf
  apply Carries.relax
  apply (Cursor.carries_expect hf _).andThen
  intro _ g _ g' _ hg
  apply (carries_binary .or hg).relax.thenMaybe
  intro value i _ i' _ hi
  exact carries_done hi (by simp [Node.shift, VariableHead.shift, hi.spanFrom])
termination_by 32 * c.weight + 24
decreasing_by all_goals (try simp only [Level.height]); all_goals omega

theorem carries_assignment {q : Sequel} {c c' : Cursor} (h : q.Continues c c') :
    (assignment c).Carries q True (assignment c') := by
  rw [assignment, assignment]
  apply (carries_binary .or h).andThen
  intro target d _ d' _ hd
  rcases hd.eat? (.mark .equal) (.inr (hides_of_not_opens rfl)) with
    ⟨he, he'⟩ | ⟨e, hlt, e', hlt', he, he', hnext⟩
  · simp only [he, he']
    exact carries_done hd rfl
  · simp only [he, he']
    apply Carries.weaken
    apply (carries_assignment hnext).relax.thenMaybe
    intro value f _ f' _ hf
    simp only [shift_node, assignTo?_shift]
    cases assignTo? target value with
    | some node => exact carries_done hf rfl
    | none =>
      apply carries_fail
      intro _
      simpa [ParseError.shift] using
        hf.report (.unexpected "assignable expression" target.describe target.span)
termination_by 32 * c.weight + 22
decreasing_by all_goals (try simp only [Level.height]); all_goals omega

theorem carries_binary {q : Sequel} (l : Level) {c c' : Cursor} (h : q.Continues c c') :
    (binary l c).Carries q True (binary l c') := by
  rw [binary, binary]
  apply (carries_operand l h).andThen
  intro left d _ d' _ hd
  exact carries_binaryTail l left hd
termination_by 32 * c.weight + 6 + 3 * l.height
decreasing_by all_goals omega

theorem carries_binaryTail {q : Sequel} (l : Level) (left : Node) {c c' : Cursor}
    (h : q.Continues c c') :
    (binaryTail l left c).Carries q True (binaryTail l (left.shift q.offset) c') := by
  rw [binaryTail, binaryTail]
  have := l.height_le
  rcases h.operator? l with ⟨hop, hop'⟩ | ⟨op, d, hd, d', hd', hop, hop', hnext⟩
  · rw [hop, hop']
    exact carries_done h rfl
  · rw [hop, hop']
    apply Carries.weaken
    apply (carries_operand l hnext).relax.thenMaybe
    intro right e _ e' _ he
    have htail := carries_binaryTail l (.binary op left right (left.span.join right.span)) he
    simpa [Node.shift, Span.shift_join] using htail
termination_by 32 * c.weight
decreasing_by all_goals omega

theorem carries_operand {q : Sequel} (l : Level) {c c' : Cursor} (h : q.Continues c c') :
    (operand l c).Carries q True (operand l c') := by
  cases l with
  | or => rw [operand, operand]; exact carries_binary .and h
  | and => rw [operand, operand]; exact carries_binary .equality h
  | equality => rw [operand, operand]; exact carries_binary .comparison h
  | comparison => rw [operand, operand]; exact carries_caseTest h
  | sum => rw [operand, operand]; exact carries_binary .product h
  | product => rw [operand, operand]; exact carries_unary h
termination_by 32 * c.weight + 5 + 3 * l.height
decreasing_by all_goals (try simp only [Level.height]); all_goals omega

theorem carries_caseTest {q : Sequel} {c c' : Cursor} (h : q.Continues c c') :
    (caseTest c).Carries q True (caseTest c') := by
  rw [caseTest, caseTest]
  apply (carries_binary .sum h).andThen
  intro value d _ d' _ hd
  rcases hd.eat? (.keyword .isWord) (.inr (hides_of_not_opens rfl)) with
    ⟨he, he'⟩ | ⟨e, hlt, e', hlt', he, he', hnext⟩
  · simp only [he, he', ite_self]
    exact carries_done hd rfl
  · have had : q.Ahead d := .inr (rest_ne_nil_iff.mpr (by omega))
    simp only [he, he', hd.isAtLineStart had]
    split
    · exact carries_done hd rfl
    · apply Carries.weaken
      apply Carries.relax
      apply (Cursor.carries_expectName hnext _).andThen
      rintro ⟨case, caseSpan⟩ f _ f' _ hf
      exact carries_done hf (by simp [Node.shift, Span.shift_join])
termination_by 32 * c.weight + 10
decreasing_by all_goals (try simp only [Level.height]); all_goals omega

theorem carries_unary {q : Sequel} {c c' : Cursor} (h : q.Continues c c') :
    (unary c).Carries q True (unary c') := by
  apply carries_of_ahead
  intro ha
  rw [unary, unary, h.currentSpan ha]
  rcases h.signOperator? ha with ⟨hop, hop'⟩ | ⟨op, d, hd, d', hd', hop, hop', hnext⟩
  · rw [hop, hop']
    exact carries_suffixed h
  · rw [hop, hop']
    apply Carries.weaken
    apply (carries_unary hnext).andThen
    intro operand e _ e' _ he
    exact carries_done he (by simp [Node.shift, Span.shift_join])
termination_by 32 * c.weight + 4
decreasing_by all_goals omega

theorem carries_suffixed {q : Sequel} {c c' : Cursor} (h : q.Continues c c') :
    (suffixed c).Carries q True (suffixed c') := by
  rw [suffixed, suffixed]
  apply (carries_primary h).andThen
  intro node d _ d' _ hd
  exact carries_suffixTail node hd
termination_by 32 * c.weight + 3
decreasing_by all_goals omega

theorem carries_suffixTail {q : Sequel} (node : Node) {c c' : Cursor} (h : q.Continues c c') :
    (suffixTail node c).Carries q True (suffixTail (node.shift q.offset) c') := by
  by_cases ha : q.Ahead c
  · rw [suffixTail, suffixTail, h.isAtLineStart ha]
    rcases h.eat? (.mark .leftParen) (.inl ha) with
      ⟨hparen, hparen'⟩ | ⟨d, hlt, d', hlt', hparen, hparen', hnext⟩
    · rcases h.eat? (.mark .leftBracket) (.inl ha) with
        ⟨hbracket, hbracket'⟩ | ⟨d, hlt, d', hlt', hbracket, hbracket', hnext⟩
      · rcases h.eat? (.mark .dot) (.inl ha) with
          ⟨hdot, hdot'⟩ | ⟨d, hlt, d', hlt', hdot, hdot', hnext⟩
        · simp only [hparen, hparen', hbracket, hbracket', hdot, hdot']
          exact carries_done h rfl
        · simp only [hparen, hparen', hbracket, hbracket', hdot, hdot']
          apply Carries.weaken
          apply (Cursor.carries_expectName hnext _).relax.thenMaybe
          rintro ⟨member, memberSpan⟩ e _ e' _ he
          have htail := carries_suffixTail
            (.member node member memberSpan (node.span.join memberSpan)) he
          simpa [Node.shift, Span.shift_join] using htail
      · simp only [hparen, hparen', hbracket, hbracket']
        split
        · exact carries_done h rfl
        · apply Carries.weaken
          apply (carries_binary .or hnext).relax.thenMaybe
          intro index e _ e' _ he
          apply (Cursor.carries_expect he _).relax.thenMaybe
          intro _ f _ f' _ hf
          have htail := carries_suffixTail (.index node index (f.spanFrom node.span)) hf
          simpa [Node.shift, ← hf.spanFrom] using htail
    · simp only [hparen, hparen']
      split
      · exact carries_done h rfl
      · apply Carries.weaken
        have hargs := Cursor.carries_commaList .rightParen hnext (fun e _ => binary .or e)
          (fun e _ => binary .or e) fun e _ e' _ he => (carries_binary .or he).before
        apply hargs.relax.thenMaybe
        intro args e _ e' _ he
        have htail := carries_suffixTail (.call node args (e.spanFrom node.span)) he
        simpa [Node.shift, ← he.spanFrom] using htail
  · -- the next line may start with a parenthesis or a bracket, which are no suffix there
    obtain ⟨hnil, hnext⟩ := h.at_end ha
    rcases h.eat? (.mark .dot) (.inr (hides_of_not_opens rfl)) with
      ⟨hdot, hdot'⟩ | ⟨d, _, _, _, hdot, _⟩
    · rw [suffixTail_of_fresh (.inl hnil) hdot, suffixTail_of_fresh hnext hdot']
      exact carries_done h rfl
    · rw [Cursor.eat?_of_nil hnil] at hdot
      cases hdot
termination_by 32 * c.weight
decreasing_by all_goals (try simp only [Level.height]); all_goals omega

theorem carries_primary {q : Sequel} {c c' : Cursor} (h : q.Continues c c') :
    (primary c).Carries q True (primary c') := by
  apply carries_of_ahead
  intro ha
  rcases hr : c.rest with _ | ⟨l, ls⟩
  · -- only a text that nothing follows may end here
    have hend : q.isEnd = true := ha.resolve_right (not_not.mpr hr)
    rw [primary_of_nil hr, primary_of_nil (by rw [h.rest_of_nil hr, q.nothing hend])]
    exact carries_fail fun _ => h.reportExpected ha _
  have hpeek : c.peek? = some l.token := by simp [Cursor.peek?, hr]
  have hpeek' : c'.peek? = some l.token := (h.peek? ha).trans hpeek
  have hlt := Cursor.weight_advance_lt (Cursor.weight_pos_of_peek? hpeek)
  have hlt' := Cursor.weight_advance_lt (Cursor.weight_pos_of_peek? hpeek')
  rw [primary_eq hpeek hlt, primary_eq hpeek' hlt']
  have hspan := h.currentSpan ha
  have hadvance := h.advance ha
  have hfail : (fail (c.reportExpected "expression") (Nat.le_refl _) : Outcome 1 c Node).Carries q True
      (fail (c'.reportExpected "expression") (Nat.le_refl _) : Outcome 1 c' Node) :=
    carries_fail fun _ => h.reportExpected ha _
  cases htoken : l.token with
  | keyword w =>
    cases w with
    | trueWord => exact carries_found hadvance (by rw [hspan]; rfl)
    | falseWord => exact carries_found hadvance (by rw [hspan]; rfl)
    | ifWord => exact carries_branch h
    | whileWord =>
      apply (Cursor.carries_expect h _).andThen
      intro start d _ d' _ hd
      apply (carries_condition hd).thenMaybe
      intro condition e _ e' _ he
      apply (carries_blockBody he).relax.thenMaybe
      rintro ⟨body, bodySpan⟩ f _ f' _ hf
      exact carries_done hf (by simp [Node.shift, hf.spanFrom])
    | returnWord =>
      apply (Cursor.carries_expect h _).andThen
      intro start d _ d' _ hd
      by_cases had : q.Ahead d
      · rw [hd.isAtLineStart had, hd.peek? had]
        split
        · apply (carries_binary .or hd).relax.thenMaybe
          intro value e _ e' _ he
          exact carries_done he (by simp [Node.shift, he.spanFrom])
        · exact carries_done hd (by simp [Node.shift, hd.spanFrom])
      · -- what stands on the next line is no value to return
        obtain ⟨hnil, hnext⟩ := hd.at_end had
        rw [if_neg (by simp [Cursor.peek?, hnil]), if_neg (by
          rcases hnext with hnext | hnext
          · simp [Cursor.peek?, hnext]
          · simp [hnext])]
        exact carries_done hd (by simp [Node.shift, hd.spanFrom])
    | fn =>
      apply (Cursor.carries_expect h _).andThen
      intro start d _ d' _ hd
      apply Carries.relax
      apply (carries_params hd).andThen
      intro params e _ e' _ he
      apply (carries_typeAfterColon he).thenMaybeMore fun _ _ _ hsome =>
        rest_ne_nil_of_relax (isSome_of_thenMaybe hsome)
      intro returnType f _ f' _ hf
      apply (carries_blockBody hf).relax.thenMaybe
      rintro ⟨body, _⟩ g _ g' _ hg
      exact carries_done hg (by simp [Node.shift, hg.spanFrom])
    | _ => exact hfail
  | mark m =>
    cases m with
    | leftParen =>
      dsimp only [readPrimary]
      apply Carries.weaken
      apply (carries_binary .or hadvance).andThen
      intro inner d _ d' _ hd
      apply Carries.relax
      exact (Cursor.carries_expect hd _).map fun _ => rfl
    | leftBrace => exact carries_block (carries_blockBody h)
    | leftBracket =>
      dsimp only [readPrimary]
      apply Carries.weaken
      have helements := Cursor.carries_commaList .rightBracket hadvance (fun d _ => binary .or d)
        (fun d _ => binary .or d) fun d _ d' _ hd => (carries_binary .or hd).before
      apply helements.andThen
      intro elements d _ d' _ hd
      exact carries_done hd (by simp [Node.shift, hd.spanFrom, hspan])
    | _ => exact hfail
  | integer text =>
    dsimp only [readPrimary]
    rw [hspan]
    cases integerOf? text with
    | some n => exact carries_found hadvance rfl
    | none => exact carries_found (hadvance.report _) rfl
  | float text => exact carries_found hadvance (by rw [hspan]; rfl)
  | string raw =>
    have hsize : raw.length ≤ c.weight := by
      rw [htoken] at hpeek
      exact Nat.le_trans (Nat.le_max_right 1 raw.length) (Cursor.size_le_weight_of_peek? hpeek)
    have hholes := readHoles_shift q.offset raw c.currentSpan.start fun code offset _ =>
      have := Cursor.weight_start_le code offset
      carries_binary .or (continues_start q.offset code offset)
    have hstart : c'.currentSpan.start = c.currentSpan.start + q.offset := by rw [hspan, Span.shift]
    dsimp only [readPrimary]
    rw [hstart, hspan, hholes, unclosedHole_shift, Template.ofToken_shift, ← List.map_append]
    exact carries_found (hadvance.reportAll _) (stringNode_shift _ _ _ _)
  | identifier name =>
    dsimp only [readPrimary]
    rw [hspan]
    split
    · exact carries_found hadvance rfl
    · rcases h.qualifiedName? (by simp [hr]) with
        ⟨hpath, hpath'⟩ | ⟨node, d, hd, d', hd', hpath, hpath', hnext⟩
      · rw [hpath, hpath']
        exact carries_found hadvance rfl
      · rw [hpath, hpath']
        exact carries_found hnext rfl
termination_by 32 * c.weight + 2
decreasing_by all_goals (try simp only [Level.height]); all_goals omega

theorem carries_condition {q : Sequel} {c c' : Cursor} (h : q.Continues c c') :
    (condition c).Carries q True (condition c') := by
  rw [condition, condition]
  apply Carries.relax
  apply (Cursor.carries_expect h _).andThen
  intro _ d _ d' _ hd
  apply (carries_binary .or hd).relax.thenMaybe
  intro condition e _ e' _ he
  apply Carries.relax
  exact (Cursor.carries_expect he _).map fun _ => rfl
termination_by 32 * c.weight
decreasing_by all_goals (try simp only [Level.height]); all_goals omega

theorem carries_branch {q : Sequel} {c c' : Cursor} (h : q.Continues c c') :
    (branch c).Carries q True (branch c') := by
  rw [branch, branch]
  apply (Cursor.carries_expect h _).andThen
  intro start d _ d' _ hd
  apply (carries_condition hd).thenMaybe
  intro condition e _ e' _ he
  apply (carries_blockBody he).relax.thenMaybe
  rintro ⟨body, bodySpan⟩ f _ f' _ hf
  rcases hf.eat? (.keyword .elseWord) (.inr (hides_of_not_opens rfl)) with
    ⟨hg, hg'⟩ | ⟨g, hlt, g', hlt', hg, hg', hnext⟩
  · simp only [hg, hg']
    exact carries_done hf (by simp [Node.shift, hf.spanFrom])
  · simp only [hg, hg']
    apply Carries.weaken
    refine Carries.thenMaybe ?_ ?_
    · apply Carries.relax
      apply carries_of_ahead
      intro hag
      rw [hnext.isAt hag]
      split
      · exact carries_branch hnext
      · exact carries_block (carries_blockBody hnext)
    · intro elseBranch i _ i' _ hi
      exact carries_done hi (by simp [Node.shift, hi.spanFrom])
termination_by 32 * c.weight + 1
decreasing_by all_goals omega

theorem carries_blockBody {q : Sequel} {c c' : Cursor} (h : q.Continues c c') :
    (blockBody c).Carries q True (blockBody c') := by
  rw [blockBody, blockBody]
  apply (Cursor.carries_expect h _).andThen
  intro start d _ d' _ hd
  dsimp only
  have he := d.separators.property
  have he' := d'.separators.property
  apply Carries.weaken
  apply carries_of_needs fun hsome => rest_ne_nil_of_relax (isSome_of_thenMaybe hsome)
  intro ha
  have hsep : q.Ahead d.separators.val := ha.mono (d.separators.val.statements _).2.property
  obtain ⟨hbody, hnext⟩ := Cursor.continues_statements (Cursor.continues_separators hd hsep)
    (fun f _ => statement f) (fun f _ => statement f) (fun f _ => sound_statement f)
    (fun f _ f' _ hf hleft => (carries_statement hf (hleft.imp_right (·.not_isAtLastFn))).before) ha
  apply (Cursor.carries_expect hnext _).relax.thenMaybe
  intro _ g _ g' _ hg
  exact carries_done hg (by simp [hbody, hg.spanFrom])
termination_by 32 * c.weight + 1
decreasing_by all_goals omega

end

end Tern.Parse
