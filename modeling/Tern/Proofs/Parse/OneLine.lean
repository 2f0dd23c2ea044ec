import Tern.Proofs.Parse.Lines

/-!
Texts on one line, read token by token. What such a text is read as does not depend on where its tokens
stand, so places are left out: a text gives tokens, a cursor has them ahead, and a parser finds something
and leaves those that follow.
-/

set_option autoImplicit false

namespace Tern

/-! Words -/

namespace Piece

/-- The text is a word and no keyword. -/
def isName (x : String) : Bool :=
  x.toList.head?.any isNameStart && x.toList.all isNamePart && (Keyword.ofText? x).isNone

/-- A word does not go on here. -/
def Delimited (cs : List Char) : Prop := ∀ c ∈ cs.head?, isNamePart c = false

/-- A character of a kind that no blank is of is no blank. -/
theorem not_blank_of {p : Char → Bool} {c : Char}
    (hp : (p ' ' || p '\t' || p '\r' || p '\n' || p '\x0c') = false) (h : p c = true) :
    isBlank c = false := by
  by_contra hblank
  simp only [isBlank, Bool.not_eq_false, Bool.or_eq_true, decide_eq_true_eq] at hblank
  rcases hblank with (((rfl | rfl) | rfl) | rfl) | rfl
  all_goals simp [h] at hp

/-- A run of characters is as long as the text in front of the first one that is not of the kind. -/
theorem length_takeWhile_append {p : Char → Bool} {cs rest : List Char} (hcs : ∀ d ∈ cs, p d = true)
    (hrest : ∀ c ∈ rest.head?, p c = false) : ((cs ++ rest).takeWhile p).length = cs.length := by
  have hend : rest.takeWhile p = [] := by
    cases rest with
    | nil => rfl
    | cons d rest => rw [List.takeWhile_cons_of_neg (by simp [hrest d rfl])]
  rw [List.takeWhile_append_of_pos hcs, hend, List.append_nil]

theorem not_digit_of_isNameStart {c : Char} (h : isNameStart c = true) : isDigit c = false := by
  by_contra hdigit
  simp only [isDigit, Bool.not_eq_false, Bool.and_eq_true, decide_eq_true_eq] at hdigit
  simp only [isNameStart, Bool.or_eq_true, Bool.and_eq_true, decide_eq_true_eq] at h
  rcases h with (⟨h, _⟩ | ⟨h, _⟩) | rfl
  · exact absurd (Char.le_trans h hdigit.2) (by decide)
  · exact absurd (Char.le_trans h hdigit.2) (by decide)
  · exact absurd hdigit.2 (by decide)

theorem exists_of_isName {x : String} (h : isName x = true) :
    ∃ c cs, x.toList = c :: cs ∧ isNameStart c = true ∧ (∀ d ∈ cs, isNamePart d = true) ∧
      Keyword.ofText? x = none := by
  rw [isName, Bool.and_eq_true, Bool.and_eq_true, Option.isNone_iff_eq_none] at h
  obtain ⟨⟨hstart, hparts⟩, hfree⟩ := h
  cases hcs : x.toList with
  | nil =>
    rw [hcs] at hstart
    cases hstart
  | cons c cs =>
    rw [hcs] at hstart hparts
    rw [List.all_cons, Bool.and_eq_true, List.all_eq_true] at hparts
    exact ⟨c, cs, rfl, hstart, hparts.2, hfree⟩

/-- The token of a word. -/
def wordToken (x : String) : Token :=
  match Keyword.ofText? x with
  | some k => .keyword k
  | none => .identifier x

theorem atStart_word {c : Char} {cs : List Char} (hstart : isNameStart c = true) :
    atStart c cs = (token (wordToken (String.ofList (c :: cs.take (cs.takeWhile isNamePart).length))),
      (cs.takeWhile isNamePart).length) := by
  have hblank : isBlank c = false := not_blank_of (by decide) hstart
  unfold atStart wordToken
  dsimp only
  rw [if_neg (by simp [hblank]), if_neg (by simp [not_digit_of_isNameStart hstart]), if_pos hstart]
  split <;> simp_all

theorem atStart_name {x : String} {c : Char} {cs rest : List Char} (hcs : x.toList = c :: cs)
    (hstart : isNameStart c = true) (hparts : ∀ d ∈ cs, isNamePart d = true)
    (hfree : Keyword.ofText? x = none) (hrest : Delimited rest) :
    atStart c (cs ++ rest) = (.token (.identifier x), cs.length) := by
  have hword : String.ofList (c :: (cs ++ rest).take cs.length) = x := by
    rw [List.take_left, ← hcs, String.ofList_toList]
  rw [atStart_word hstart, length_takeWhile_append hparts hrest, hword, wordToken, hfree]

end Piece

/-! Tokens of a text -/

/-- Wherever the text stands on a line, it is read as these tokens. -/
def Reads (cs : List Char) (ts : List Token) : Prop :=
  ∀ pos, (Scan.read cs pos false).errors = [] ∧
    (Scan.read cs pos false).lexemes.map Lexeme.token = ts ∧
    ∀ l ∈ (Scan.read cs pos false).lexemes, l.startsLine = false

namespace Reads

variable {cs rest : List Char} {ts : List Token}

theorem nil : Reads [] [] := by
  intro pos
  rw [Scan.read]
  exact ⟨rfl, rfl, by simp⟩

theorem token {c : Char} {t : Token} {n : Nat} (h : Piece.atStart c cs = (.token t, n))
    (hrest : Reads (cs.drop n) ts) : Reads (c :: cs) (t :: ts) := by
  intro pos
  rw [Scan.read, h]
  obtain ⟨herrors, htokens, hline⟩ := hrest (pos + byteLength (c :: cs.take n))
  exact ⟨herrors, congrArg (t :: ·) htokens, List.forall_mem_cons.mpr ⟨rfl, hline⟩⟩

theorem blank (h : Reads cs ts) : Reads (' ' :: cs) ts := by
  intro pos
  have hgap : Piece.atStart ' ' cs = (.gap, 0) := rfl
  rw [Scan.read, hgap]
  exact h (pos + byteLength (' ' :: cs.take 0))

theorem name {x : String} (hx : Piece.isName x = true) (hrest : Piece.Delimited rest)
    (h : Reads rest ts) : Reads (x.toList ++ rest) (.identifier x :: ts) := by
  obtain ⟨c, cs, hcs, hstart, hparts, hfree⟩ := Piece.exists_of_isName hx
  rw [hcs]
  refine token (Piece.atStart_name hcs hstart hparts hfree hrest) ?_
  change Reads ((cs ++ rest).drop cs.length) ts
  rwa [List.drop_left]

end Reads

/-! Tokens ahead -/

namespace Parse

open Outcome

/-- The tokens that are left are these, all on one line, and nothing is reported yet. -/
structure Cursor.Ahead (c : Cursor) (ts : List Token) : Prop where
  tokens : c.rest.map Lexeme.token = ts
  line : ∀ l ∈ c.rest, l.startsLine = false
  errors : c.errors = []

/-- A value with the property is found, and these tokens are left. -/
def Outcome.Finds {α : Type} {k : Nat} {c : Cursor} (r : Outcome k c α) (P : α → Prop)
    (ts : List Token) : Prop :=
  ∃ a, r.value = some a ∧ P a ∧ r.cursor.Ahead ts

theorem Cursor.ahead_start {cs : List Char} {ts : List Token} (h : Reads cs ts) (offset : Nat) :
    (Cursor.start cs offset).Ahead ts := by
  obtain ⟨herrors, htokens, hline⟩ := h offset
  refine ⟨htokens, hline, ?_⟩
  simp only [Cursor.start, Scan.ofText, herrors, List.map_nil]

namespace Cursor.Ahead

variable {c : Cursor} {t : Token} {ts : List Token}

theorem exists_cons (h : c.Ahead (t :: ts)) : ∃ l ls, c.rest = l :: ls ∧ l.token = t := by
  obtain ⟨l, ls, hrest, hl, _⟩ := List.map_eq_cons_iff.mp h.tokens
  exact ⟨l, ls, hrest, hl⟩

theorem peek? (h : c.Ahead ts) : c.peek? = ts.head? := by
  rw [Cursor.peek?, ← h.tokens, List.head?_map]

theorem isAt (h : c.Ahead ts) (u : Token) : c.isAt u = (ts.head? == some u) := by
  rw [Cursor.isAt, h.peek?]

theorem isAtLineStart (h : c.Ahead ts) : c.isAtLineStart = false := by
  rw [Cursor.isAtLineStart]
  cases hrest : c.rest with
  | nil => rfl
  | cons l ls => exact h.line l (hrest ▸ List.mem_cons_self)

theorem advance (h : c.Ahead (t :: ts)) : c.advance.Ahead ts := by
  obtain ⟨l, ls, hrest, _⟩ := h.exists_cons
  have htokens := h.tokens
  have hline := h.line
  rw [hrest] at htokens hline
  rw [Cursor.advance, hrest]
  exact ⟨(List.cons.inj htokens).2, fun k hk => hline k (List.mem_cons_of_mem l hk), h.errors⟩

theorem eat? (h : c.Ahead (t :: ts)) : ∃ hd, c.eat? t = some ⟨c.advance, hd⟩ := by
  have hat : c.isAt t = true := by simp [h.isAt]
  exact ⟨weight_advance_lt (weight_pos_of_isAt hat), by rw [Cursor.eat?, dif_pos hat]⟩

theorem eat?_of_ne (h : c.Ahead ts) (hne : ts.head? ≠ some t) : c.eat? t = none := by
  rw [Cursor.eat?, dif_neg (by simpa [h.isAt] using hne)]

theorem skip_of_ne (h : c.Ahead ts) (hne : ts.head? ≠ some t) :
    c.skip t = (false, ⟨c, Nat.le_refl _⟩) := by
  rw [Cursor.skip, if_neg (by simpa [h.isAt] using hne)]

theorem separators (h : c.Ahead ts) (hne : ts.head? ≠ some (.mark .semicolon)) :
    c.separators.val = c := by
  cases hrest : c.rest with
  | nil => exact separators_of_nil hrest
  | cons l ls =>
    have hl : l.token ≠ .mark .semicolon := by
      intro hl
      rw [← h.tokens, hrest, List.map_cons, List.head?_cons, hl] at hne
      exact hne rfl
    exact skipWhile_of_neg hrest (by simpa using hl)

end Cursor.Ahead

namespace Outcome

variable {α β : Type} {k : Nat} {c d : Cursor} {P Q : α → Prop} {R : β → Prop} {ts us : List Token}

theorem finds_done {a : α} (ha : P a) (hc : c.Ahead ts) : (done a : Outcome 0 c α).Finds P ts :=
  ⟨a, rfl, ha, hc⟩

theorem finds_found {a : α} {hd : d.weight < c.weight} (ha : P a) (h : d.Ahead ts) :
    (found a d hd).Finds P ts :=
  ⟨a, rfl, ha, h⟩

namespace Finds

theorem imp {r : Outcome k c α} (h : r.Finds P ts) (hPQ : ∀ a, P a → Q a) : r.Finds Q ts := by
  obtain ⟨a, ha, hP, hc⟩ := h
  exact ⟨a, ha, hPQ a hP, hc⟩

theorem relax {r : Outcome 1 c α} (h : r.Finds P ts) : r.relax.Finds P ts := h

theorem weaken {r : Outcome k d α} {hd : d.weight ≤ c.weight} (h : r.Finds P ts) :
    (r.weaken hd).Finds P ts := h

theorem map {r : Outcome k c α} {f : α → β} (h : r.Finds P ts) (hf : ∀ a, P a → R (f a)) :
    (r.map f).Finds R ts := by
  obtain ⟨a, ha, hP, hc⟩ := h
  exact ⟨f a, congrArg (Option.map f) ha, hf a hP, hc⟩

theorem andThen {r : Outcome 1 c α} {f : α → (d : Cursor) → d.weight < c.weight → Outcome 0 d β}
    (h : r.Finds P ts) (hf : ∀ a d hd, P a → d.Ahead ts → (f a d hd).Finds R us) :
    (r.andThen f).Finds R us := by
  obtain ⟨_ | a, d, hle, hc⟩ := r
  · obtain ⟨_, ha, _⟩ := h
    cases ha
  · obtain ⟨_, ha, hP, hd⟩ := h
    obtain rfl := Option.some.inj ha
    exact hf a d (hc rfl) hP hd

theorem thenMaybe {r : Outcome 0 c α} {f : α → (d : Cursor) → d.weight ≤ c.weight → Outcome 0 d β}
    (h : r.Finds P ts) (hf : ∀ a d hd, P a → d.Ahead ts → (f a d hd).Finds R us) :
    (r.thenMaybe f).Finds R us := by
  obtain ⟨_ | a, d, hle, hc⟩ := r
  · obtain ⟨_, ha, _⟩ := h
    cases ha
  · obtain ⟨_, ha, hP, hd⟩ := h
    obtain rfl := Option.some.inj ha
    exact hf a d hle hP hd

end Finds

end Outcome

/-! Parsers -/

variable {c : Cursor} {t : Token} {ts : List Token}

theorem finds_expect (h : c.Ahead (t :: ts)) : (c.expect t).Finds (fun _ => True) ts := by
  rw [Cursor.expect, dif_pos (by simp [h.isAt])]
  exact finds_found trivial h.advance

theorem finds_expectName {x : String} (h : c.Ahead (.identifier x :: ts)) (what : String) :
    (c.expectName what).Finds (fun found => found.1 = x) ts := by
  have hpeek : c.peek? = some (.identifier x) := h.peek?
  unfold Cursor.expectName
  split
  · rename_i y hy
    have hxy : y = x := by simpa using hy.symm.trans hpeek
    exact finds_found hxy h.advance
  · rename_i hne
    exact absurd hpeek (hne x)

/-- Items that are found one by one are found in a list between commas. -/
theorem finds_commaList {α β : Type} {close : Mark} {P : β → α → Prop} {tokens : β → List Token}
    (bs : List β) {c : Cursor} {item : (d : Cursor) → d.weight ≤ c.weight → Outcome 1 d α}
    (hstart : ∀ b ∈ bs, (tokens b).head? ≠ none ∧ (tokens b).head? ≠ some (.mark close))
    (hclose : close ≠ .comma)
    (hitem : ∀ b ∈ bs, ∀ d hd us, (us.head? = some (.mark .comma) ∨ us.head? = some (.mark close)) →
      d.Ahead (tokens b ++ us) → (item d hd).Finds (P b) us)
    (h : c.Ahead ([Token.mark .comma].intercalate (bs.map tokens) ++ .mark close :: ts)) :
    (c.commaList close item).Finds (fun as => List.Forall₂ P bs as) ts := by
  induction bs generalizing c with
  | nil =>
    rw [List.map_nil, List.intercalate_nil, List.nil_append] at h
    rw [Cursor.commaList, if_pos (by simp [Cursor.isAtMark, h.isAt])]
    exact (finds_expect h).map fun _ _ => .nil
  | cons b bs ih =>
    rw [List.forall_mem_cons] at hstart hitem
    obtain ⟨t, tb, hb⟩ : ∃ t tb, tokens b = t :: tb := List.exists_cons_of_ne_nil (by
      intro hnil
      exact hstart.1.1 (by rw [hnil]; rfl))
    have hne : t ≠ .mark close := fun ht => hstart.1.2 (by rw [hb, ht]; rfl)
    cases bs with
    | nil =>
      rw [List.map_singleton, List.intercalate_singleton] at h
      have hnot : ¬ c.isAtMark close = true := by simp [Cursor.isAtMark, h.isAt, hb, hne]
      rw [Cursor.commaList, if_neg hnot]
      refine (hitem.1 c (Nat.le_refl _) _ (.inr rfl) h).andThen fun a d hd ha hahead => ?_
      rw [hahead.eat?_of_ne (t := .mark .comma) (by simpa using hclose)]
      exact ((finds_expect hahead).map fun _ _ => .cons ha .nil).relax
    | cons b' bs =>
      rw [List.map_cons, List.map_cons, List.intercalate_cons_cons, ← List.map_cons, List.append_assoc,
        List.append_assoc] at h
      have hnot : ¬ c.isAtMark close = true := by simp [Cursor.isAtMark, h.isAt, hb, hne]
      rw [Cursor.commaList, if_neg hnot]
      refine (hitem.1 c (Nat.le_refl _) _ (.inl rfl) h).andThen fun a d hd ha hahead => ?_
      obtain ⟨he, heat⟩ := hahead.eat?
      rw [heat]
      refine Finds.weaken (Finds.relax (Finds.map (ih hstart.2 ?_ hahead.advance)
        fun as has => .cons ha has))
      exact fun b hb f hf => hitem.2 b hb f _

/-- An expression that is a single operand. -/
theorem finds_lone {P : Node → Prop} (h : c.Ahead [t]) (hbang : t ≠ .mark .bang)
    (hminus : t ≠ .mark .minus) (hprimary : (primary c).Finds P []) : (binary .or c).Finds P [] := by
  have hunary : (unary c).Finds P [] := by
    rw [unary, signOperator?_eq_none h.peek? hbang hminus, suffixed]
    refine hprimary.andThen fun node d _ hnode hd => ?_
    rw [suffixTail_of_fresh (.inl (List.map_eq_nil_iff.mp hd.tokens)) (hd.eat?_of_ne (by simp))]
    exact finds_done hnode hd
  -- no level finds an operator behind the operand
  have hlevel (l : Level) (ho : (operand l c).Finds P []) : (binary l c).Finds P [] := by
    rw [binary]
    refine ho.andThen fun node d _ hnode hd => ?_
    have hnone : operator? l d = none := by
      rw [Option.eq_none_iff_forall_ne_some]
      rintro ⟨op, e, he⟩ hsome
      obtain ⟨_, m, hm, _⟩ := operator?_eq_some_iff.mp hsome
      rw [hd.peek?] at hm
      cases hm
    rw [binaryTail, hnone]
    exact finds_done hnode hd
  have hproduct := hlevel .product (by rw [operand]; exact hunary)
  have hsum := hlevel .sum (by rw [operand]; exact hproduct)
  have htest : (caseTest c).Finds P [] := by
    rw [caseTest]
    refine hsum.andThen fun node d _ hnode hd => ?_
    rw [if_neg (by simp [hd.isAtLineStart]), hd.eat?_of_ne (by simp)]
    exact finds_done hnode hd
  have hcomparison := hlevel .comparison (by rw [operand]; exact htest)
  have hequality := hlevel .equality (by rw [operand]; exact hcomparison)
  have hand := hlevel .and (by rw [operand]; exact hequality)
  exact hlevel .or (by rw [operand]; exact hand)

/-- An integer that is not too large is found. -/
theorem finds_primary_integer {text : String} {n : Int} (hn : integerOf? text = some n)
    (h : c.Ahead (.integer text :: ts)) :
    (primary c).Finds (fun node => ∃ span, node = .literal (.int n) span) ts := by
  have hpeek : c.peek? = some (.integer text) := h.peek?
  rw [primary_eq hpeek (Cursor.weight_advance_lt (Cursor.weight_pos_of_peek? hpeek)), readPrimary, hn]
  exact finds_found ⟨_, rfl⟩ h.advance

/-- An expression that is a single number. -/
theorem finds_integer {text : String} {n : Int} (hn : integerOf? text = some n)
    (h : c.Ahead [.integer text]) :
    (binary .or c).Finds (fun node => ∃ span, node = .literal (.int n) span) [] :=
  finds_lone h (by simp) (by simp) (finds_primary_integer hn h)

/-- A word is found as a name if no path starts with it. -/
theorem finds_primary_name {x : String} (hx : x ≠ "unit") (hpath : ts[2]? ≠ some (.mark .dot))
    (h : c.Ahead (.identifier x :: ts)) :
    (primary c).Finds (fun node => ∃ span, node = .name x span) ts := by
  have hpeek : c.peek? = some (.identifier x) := h.peek?
  have hnone : qualifiedName? c = none := by
    rw [Option.eq_none_iff_forall_ne_some]
    rintro ⟨node, d, hd⟩ hsome
    obtain ⟨m, p, n, s₁, s₂, s₃, s₄, s₅, rest, ⟨⟨f₁, f₂, f₃, f₄, f₅, hrest⟩, _⟩, _⟩ :=
      qualifiedName?_eq_some_iff.mp hsome
    have htokens := h.tokens
    rw [hrest] at htokens
    obtain ⟨_, rfl⟩ := List.cons.inj htokens
    exact hpath rfl
  rw [primary_eq hpeek (Cursor.weight_advance_lt (Cursor.weight_pos_of_peek? hpeek)), readPrimary,
    if_neg hx, hnone]
  exact finds_found ⟨_, rfl⟩ h.advance

/-- A statement that is an expression. -/
theorem finds_statement {P : Node → Prop} (h : c.Ahead (t :: ts)) (ht : ∀ w, t ≠ .keyword w)
    (hexpr : (binary .or c).Finds P []) : (statement c).Finds P [] := by
  have hform : formOf c.rest = .other := by
    obtain ⟨⟨u, span, fresh⟩, ls, hrest, rfl⟩ := h.exists_cons
    rw [hrest]
    cases u with
    | keyword w => exact absurd rfl (ht w)
    | _ => rfl
  rw [statement_eq (h.skip_of_ne (by simp [ht])), hform, readForm, if_neg Bool.false_ne_true, assignment]
  refine Finds.weaken (hexpr.andThen fun node d _ hnode hd => ?_)
  rw [hd.eat?_of_ne (by simp)]
  exact finds_done hnode hd

/-- A unit that is a single item. -/
theorem sourceUnit_of_statement {P : Node → Prop} (h : c.Ahead (t :: ts))
    (hopens : t.opensStatement = true) (hseparator : t ≠ .mark .semicolon)
    (hs : (statement c).Finds P []) :
    ∃ node, P node ∧ (sourceUnit c).1 = ⟨none, [], [node]⟩ ∧ (sourceUnit c).2.errors = [] := by
  obtain ⟨node, hvalue, hnode, hend⟩ := hs
  have hnot (u : Token) (hu : u.opensStatement = false) : c.isAt u = false := by
    rw [h.isAt]
    simpa using fun htu => absurd (htu ▸ hopens) (by simp [hu])
  have hpackage : packageLine c = (none, c) := by 
    rw [packageLine, if_neg (by simp [hnot (.keyword .package) rfl])]
  have himports : importDecls c = ([], c) := importDecls_of_not_at (hnot _ rfl)
  have hseparators : c.separators.val = c := h.separators (by simpa using hseparator)
  have hpos : 0 < c.weight := Cursor.weight_pos_of_peek? h.peek?
  have hnil : (statement c).cursor.rest = [] := List.map_eq_nil_iff.mp hend.tokens
  obtain ⟨hfirst, hrest⟩ := statement_of_some hpos hvalue
  have hitems : items c = ([node], (statement c).cursor) := by
    rw [items_of_statement hpos (hnot _ rfl), hfirst, hrest, separators_of_nil hnil, items_of_end hnil]
    rfl
  have hwhole : sourceUnit c = (⟨none, [], [node]⟩, (statement c).cursor) := by
    rw [sourceUnit_eq, hpackage, hseparators, himports, hitems]
  rw [hwhole]
  exact ⟨node, hnode, rfl, hend.errors⟩

end Parse

end Tern
