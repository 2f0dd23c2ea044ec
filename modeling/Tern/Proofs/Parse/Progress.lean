import Tern.Parse

/-!
Reading only goes forward: tokens are taken from the front, and errors are added at the end. Where
nothing could be read, an error says so. Every round of a loop over statements takes a token, also
one that ends in an error, so a unit is read to its end.
-/

set_option autoImplicit false

namespace Tern.Parse

namespace Cursor

/-- From `c` reading may have come to `d`. -/
structure Advances (c d : Cursor) : Prop where
  rest : d.rest <:+ c.rest
  errors : c.errors <+: d.errors
  textStop : d.textStop = c.textStop

theorem Advances.refl (c : Cursor) : c.Advances c :=
  ⟨List.suffix_refl _, List.prefix_refl _, rfl⟩

theorem Advances.trans {c d e : Cursor} (h : c.Advances d) (k : d.Advances e) : c.Advances e :=
  ⟨k.rest.trans h.rest, h.errors.trans k.errors, k.textStop.trans h.textStop⟩

theorem advances_advance (c : Cursor) : c.Advances c.advance := by
  rcases c with ⟨_ | ⟨l, ls⟩, lastStop, textStop, errors⟩
  · exact .refl _
  · exact ⟨List.suffix_cons l ls, List.prefix_refl _, rfl⟩

theorem advances_reportAll (c : Cursor) (es : List ParseError) : c.Advances (c.reportAll es) :=
  ⟨List.suffix_refl _, List.prefix_append _ _, rfl⟩

theorem advances_report (c : Cursor) (e : ParseError) : c.Advances (c.report e) :=
  c.advances_reportAll [e]

theorem advances_of_eat? {c d : Cursor} {t : Token} {h : d.weight < c.weight}
    (he : c.eat? t = some ⟨d, h⟩) : c.Advances d := by
  unfold eat? at he
  split at he
  · cases he
    exact c.advances_advance
  · cases he

theorem advances_of_skip {c d : Cursor} {t : Token} {b : Bool} {h : d.weight ≤ c.weight}
    (he : c.skip t = (b, ⟨d, h⟩)) : c.Advances d := by
  unfold skip at he
  split at he
  · cases he
    exact c.advances_advance
  · cases he
    exact .refl c

theorem advances_skipWhile (p : Lexeme → Bool) (c : Cursor) : c.Advances (c.skipWhile p).val := by
  fun_induction skipWhile p c with
  | case1 c h => exact .refl c
  | case2 c l ls h hp hlt d ih => exact c.advances_advance.trans ih
  | case3 c l ls h hp => exact .refl c

/-- One token or more was taken on the way from `c` to `d`. -/
def Takes (c d : Cursor) : Prop := ∃ taken, taken ≠ [] ∧ c.rest = taken ++ d.rest

theorem Advances.takes {c d : Cursor} (h : c.Advances d) (hlt : d.weight < c.weight) : c.Takes d := by
  obtain ⟨taken, heq⟩ := h.rest
  refine ⟨taken, ?_, heq.symm⟩
  rintro rfl
  simp only [weight, ← heq, List.nil_append] at hlt
  omega

theorem Takes.length_lt {c d : Cursor} (h : c.Takes d) : d.rest.length < c.rest.length := by
  obtain ⟨taken, hne, heq⟩ := h
  have := List.length_pos_iff.mpr hne
  rw [heq, List.length_append]
  omega

end Cursor

namespace Outcome

variable {α β : Type} {k : Nat} {c : Cursor}

/-- Reading went on from `c`, and if it found nothing, it said so. -/
structure Sound (r : Outcome k c α) : Prop where
  advances : c.Advances r.cursor
  reported : r.value = none → c.errors.length < r.cursor.errors.length

theorem sound_done (a : α) : (done a : Outcome 0 c α).Sound := ⟨.refl c, by simp [done]⟩

theorem sound_found {a : α} {d : Cursor} {hd : d.weight < c.weight} (h : c.Advances d) :
    (found a d hd).Sound := ⟨h, by simp [found]⟩

theorem sound_report {d : Cursor} {e : ParseError} {h : (d.report e).weight ≤ c.weight}
    (hd : c.Advances d) : (fail (d.report e) h : Outcome k c α).Sound where
  advances := hd.trans (d.advances_report e)
  reported := by
    intro _
    have := hd.errors.length_le
    simp only [fail, Cursor.report, List.length_append, List.length_singleton]
    omega

theorem Sound.relax {r : Outcome 1 c α} (h : r.Sound) : r.relax.Sound := ⟨h.advances, h.reported⟩

theorem Sound.map {r : Outcome k c α} (h : r.Sound) (f : α → β) : (r.map f).Sound where
  advances := h.advances
  reported := fun hn => h.reported (by simpa [Outcome.map] using hn)

theorem Sound.weaken {d : Cursor} {r : Outcome k d α} (h : r.Sound) (hd : c.Advances d)
    (hle : d.weight ≤ c.weight) : (r.weaken hle).Sound where
  advances := hd.trans h.advances
  reported := by
    intro hn
    have := hd.errors.length_le
    exact Nat.lt_of_le_of_lt this (h.reported hn)

theorem Sound.andThen {r : Outcome 1 c α}
    {f : α → (d : Cursor) → d.weight < c.weight → Outcome 0 d β} (h : r.Sound)
    (hf : ∀ a d hd, (f a d hd).Sound) : (r.andThen f).Sound := by
  obtain ⟨value, d, hle, hc⟩ := r
  cases value with
  | none => exact ⟨h.advances, fun _ => h.reported rfl⟩
  | some a =>
    have hs := (hf a d (hc rfl)).weaken h.advances hle
    exact ⟨hs.advances, hs.reported⟩

theorem Sound.thenMaybe {r : Outcome 0 c α}
    {f : α → (d : Cursor) → d.weight ≤ c.weight → Outcome 0 d β} (h : r.Sound)
    (hf : ∀ a d hd, (f a d hd).Sound) : (r.thenMaybe f).Sound := by
  obtain ⟨value, d, hle, hc⟩ := r
  cases value with
  | none => exact ⟨h.advances, fun _ => h.reported rfl⟩
  | some a => exact (hf a d hle).weaken h.advances hle

end Outcome

open Outcome

namespace Cursor

variable {α : Type}

theorem sound_expect (c : Cursor) (t : Token) : (c.expect t).Sound := by
  unfold expect
  split
  · exact sound_found c.advances_advance
  · exact sound_report (.refl c)

theorem sound_expectName (c : Cursor) (what : String) : (c.expectName what).Sound := by
  unfold expectName
  split
  · exact sound_found c.advances_advance
  · exact sound_report (.refl c)

theorem sound_commaList (close : Mark) (c : Cursor)
    (item : (d : Cursor) → d.weight ≤ c.weight → Outcome 1 d α) (h : ∀ d hd, (item d hd).Sound) :
    (commaList close c item).Sound := by
  fun_induction commaList close c item with
  | case1 c item hc => exact (c.sound_expect _).map _
  | case2 c item hc ih =>
    apply (h c (Nat.le_refl _)).andThen
    intro a d hd
    split
    · exact ((d.sound_expect _).map _).relax
    · rename_i e he heq
      have hmore := ih d hd e he fun f hf => h f _
      exact (hmore.map _).relax.weaken (advances_of_eat? heq) _

/-- What one statement leaves behind, read or passed over. -/
theorem advances_statement {c : Cursor} (h : 0 < c.weight) {r : Outcome 1 c α} (hr : r.Sound) :
    c.Advances (c.statement h r).2 := by
  obtain ⟨value, d, hle, hc⟩ := r
  have hd : c.Advances d := hr.advances
  cases value with
  | some a => exact hd.trans (advances_skipWhile _ d)
  | none =>
    simp only [statement]
    apply Advances.trans ?_ (advances_skipWhile _ _)
    apply Advances.trans ?_ (advances_skipWhile _ _)
    split
    · exact hd
    · exact hd.trans d.advances_advance

theorem statement_fst {c : Cursor} (h : 0 < c.weight) (r : Outcome 1 c α) :
    (c.statement h r).1 = r.value := by
  obtain ⟨_ | a, d, hle, hc⟩ := r <;> rfl

theorem advances_statements (c : Cursor) (item : (d : Cursor) → d.weight ≤ c.weight → Outcome 1 d α)
    (h : ∀ d hd, (item d hd).Sound) : c.Advances (c.statements item).2 := by
  fun_induction statements c item with
  | case1 c item hc => exact .refl c
  | case2 c item hc hpos a? d hd hs more ih =>
    have hfirst := advances_statement hpos (h c (Nat.le_refl _))
    rw [hs] at hfirst
    exact hfirst.trans (ih fun f hf => h f _)

end Cursor

/-! Every parser -/

theorem sound_selectedCase (start : Span) (type : TypeRef) (c : Cursor) :
    (selectedCase start type c).Sound := by
  unfold selectedCase
  split
  · exact sound_done _
  · rename_i d hd heq
    apply Sound.weaken ?_ (Cursor.advances_of_eat? heq)
    exact ((d.sound_expectName _).andThen fun _ _ _ => sound_done _).relax

theorem sound_typeRef (c : Cursor) : (typeRef c).Sound := by
  rw [typeRef]
  dsimp only
  split
  · rename_i d hd heq
    apply Sound.weaken ?_ (Cursor.advances_of_eat? heq)
    apply (d.sound_commaList _ _ fun e _ => sound_typeRef e).andThen
    intro params e _
    apply Sound.relax
    apply (e.sound_expect _).andThen
    intro _ f _
    exact (sound_typeRef f).relax.thenMaybe fun _ _ _ => sound_done _
  · apply (c.sound_expectName _).andThen
    intro name d _
    split
    · exact sound_selectedCase _ _ d
    · split
      · exact sound_selectedCase _ _ d
      · rename_i e he heq
        apply Sound.weaken ?_ (Cursor.advances_of_eat? heq)
        apply (e.sound_commaList _ _ fun f _ => sound_typeRef f).relax.thenMaybe
        intro args f _
        exact sound_selectedCase _ _ f
termination_by c.weight
decreasing_by all_goals omega

theorem sound_typeAfterColon (c : Cursor) : (typeAfterColon c).Sound := by
  unfold typeAfterColon
  split
  · exact sound_done _
  · rename_i d hd heq
    exact ((sound_typeRef d).map _).relax.weaken (Cursor.advances_of_eat? heq) _

theorem sound_typeParams (c : Cursor) : (typeParams c).Sound := by
  unfold typeParams
  split
  · exact sound_done _
  · rename_i d hd heq
    apply Sound.weaken ?_ (Cursor.advances_of_eat? heq)
    exact (d.sound_commaList _ _ fun e _ => (e.sound_expectName _).map _).relax

theorem sound_param (c : Cursor) : (param c).Sound := by
  apply (c.sound_expectName _).andThen
  intro name d _
  apply Sound.relax
  apply (d.sound_expect _).andThen
  intro _ e _
  exact (sound_typeRef e).relax.thenMaybe fun _ _ _ => sound_done _

theorem sound_params (c : Cursor) : (params c).Sound := by
  apply (c.sound_expect _).andThen
  intro _ d _
  exact (d.sound_commaList _ _ fun e _ => sound_param e).relax

theorem sound_caseField (c : Cursor) : (caseField c).Sound := by
  unfold caseField
  split
  rename_i isPublic d hd heq
  apply Sound.weaken ?_ (Cursor.advances_of_skip heq)
  apply (d.sound_expectName _).andThen
  intro name e _
  apply Sound.relax
  apply (e.sound_expect _).andThen
  intro _ f _
  exact (sound_typeRef f).relax.thenMaybe fun _ _ _ => sound_done _

theorem sound_caseDecl (c : Cursor) : (caseDecl c).Sound := by
  unfold caseDecl
  split
  rename_i isPublic d hd heq
  apply Sound.weaken ?_ (Cursor.advances_of_skip heq)
  apply (d.sound_expectName _).andThen
  rintro ⟨name, _⟩ e _
  dsimp only
  split
  · exact sound_done _
  · rename_i f hf hparen
    apply Sound.weaken ?_ (Cursor.advances_of_eat? hparen)
    apply (f.sound_commaList _ _ fun g _ => sound_caseField g).relax.thenMaybe
    intro fields g _
    exact sound_done _

theorem sound_caseDecls (c : Cursor) : (caseDecls c).Sound := by
  rw [caseDecls]
  apply (sound_caseDecl c).andThen
  intro first d _
  split
  · exact sound_done _
  · rename_i e he heq
    exact ((sound_caseDecls e).map _).relax.weaken (Cursor.advances_of_eat? heq) _
termination_by c.weight
decreasing_by all_goals omega

theorem sound_dataDecl (isPublic : Bool) (start : Span) (c : Cursor) :
    (dataDecl isPublic start c).Sound := by
  apply (c.sound_expect _).andThen
  intro _ d _
  apply Sound.relax
  apply (d.sound_expectName _).andThen
  intro name e _
  apply (sound_typeParams e).thenMaybe
  intro typeParams f _
  apply Sound.relax
  apply (f.sound_expect _).andThen
  intro _ g _
  exact (sound_caseDecls g).relax.thenMaybe fun _ _ _ => sound_done _

theorem advances_of_operator? {l : Level} {c d : Cursor} {op : BinaryOp} {h : d.weight < c.weight}
    (he : operator? l c = some (op, ⟨d, h⟩)) : c.Advances d := by
  unfold operator? at he
  split at he
  · cases he
  · split at he
    · obtain ⟨_, _, heq⟩ := Option.map_eq_some_iff.mp he
      cases heq
      exact c.advances_advance
    · cases he

theorem advances_of_signOperator? {c d : Cursor} {op : UnaryOp} {h : d.weight < c.weight}
    (he : signOperator? c = some (op, ⟨d, h⟩)) : c.Advances d := by
  unfold signOperator? at he
  split at he
  · rename_i heq
    cases he
    exact Cursor.advances_of_eat? heq
  · rename_i heq
    cases he
    exact Cursor.advances_of_eat? heq
  · cases he

theorem advances_of_qualifiedName? {c d : Cursor} {node : Node} {h : d.weight < c.weight}
    (he : qualifiedName? c = some (node, ⟨d, h⟩)) : c.Advances d := by
  unfold qualifiedName? at he
  split at he
  · rename_i m s₁ _ s₂ _ p s₃ _ s₄ _ n s₅ _ rest hrest
    split at he
    · cases he
      refine ⟨?_, List.prefix_refl _, rfl⟩
      rw [hrest]
      exact ⟨[_, _, _, _, _], rfl⟩
    · cases he
  · cases he

mutual

theorem sound_statement (c : Cursor) : (statement c).Sound := by
  unfold statement
  split
  rename_i isPublic d hd heq
  apply Sound.weaken ?_ (Cursor.advances_of_skip heq)
  split
  · exact sound_functionDecl isPublic c.currentSpan d
  · exact sound_variableDecl isPublic false c.currentSpan _ d
  · exact sound_variableDecl isPublic true c.currentSpan _ d
  · exact sound_dataDecl isPublic c.currentSpan d
  · split
    · exact sound_report (.refl d)
    · exact sound_assignment d
termination_by 32 * c.weight + 25
decreasing_by all_goals omega

theorem sound_functionDecl (isPublic : Bool) (start : Span) (c : Cursor) :
    (functionDecl isPublic start c).Sound := by
  rw [functionDecl]
  apply (c.sound_expect _).andThen
  intro _ d _
  apply Sound.relax
  apply (d.sound_expectName _).andThen
  intro name e _
  apply (sound_typeParams e).thenMaybe
  intro typeParams f _
  apply Sound.relax
  apply (sound_params f).andThen
  intro params g _
  apply (sound_typeAfterColon g).thenMaybe
  intro returnType i _
  exact (sound_blockBody i).relax.thenMaybe fun _ _ _ => sound_done _
termination_by 32 * c.weight + 24
decreasing_by all_goals omega

theorem sound_variableDecl (isPublic isMutable : Bool) (start : Span) (word : Token) (c : Cursor) :
    (variableDecl isPublic isMutable start word c).Sound := by
  rw [variableDecl]
  apply (c.sound_expect _).andThen
  intro _ d _
  apply Sound.relax
  apply (d.sound_expectName _).andThen
  intro name e _
  apply (sound_typeAfterColon e).thenMaybe
  intro type f _
  apply Sound.relax
  apply (f.sound_expect _).andThen
  intro _ g _
  exact (sound_binary .or g).relax.thenMaybe fun _ _ _ => sound_done _
termination_by 32 * c.weight + 24
decreasing_by all_goals (try simp only [Level.height]); all_goals omega

theorem sound_assignment (c : Cursor) : (assignment c).Sound := by
  rw [assignment]
  apply (sound_binary .or c).andThen
  intro target d _
  split
  · exact sound_done _
  · rename_i e he heq
    apply Sound.weaken ?_ (Cursor.advances_of_eat? heq)
    apply (sound_assignment e).relax.thenMaybe
    intro value f _
    split
    · exact sound_done _
    · exact sound_report (.refl f)
termination_by 32 * c.weight + 22
decreasing_by all_goals (try simp only [Level.height]); all_goals omega

theorem sound_binary (l : Level) (c : Cursor) : (binary l c).Sound := by
  rw [binary]
  exact (sound_operand l c).andThen fun left d _ => sound_binaryTail l left d
termination_by 32 * c.weight + 6 + 3 * l.height
decreasing_by all_goals omega

theorem sound_binaryTail (l : Level) (left : Node) (c : Cursor) : (binaryTail l left c).Sound := by
  rw [binaryTail]
  split
  · exact sound_done _
  · rename_i op d hd heq
    have := l.height_le
    apply Sound.weaken ?_ (advances_of_operator? heq)
    exact (sound_operand l d).relax.thenMaybe fun right e _ => sound_binaryTail l _ e
termination_by 32 * c.weight
decreasing_by all_goals omega

theorem sound_operand (l : Level) (c : Cursor) : (operand l c).Sound := by
  cases l with
  | or => rw [operand]; exact sound_binary .and c
  | and => rw [operand]; exact sound_binary .equality c
  | equality => rw [operand]; exact sound_binary .comparison c
  | comparison => rw [operand]; exact sound_caseTest c
  | sum => rw [operand]; exact sound_binary .product c
  | product => rw [operand]; exact sound_unary c
termination_by 32 * c.weight + 5 + 3 * l.height
decreasing_by all_goals (try simp only [Level.height]); all_goals omega

theorem sound_caseTest (c : Cursor) : (caseTest c).Sound := by
  rw [caseTest]
  apply (sound_binary .sum c).andThen
  intro value d _
  split
  · exact sound_done _
  · split
    · exact sound_done _
    · rename_i e he heq
      apply Sound.weaken ?_ (Cursor.advances_of_eat? heq)
      exact ((e.sound_expectName _).andThen fun _ _ _ => sound_done _).relax
termination_by 32 * c.weight + 10
decreasing_by all_goals (try simp only [Level.height]); all_goals omega

theorem sound_unary (c : Cursor) : (unary c).Sound := by
  rw [unary]
  split
  · exact sound_suffixed c
  · rename_i op d hd heq
    apply Sound.weaken ?_ (advances_of_signOperator? heq)
    exact (sound_unary d).andThen fun _ _ _ => sound_done _
termination_by 32 * c.weight + 4
decreasing_by all_goals omega

theorem sound_suffixed (c : Cursor) : (suffixed c).Sound := by
  rw [suffixed]
  exact (sound_primary c).andThen fun node d _ => sound_suffixTail node d
termination_by 32 * c.weight + 3
decreasing_by all_goals omega

theorem sound_suffixTail (node : Node) (c : Cursor) : (suffixTail node c).Sound := by
  rw [suffixTail]
  split
  · rename_i d hd heq
    split
    · exact sound_done _
    · apply Sound.weaken ?_ (Cursor.advances_of_eat? heq)
      apply (d.sound_commaList _ _ fun e _ => sound_binary .or e).relax.thenMaybe
      intro args e _
      exact sound_suffixTail _ e
  · rename_i d hd _ heq
    split
    · exact sound_done _
    · apply Sound.weaken ?_ (Cursor.advances_of_eat? heq)
      apply (sound_binary .or d).relax.thenMaybe
      intro index e _
      apply (e.sound_expect _).relax.thenMaybe
      intro _ f _
      exact sound_suffixTail _ f
  · rename_i d hd _ _ heq
    apply Sound.weaken ?_ (Cursor.advances_of_eat? heq)
    apply (d.sound_expectName _).relax.thenMaybe
    intro member e _
    exact sound_suffixTail _ e
  · exact sound_done _
termination_by 32 * c.weight
decreasing_by all_goals (try simp only [Level.height]); all_goals omega

theorem sound_primary (c : Cursor) : (primary c).Sound := by
  rw [primary]
  dsimp only
  split
  · exact sound_report (.refl c)
  · rename_i token h
    have hlt : c.advance.weight < c.weight := Cursor.weight_advance_lt (Cursor.weight_pos_of_peek? h)
    have hadvance := c.advances_advance
    split
    · split
      · exact sound_found hadvance
      · exact sound_found (hadvance.trans (Cursor.advances_report _ _))
    · exact sound_found hadvance
    · exact sound_found (hadvance.trans (Cursor.advances_reportAll _ _))
    · exact sound_found hadvance
    · exact sound_found hadvance
    · split
      · exact sound_found hadvance
      · split
        · rename_i node d hd hq
          exact sound_found (advances_of_qualifiedName? hq)
        · exact sound_found hadvance
    · apply Sound.weaken ?_ hadvance
      apply (sound_binary .or c.advance).andThen
      intro inner d _
      exact ((d.sound_expect _).map _).relax
    · exact (sound_blockBody c).map _
    · apply Sound.weaken ?_ hadvance
      apply (c.advance.sound_commaList _ _ fun d _ => sound_binary .or d).andThen
      intro elements d _
      exact sound_done _
    · exact sound_branch c
    · apply (c.sound_expect _).andThen
      intro start d _
      apply (sound_condition d).thenMaybe
      intro condition e _
      exact (sound_blockBody e).relax.thenMaybe fun _ _ _ => sound_done _
    · apply (c.sound_expect _).andThen
      intro start d _
      split
      · exact (sound_binary .or d).relax.thenMaybe fun _ _ _ => sound_done _
      · exact sound_done _
    · apply (c.sound_expect _).andThen
      intro start d _
      apply Sound.relax
      apply (sound_params d).andThen
      intro params e _
      apply (sound_typeAfterColon e).thenMaybe
      intro returnType f _
      exact (sound_blockBody f).relax.thenMaybe fun _ _ _ => sound_done _
    · exact sound_report (.refl c)
termination_by 32 * c.weight + 2
decreasing_by all_goals (try simp only [Level.height]); all_goals omega

theorem sound_condition (c : Cursor) : (condition c).Sound := by
  rw [condition]
  apply Sound.relax
  apply (c.sound_expect _).andThen
  intro _ d _
  apply (sound_binary .or d).relax.thenMaybe
  intro condition e _
  exact ((e.sound_expect _).map _).relax
termination_by 32 * c.weight
decreasing_by all_goals (try simp only [Level.height]); all_goals omega

theorem sound_branch (c : Cursor) : (branch c).Sound := by
  rw [branch]
  apply (c.sound_expect _).andThen
  intro start d _
  apply (sound_condition d).thenMaybe
  intro condition e _
  apply (sound_blockBody e).relax.thenMaybe
  intro body f _
  dsimp only
  split
  · exact sound_done _
  · rename_i g hg heq
    apply Sound.weaken ?_ (Cursor.advances_of_eat? heq)
    refine Sound.thenMaybe ?_ fun _ _ _ => sound_done _
    apply Sound.relax
    split
    · exact sound_branch g
    · exact (sound_blockBody g).map _
termination_by 32 * c.weight + 1
decreasing_by all_goals omega

theorem sound_blockBody (c : Cursor) : (blockBody c).Sound := by
  rw [blockBody]
  apply (c.sound_expect _).andThen
  intro start d _
  dsimp only
  have he := d.separators.property
  have hbody := Cursor.advances_statements d.separators.val (fun f _ => statement f)
    fun f _ => sound_statement f
  apply Sound.weaken ?_ ((Cursor.advances_skipWhile _ d).trans hbody)
  exact (Cursor.sound_expect _ _).relax.thenMaybe fun _ _ _ => sound_done _
termination_by 32 * c.weight + 1
decreasing_by all_goals omega

end

/-! A whole unit -/

theorem sound_packagePath (c : Cursor) : (packagePath c).Sound := by
  apply (c.sound_expectName _).andThen
  intro _ d _
  apply Sound.relax
  apply (d.sound_expect _).andThen
  intro _ e _
  exact ((e.sound_expectName _).map _).relax

theorem sound_packageDecl (c : Cursor) : (packageDecl c).Sound := by
  apply (c.sound_expect _).andThen
  intro _ d _
  exact (sound_packagePath d).relax.thenMaybe fun _ _ _ => sound_done _

theorem sound_nameAfterAs (what : String) (c : Cursor) : (nameAfterAs what c).Sound := by
  unfold nameAfterAs
  split
  · exact sound_done _
  · rename_i d hd heq
    exact ((d.sound_expectName what).map _).relax.weaken (Cursor.advances_of_eat? heq) _

theorem sound_importEntry (c : Cursor) : (importEntry c).Sound := by
  apply (c.sound_expectName _).andThen
  intro _ d _
  exact (sound_nameAfterAs _ d).thenMaybe fun _ _ _ => sound_done _

theorem sound_importEntries (c : Cursor) : (importEntries c).Sound := by
  unfold importEntries
  split
  · exact sound_done _
  · rename_i d hd heq
    exact (d.sound_commaList _ _ fun e _ => sound_importEntry e).relax.weaken
      (Cursor.advances_of_eat? heq) _

theorem sound_importDecl (c : Cursor) : (importDecl c).Sound := by
  apply (c.sound_expect _).andThen
  intro _ d _
  apply (sound_packagePath d).relax.thenMaybe
  intro _ e _
  apply (sound_nameAfterAs _ e).thenMaybe
  intro _ f _
  exact (sound_importEntries f).thenMaybe fun _ _ _ => sound_done _

theorem advances_importDecls (c : Cursor) : c.Advances (importDecls c).2 := by
  fun_induction importDecls c with
  | case1 c h decl? d hd hs decls e he ih =>
    have hfirst := Cursor.advances_statement (Cursor.weight_pos_of_isAt h) (sound_importDecl c)
    rw [hs] at hfirst
    rw [he] at ih
    exact hfirst.trans ih
  | case2 c h => exact .refl c

theorem advances_items (c : Cursor) : c.Advances (items c).2 := by
  fun_induction items c with
  | case1 c h => exact .refl c
  | case2 c h hpos hbrace hlt ih =>
    exact ((c.advances_report _).trans (Cursor.advances_advance _)).trans ih
  | case3 c h hpos hbrace node? d hd hs nodes e he ih =>
    have hfirst := Cursor.advances_statement hpos (sound_statement c)
    rw [hs] at hfirst
    rw [he] at ih
    exact hfirst.trans ih

theorem advances_packageLine (c : Cursor) : c.Advances (packageLine c).2 := by
  unfold packageLine
  split
  · exact (sound_packageDecl c).advances
  · exact .refl c

theorem advances_sourceUnit (c : Cursor) : c.Advances (sourceUnit c).2 :=
  (advances_packageLine c).trans ((Cursor.advances_skipWhile _ _).trans
    ((advances_importDecls _).trans (advances_items _)))

/-! Loops -/

/-- One round of the loop over the statements of a block. -/
inductive StatementRound : Cursor → Cursor → Prop
  | read {c : Cursor} (hbrace : c.isAtMark .rightBrace = false) (hpos : 0 < c.weight) :
      StatementRound c (c.statement hpos (statement c)).2

/-- One round of the loop over the items of a unit; a closing brace that nothing opened is passed. -/
inductive ItemRound : Cursor → Cursor → Prop
  | read {c d : Cursor} (h : StatementRound c d) : ItemRound c d
  | stray {c : Cursor} (hbrace : c.isAtMark .rightBrace = true) :
      ItemRound c (c.reportExpected "declaration or expression").advance

/-- Some rounds, and how many. -/
inductive Rounds (round : Cursor → Cursor → Prop) : Nat → Cursor → Cursor → Prop
  | zero (c : Cursor) : Rounds round 0 c c
  | succ {n : Nat} {c d e : Cursor} (h : round c d) (k : Rounds round n d e) :
      Rounds round (n + 1) c e

theorem StatementRound.takes {c d : Cursor} (h : StatementRound c d) : c.Takes d := by
  cases h with
  | read hbrace hpos =>
    exact (Cursor.advances_statement hpos (sound_statement c)).takes (c.statement hpos _).2.property

theorem ItemRound.takes {c d : Cursor} (h : ItemRound c d) : c.Takes d := by
  cases h with
  | read h => exact h.takes
  | stray hbrace =>
    let e := c.reportExpected "declaration or expression"
    have hpos : 0 < e.weight := Cursor.weight_pos_of_isAt hbrace
    exact ((c.advances_report _).trans e.advances_advance).takes (Cursor.weight_advance_lt hpos)

theorem Rounds.length_le {round : Cursor → Cursor → Prop}
    (hround : ∀ c d, round c d → c.Takes d) {n : Nat} {c d : Cursor} (h : Rounds round n c d) :
    n + d.rest.length ≤ c.rest.length := by
  induction h with
  | zero c => omega
  | succ hcd _ ih =>
    have := (hround _ _ hcd).length_lt
    omega

theorem rounds_statements (c : Cursor) :
    let stop : Cursor := (c.statements fun d _ => statement d).2
    (∃ n, Rounds StatementRound n c stop) ∧
      (stop.isAtEnd = true ∨ stop.isAtMark .rightBrace = true) := by
  -- the loop hands its item on with other bounds, so the item is kept general
  suffices hloop : ∀ (item : (d : Cursor) → d.weight ≤ c.weight → Outcome 1 d Node),
      (item = fun d _ => statement d) →
      (∃ n, Rounds StatementRound n c (c.statements item).2) ∧
        ((c.statements item).2.val.isAtEnd = true ∨
          (c.statements item).2.val.isAtMark .rightBrace = true) from hloop _ rfl
  intro item hitem
  fun_induction Cursor.statements c item with
  | case1 c item hc => exact ⟨⟨0, .zero c⟩, hc⟩
  | case2 c item hc hpos a? d hd hs more ih =>
    subst hitem
    obtain ⟨⟨n, hn⟩, hstop⟩ := ih rfl
    have hbrace : c.isAtMark .rightBrace = false := by simpa using (not_or.mp hc).2
    have hround := StatementRound.read hbrace hpos
    rw [hs] at hround
    exact ⟨⟨n + 1, .succ hround hn⟩, hstop⟩

theorem rounds_items (c : Cursor) :
    (∃ n, Rounds ItemRound n c (items c).2) ∧ (items c).2.rest = [] := by
  fun_induction items c with
  | case1 c h => exact ⟨⟨0, .zero c⟩, by simpa [Cursor.isAtEnd] using h⟩
  | case2 c h hpos hbrace hlt ih =>
    obtain ⟨⟨n, hn⟩, hend⟩ := ih
    exact ⟨⟨n + 1, .succ (.stray hbrace) hn⟩, hend⟩
  | case3 c h hpos hbrace node? d hd hs nodes e he ih =>
    rw [he] at ih
    obtain ⟨⟨n, hn⟩, hend⟩ := ih
    have hround := StatementRound.read (by simpa using hbrace) hpos
    rw [hs] at hround
    exact ⟨⟨n + 1, .succ (.read hround) hn⟩, hend⟩

/-! Strings -/

/-- What a parser of its own reads in a hole of a string. -/
def readHole (code : List Char) (offset : Nat) : Option Node × List ParseError :=
  let inner := binary .or (Cursor.start code offset)
  let closed :=
    if inner.value.isSome && !inner.cursor.isAtEnd then inner.cursor.reportExpected "`\x7d`"
    else inner.cursor
  (inner.value, closed.errors)

/-- The parts of a string token, and the errors in its holes. -/
def readHoles (raw : String) (start : Nat) : List Part × List ParseError :=
  fill (fun code offset _ => readHole code offset) (Template.ofToken raw start).holes
    fun _ => Template.size_lt_of_mem_ofToken

/-- The error about a hole without an end. -/
def unclosedHole (raw : String) (start : Nat) : List ParseError :=
  ((Template.ofToken raw start).unclosed.map fun p =>
    ParseError.unclosedInterpolation ⟨p, p + 2⟩).toList

/-- A string is read whole, and each of its holes by a parser of its own. -/
theorem primary_string {c : Cursor} {raw : String} (h : c.peek? = some (.string raw)) :
    (primary c).value = some (stringNode c.currentSpan (readHoles raw c.currentSpan.start).1
        (Template.ofToken raw c.currentSpan.start).tail) ∧
      (primary c).cursor = c.advance.reportAll ((readHoles raw c.currentSpan.start).2 ++
        unclosedHole raw c.currentSpan.start) := by
  rw [primary]
  dsimp only
  split
  · simp_all
  · rename_i token htoken
    obtain rfl : token = .string raw := Option.some.inj (htoken.symm.trans h)
    exact ⟨rfl, rfl⟩

/-- While `text` is read, a parser of its own reads `code`, which fills a hole of a string. -/
def Nested (code text : List Char) : Prop :=
  ∃ offset, ∃ l ∈ (Cursor.start text offset).rest, ∃ raw, l.token = .string raw ∧
    ∃ before place, (before, .code code place) ∈ (Template.ofToken raw l.span.start).holes

theorem size_le_totalSize {l : Lexeme} {ls : List Lexeme} (h : l ∈ ls) :
    l.token.size ≤ Lexeme.totalSize ls := by
  induction ls with
  | nil => cases h
  | cons m ls ih =>
    simp only [Lexeme.totalSize]
    rcases List.mem_cons.mp h with rfl | h
    · omega
    · have := ih h
      omega

theorem Nested.length_lt {code text : List Char} (h : Nested code text) :
    code.length < text.length := by
  obtain ⟨offset, l, hl, raw, htoken, before, place, hole⟩ := h
  have hcode : code.length < raw.length := Template.size_lt_of_mem_ofToken hole
  have hraw : raw.length ≤ l.token.size := by
    rw [htoken]
    exact Nat.le_max_right 1 raw.length
  have htoken := size_le_totalSize hl
  have htext := Cursor.weight_start_le text offset
  simp only [Cursor.weight] at htext
  omega

/-- Reading ends: every round over items or statements takes a token, so there are no more rounds
than tokens; what is read apart in a string is shorter than the text around it; and of a unit no
token is left. -/
theorem reading_ends :
    (∀ c d, ItemRound c d → c.Takes d) ∧ (∀ c d, StatementRound c d → c.Takes d) ∧
    (∀ c, ∃ n ≤ c.rest.length, Rounds ItemRound n c (items c).2) ∧
    (∀ c : Cursor, let stop : Cursor := (c.statements fun d _ => statement d).2
      (∃ n ≤ c.rest.length, Rounds StatementRound n c stop) ∧
        (stop.isAtEnd = true ∨ stop.isAtMark .rightBrace = true)) ∧
    (∀ code text, Nested code text → code.length < text.length) ∧
    ∀ source : String, (sourceUnit (.start source.toList 0)).2.rest = [] := by
  refine ⟨fun _ _ h => h.takes, fun _ _ h => h.takes, ?_, ?_, fun _ _ h => h.length_lt, ?_⟩
  · intro c
    obtain ⟨⟨n, hn⟩, _⟩ := rounds_items c
    have := hn.length_le fun _ _ h => h.takes
    exact ⟨n, by omega, hn⟩
  · intro c
    obtain ⟨⟨n, hn⟩, hstop⟩ := rounds_statements c
    have := hn.length_le fun _ _ h => h.takes
    exact ⟨⟨n, by omega, hn⟩, hstop⟩
  · intro source
    exact (rounds_items _).2

/-- The text `) "${x}"`. -/
def unopened : List Char := ") \"$\x7bx\x7d\"".toList

/-- The parenthesis is no statement, and yet the round takes it. -/
theorem reading_ends_unopened :
    (∃ d, ItemRound (.start unopened 0) d ∧ (Cursor.start unopened 0).Takes d) ∧
      Nested ['x'] unopened ∧ ['x'].length < unopened.length := by
  have hround : StatementRound (.start unopened 0) _ :=
    .read (by decide +kernel) (by decide +kernel)
  have hnested : Nested ['x'] unopened := by
    refine ⟨0, ⟨.string "\"$\x7bx\x7d\"", ⟨2, 8⟩, false⟩, ?_, _, rfl, "", 5, ?_⟩
    · have hrest : (Cursor.start unopened 0).rest =
          [⟨.mark .rightParen, ⟨0, 1⟩, false⟩, ⟨.string "\"$\x7bx\x7d\"", ⟨2, 8⟩, false⟩] := by
        decide +kernel
      simp [hrest]
    · have hholes : (Template.ofToken "\"$\x7bx\x7d\"" 2).holes = [("", .code ['x'] 5)] := by
        decide +kernel
      simp [hholes]
  obtain ⟨hitem, _, _, _, hshorter, _⟩ := reading_ends
  exact ⟨⟨_, .read hround, hitem _ _ (.read hround)⟩, hnested, hshorter _ _ hnested⟩

end Tern.Parse
