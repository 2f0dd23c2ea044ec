import Tern.Ty.Equality
import Tern.Proofs.Ty
import Tern.Proofs.Ty.Rule

/-!
Types whose sets of signatures, at any depth, have no two members with the same parameters. Equality
of types does not look at the order of members; with repeated members it is not symmetric, but on
these types it is an equivalence, and sets stay without repetition when signatures are inserted.
-/

set_option autoImplicit false

namespace Tern

/-- No two signatures have the same parameters. -/
def Overload.Distinct (ss : List Signature) : Prop :=
  ss.Pairwise fun s t => ¬ (s.params == t.params) = true

def TypeRule.distinct : TypeRule := ⟨fun _ _ => True, Overload.Distinct⟩

def Ty.Proper (t : Ty) : Prop := t.Obeys .distinct

def Signature.Proper (s : Signature) : Prop := s.Obeys .distinct

/-! Equality by the parts of types -/

theorem Ty.allEqual_eq_beq (as bs : List Ty) : Ty.allEqual false as bs = (as == bs) := by
  induction as generalizing bs with
  | nil => cases bs <;> simp [Ty.allEqual]
  | cons a as ih =>
    cases bs with
    | nil => simp [Ty.allEqual]
    | cons b bs =>
      rw [Ty.allEqual, ih, List.cons_beq_cons]
      rfl

theorem Signature.beq_iff {s t : Signature} :
    (s == t) = true ↔ (s.params == t.params) = true ∧ (s.ret == t.ret) = true := by
  cases s with
  | mk ps r =>
    cases t with
    | mk qs q =>
      change Signature.equals false _ _ = true ↔ _
      rw [Signature.equals, Ty.allEqual_eq_beq, Bool.and_eq_true]
      rfl

theorem Ty.overloaded_beq_iff {ss ts : List Signature} :
    (Ty.overloaded ss == Ty.overloaded ts) = true ↔
      ss.length = ts.length ∧ ∀ s ∈ ss, ∃ t ∈ ts, (t == s) = true := by
  rw [Ty.overloaded_beq_overloaded, Bool.and_eq_true, beq_iff_eq, List.all_eq_true]
  simp only [List.any_eq_true]

theorem Ty.variant_beq_iff {h k : VariantHead} {as bs : List Ty} :
    (Ty.variant h as == Ty.variant k bs) = true ↔ h = k ∧ (as == bs) = true := by
  change Ty.equals false _ _ = true ↔ _
  rw [Ty.equals, Ty.allEqual_eq_beq, Bool.and_eq_true, beq_iff_eq]

theorem Ty.function_beq (s t : Signature) : (Ty.function s == Ty.function t) = (s == t) := by
  change Ty.equals false _ _ = _
  rw [Ty.equals]
  rfl

theorem Ty.array_beq (a b : Ty) : (Ty.array a == Ty.array b) = (a == b) := by
  change Ty.equals false _ _ = _
  rw [Ty.equals]
  rfl

/-- Equal types are built alike. -/
theorem Ty.cases_of_beq {a b : Ty} (h : (a == b) = true) :
    a = b ∨ (∃ s t, a = .function s ∧ b = .function t) ∨
      (∃ ss ts, a = .overloaded ss ∧ b = .overloaded ts) ∨
      (∃ hd as bs, a = .variant hd as ∧ b = .variant hd bs) ∨
      ∃ x y, a = .array x ∧ b = .array y := by
  change Ty.equals false a b = true at h
  cases a <;> cases b <;> simp_all [Ty.equals]

/-! Partners -/

/-- Where no two of `as` share a partner and there are no more of `bs`, everyone has a partner. -/
theorem exists_partner {α β : Type} {R : α → β → Prop} {as : List α} {bs : List β}
    (hdistinct : as.Pairwise fun a a' => ∀ b ∈ bs, R a b → ¬ R a' b)
    (hmeet : ∀ a ∈ as, ∃ b ∈ bs, R a b) (hlength : bs.length ≤ as.length) :
    ∀ b ∈ bs, ∃ a ∈ as, R a b := by
  induction as generalizing bs with
  | nil =>
    intro b hb
    rw [List.length_eq_zero_iff.mp (Nat.le_zero.mp hlength)] at hb
    cases hb
  | cons a as ih =>
    obtain ⟨b₀, hb₀, hr⟩ := hmeet a List.mem_cons_self
    obtain ⟨front, back, rfl⟩ := List.append_of_mem hb₀
    rw [List.pairwise_cons] at hdistinct
    have hsplit {b : β} : b ∈ front ++ b₀ :: back ↔ b = b₀ ∨ b ∈ front ++ back := by
      simp only [List.mem_append, List.mem_cons]
      exact or_left_comm
    -- the others find partners without the first one's
    have hothers : ∀ a' ∈ as, ∃ b ∈ front ++ back, R a' b := by
      intro a' ha'
      obtain ⟨b, hb, hr'⟩ := hmeet a' (List.mem_cons_of_mem a ha')
      rcases hsplit.mp hb with rfl | hb
      · exact absurd hr' (hdistinct.1 a' ha' b hb₀ hr)
      · exact ⟨b, hb, hr'⟩
    have hrest := ih (hdistinct.2.imp fun h b hb => h b (hsplit.mpr (Or.inr hb))) hothers
      (by simp only [List.length_append, List.length_cons] at hlength ⊢; omega)
    intro b hb
    rcases hsplit.mp hb with rfl | hb
    · exact ⟨a, List.mem_cons_self, hr⟩
    · obtain ⟨a', ha', hr'⟩ := hrest b hb
      exact ⟨a', List.mem_cons_of_mem a ha', hr'⟩

/-! Equality as an equivalence -/

/-- Among these types equality is symmetric and transitive. -/
structure Ty.Regular (D : Ty → Prop) : Prop where
  symm : ∀ {a b}, D a → D b → (a == b) = true → (b == a) = true
  trans : ∀ {a b c}, D a → D b → D c → (a == b) = true → (b == c) = true → (a == c) = true

namespace Ty.Regular

variable {D : Ty → Prop} (h : Ty.Regular D)
include h

theorem list_symm {as bs : List Ty} (ha : ∀ a ∈ as, D a) (hb : ∀ b ∈ bs, D b)
    (heq : (as == bs) = true) : (bs == as) = true := by
  induction as generalizing bs with
  | nil =>
    cases bs with
    | nil => rfl
    | cons b bs => cases heq
  | cons a as ih =>
    cases bs with
    | nil => cases heq
    | cons b bs =>
      rw [List.forall_mem_cons] at ha hb
      rw [List.cons_beq_cons, Bool.and_eq_true] at heq ⊢
      exact ⟨h.symm ha.1 hb.1 heq.1, ih ha.2 hb.2 heq.2⟩

theorem list_trans {as bs cs : List Ty} (ha : ∀ a ∈ as, D a) (hb : ∀ b ∈ bs, D b)
    (hc : ∀ c ∈ cs, D c) (hab : (as == bs) = true) (hbc : (bs == cs) = true) :
    (as == cs) = true := by
  induction as generalizing bs cs with
  | nil =>
    cases bs with
    | nil => exact hbc
    | cons b bs => cases hab
  | cons a as ih =>
    cases bs with
    | nil => cases hab
    | cons b bs =>
      cases cs with
      | nil => cases hbc
      | cons c cs =>
        rw [List.forall_mem_cons] at ha hb hc
        rw [List.cons_beq_cons, Bool.and_eq_true] at hab hbc ⊢
        exact ⟨h.trans ha.1 hb.1 hc.1 hab.1 hbc.1, ih ha.2 hb.2 hc.2 hab.2 hbc.2⟩

theorem signature_symm {s t : Signature} (hs : (∀ a ∈ s.params, D a) ∧ D s.ret)
    (ht : (∀ a ∈ t.params, D a) ∧ D t.ret) (heq : (s == t) = true) : (t == s) = true := by
  rw [Signature.beq_iff] at heq ⊢
  exact ⟨h.list_symm hs.1 ht.1 heq.1, h.symm hs.2 ht.2 heq.2⟩

theorem signature_trans {s t u : Signature} (hs : (∀ a ∈ s.params, D a) ∧ D s.ret)
    (ht : (∀ a ∈ t.params, D a) ∧ D t.ret) (hu : (∀ a ∈ u.params, D a) ∧ D u.ret)
    (hst : (s == t) = true) (htu : (t == u) = true) : (s == u) = true := by
  rw [Signature.beq_iff] at hst htu ⊢
  exact ⟨h.list_trans hs.1 ht.1 hu.1 hst.1 htu.1, h.trans hs.2 ht.2 hu.2 hst.2 htu.2⟩

theorem overloaded_symm {ss ts : List Signature} (hs : ∀ s ∈ ss, (∀ a ∈ s.params, D a) ∧ D s.ret)
    (ht : ∀ t ∈ ts, (∀ a ∈ t.params, D a) ∧ D t.ret) (hd : Overload.Distinct ss)
    (heq : (Ty.overloaded ss == Ty.overloaded ts) = true) :
    (Ty.overloaded ts == Ty.overloaded ss) = true := by
  rw [Ty.overloaded_beq_iff] at heq ⊢
  obtain ⟨hlength, hmeet⟩ := heq
  refine ⟨hlength.symm, ?_⟩
  -- two members with one partner would be equal, so that their parameters are
  have hdistinct : ss.Pairwise fun s s' => ∀ t ∈ ts, (t == s) = true → ¬ (t == s') = true := by
    refine List.Pairwise.imp_of_mem ?_ hd
    intro s s' hmem hmem' hne t htmem hts hts'
    have hst := h.signature_symm (ht t htmem) (hs s hmem) hts
    have hss' := h.signature_trans (hs s hmem) (ht t htmem) (hs s' hmem') hst hts'
    exact hne (Signature.beq_iff.mp hss').1
  intro t htmem
  obtain ⟨s, hsmem, hts⟩ := exists_partner hdistinct hmeet (Nat.le_of_eq hlength.symm) t htmem
  exact ⟨s, hsmem, h.signature_symm (ht t htmem) (hs s hsmem) hts⟩

theorem overloaded_trans {ss ts us : List Signature}
    (hs : ∀ s ∈ ss, (∀ a ∈ s.params, D a) ∧ D s.ret) (ht : ∀ t ∈ ts, (∀ a ∈ t.params, D a) ∧ D t.ret)
    (hu : ∀ u ∈ us, (∀ a ∈ u.params, D a) ∧ D u.ret)
    (hst : (Ty.overloaded ss == Ty.overloaded ts) = true)
    (htu : (Ty.overloaded ts == Ty.overloaded us) = true) :
    (Ty.overloaded ss == Ty.overloaded us) = true := by
  rw [Ty.overloaded_beq_iff] at hst htu ⊢
  refine ⟨hst.1.trans htu.1, ?_⟩
  intro s hsmem
  obtain ⟨t, htmem, hts⟩ := hst.2 s hsmem
  obtain ⟨u, humem, hut⟩ := htu.2 t htmem
  exact ⟨u, humem, h.signature_trans (hu u humem) (ht t htmem) (hs s hsmem) hut hts⟩

end Ty.Regular

/-- Proper types up to a size. -/
def Ty.ProperBelow (n : Nat) (t : Ty) : Prop := sizeOf t < n ∧ t.Proper

theorem Signature.properBelow {s : Signature} {n : Nat} (hn : sizeOf s < n) (h : s.Proper) :
    (∀ a ∈ s.params, a.ProperBelow n) ∧ s.ret.ProperBelow n := by
  have hparts := Signature.obeys_iff.mp h
  cases s with
  | mk ps r =>
    rw [Signature.mk.sizeOf_spec] at hn
    refine ⟨?_, ?_, hparts.2⟩
    · intro a ha
      have hlt := List.sizeOf_lt_of_mem ha
      rw [Signature.params] at hlt
      exact ⟨by omega, hparts.1 a ha⟩
    · rw [Signature.ret]
      omega

theorem Ty.properBelow_function {s : Signature} {n : Nat} (h : (Ty.function s).ProperBelow (n + 1)) :
    (∀ a ∈ s.params, a.ProperBelow n) ∧ s.ret.ProperBelow n := by
  refine Signature.properBelow ?_ (Ty.obeys_function.mp h.2)
  have hn := h.1
  rw [Ty.function.sizeOf_spec] at hn
  omega

theorem Ty.properBelow_overloaded {ss : List Signature} {n : Nat}
    (h : (Ty.overloaded ss).ProperBelow (n + 1)) :
    ∀ s ∈ ss, (∀ a ∈ s.params, a.ProperBelow n) ∧ s.ret.ProperBelow n := by
  intro s hs
  refine Signature.properBelow ?_ ((Ty.obeys_overloaded.mp h.2).2 s hs)
  have hn := h.1
  have hlt := List.sizeOf_lt_of_mem hs
  rw [Ty.overloaded.sizeOf_spec] at hn
  omega

theorem Ty.properBelow_variant {head : VariantHead} {args : List Ty} {n : Nat}
    (h : (Ty.variant head args).ProperBelow (n + 1)) : ∀ a ∈ args, a.ProperBelow n := by
  intro a ha
  refine ⟨?_, (Ty.obeys_variant.mp h.2).2 a ha⟩
  have hn := h.1
  have hlt := List.sizeOf_lt_of_mem ha
  rw [Ty.variant.sizeOf_spec] at hn
  omega

theorem Ty.properBelow_array {t : Ty} {n : Nat} (h : (Ty.array t).ProperBelow (n + 1)) :
    t.ProperBelow n := by
  refine ⟨?_, Ty.obeys_array.mp h.2⟩
  have hn := h.1
  rw [Ty.array.sizeOf_spec] at hn
  omega

/-- The induction is on the size, since symmetry of sets needs transitivity for members of both. -/
theorem Ty.regular_properBelow (n : Nat) : Ty.Regular (Ty.ProperBelow n) := by
  induction n with
  | zero => exact ⟨fun ha => absurd ha.1 (Nat.not_lt_zero _), fun ha => absurd ha.1 (Nat.not_lt_zero _)⟩
  | succ n ih =>
    constructor
    · intro a b ha hb hab
      rcases Ty.cases_of_beq hab with rfl | ⟨s, t, rfl, rfl⟩ | ⟨ss, ts, rfl, rfl⟩ |
        ⟨hd, as, bs, rfl, rfl⟩ | ⟨x, y, rfl, rfl⟩
      · exact hab
      · rw [Ty.function_beq] at hab ⊢
        exact ih.signature_symm (Ty.properBelow_function ha) (Ty.properBelow_function hb) hab
      · exact ih.overloaded_symm (Ty.properBelow_overloaded ha) (Ty.properBelow_overloaded hb)
          (Ty.obeys_overloaded.mp ha.2).1 hab
      · rw [Ty.variant_beq_iff] at hab ⊢
        exact ⟨rfl, ih.list_symm (Ty.properBelow_variant ha) (Ty.properBelow_variant hb) hab.2⟩
      · rw [Ty.array_beq] at hab ⊢
        exact ih.symm (Ty.properBelow_array ha) (Ty.properBelow_array hb) hab
    · intro a b c ha hb hc hab hbc
      rcases Ty.cases_of_beq hab with rfl | ⟨s, t, rfl, rfl⟩ | ⟨ss, ts, rfl, rfl⟩ |
        ⟨hd, as, bs, rfl, rfl⟩ | ⟨x, y, rfl, rfl⟩
      · exact hbc
      · cases c with
        | function u =>
          rw [Ty.function_beq] at hab hbc ⊢
          exact ih.signature_trans (Ty.properBelow_function ha) (Ty.properBelow_function hb)
            (Ty.properBelow_function hc) hab hbc
        | _ => cases hbc
      · cases c with
        | overloaded us =>
          exact ih.overloaded_trans (Ty.properBelow_overloaded ha) (Ty.properBelow_overloaded hb)
            (Ty.properBelow_overloaded hc) hab hbc
        | _ => cases hbc
      · cases c with
        | variant hd' cs =>
          rw [Ty.variant_beq_iff] at hab hbc ⊢
          exact ⟨hbc.1, ih.list_trans (Ty.properBelow_variant ha) (Ty.properBelow_variant hb)
            (Ty.properBelow_variant hc) hab.2 hbc.2⟩
        | _ => cases hbc
      · cases c with
        | array z =>
          rw [Ty.array_beq] at hab hbc ⊢
          exact ih.trans (Ty.properBelow_array ha) (Ty.properBelow_array hb) (Ty.properBelow_array hc)
            hab hbc
        | _ => cases hbc

/-- Equality is an equivalence on proper types. -/
theorem Ty.regular_proper : Ty.Regular Ty.Proper := by
  constructor
  · intro a b ha hb
    have h := Ty.regular_properBelow (sizeOf a + sizeOf b + 1)
    exact h.symm ⟨by omega, ha⟩ ⟨by omega, hb⟩
  · intro a b c ha hb hc
    have h := Ty.regular_properBelow (sizeOf a + sizeOf b + sizeOf c + 1)
    exact h.trans ⟨by omega, ha⟩ ⟨by omega, hb⟩ ⟨by omega, hc⟩

/-! Sets without repetition -/

namespace Signature.Proper

variable {s t u : Signature}

theorem params (h : s.Proper) : ∀ a ∈ s.params, a.Proper := (Signature.obeys_iff.mp h).1

theorem params_symm (hs : s.Proper) (ht : t.Proper) (h : (s.params == t.params) = true) :
    (t.params == s.params) = true := Ty.regular_proper.list_symm hs.params ht.params h

theorem params_trans (hs : s.Proper) (ht : t.Proper) (hu : u.Proper)
    (h : (s.params == t.params) = true) (k : (t.params == u.params) = true) :
    (s.params == u.params) = true :=
  Ty.regular_proper.list_trans hs.params ht.params hu.params h k

end Signature.Proper

namespace Overload

variable {s t : Signature} {ss : List Signature}

/-- In a set there is one member for each list of parameters. -/
theorem Distinct.eq (hd : Distinct ss) (hp : ∀ u ∈ ss, u.Proper) (hs : s ∈ ss) (ht : t ∈ ss)
    (h : (s.params == t.params) = true) : s = t := by
  induction ss with
  | nil => cases hs
  | cons u ss ih =>
    rw [Distinct, List.pairwise_cons] at hd
    rcases List.mem_cons.mp hs with rfl | hs'
    · rcases List.mem_cons.mp ht with rfl | ht'
      · rfl
      · exact absurd h (hd.1 t ht')
    · rcases List.mem_cons.mp ht with rfl | ht'
      · exact absurd ((hp s hs).params_symm (hp t ht) h) (hd.1 s hs')
      · exact ih hd.2 (fun v hv => hp v (List.mem_cons_of_mem u hv)) hs' ht'

theorem distinct_insert (hs : s.Proper) (hp : ∀ u ∈ ss, u.Proper) (hd : Distinct ss) :
    Distinct (insert s ss) := by
  induction ss with
  | nil => exact List.pairwise_singleton _ s
  | cons u ss ih =>
    rw [List.forall_mem_cons] at hp
    rw [Distinct, List.pairwise_cons] at hd
    rw [insert]
    split
    · rename_i hus
      refine List.pairwise_cons.mpr ⟨?_, hd.2⟩
      intro v hv hsv
      exact hd.1 v hv (hp.1.params_trans hs (hp.2 v hv) hus hsv)
    · rename_i hus
      refine List.pairwise_cons.mpr ⟨?_, ih hp.2 hd.2⟩
      intro v hv
      rcases mem_insert hv with rfl | hv
      · exact hus
      · exact hd.1 v hv

/-- What is inserted takes the place of the member with the same parameters. -/
theorem mem_insert_iff (hs : s.Proper) (hp : ∀ u ∈ ss, u.Proper) (hd : Distinct ss) :
    t ∈ insert s ss ↔ t = s ∨ (t ∈ ss ∧ ¬ (t.params == s.params) = true) := by
  induction ss with
  | nil => simp [insert]
  | cons u ss ih =>
    rw [List.forall_mem_cons] at hp
    rw [Distinct, List.pairwise_cons] at hd
    rw [insert]
    split
    · rename_i hus
      rw [List.mem_cons, List.mem_cons]
      refine or_congr_right ⟨?_, ?_⟩
      · intro ht
        refine ⟨Or.inr ht, ?_⟩
        intro hts
        have hst := (hp.2 t ht).params_symm hs hts
        exact hd.1 t ht (hp.1.params_trans hs (hp.2 t ht) hus hst)
      · rintro ⟨rfl | ht, hne⟩
        · exact absurd hus hne
        · exact ht
    · rename_i hus
      rw [List.mem_cons, ih hp.2 hd.2, List.mem_cons]
      constructor
      · rintro (rfl | rfl | ⟨ht, hne⟩)
        · exact Or.inr ⟨Or.inl rfl, hus⟩
        · exact Or.inl rfl
        · exact Or.inr ⟨Or.inr ht, hne⟩
      · rintro (rfl | ⟨rfl | ht, hne⟩)
        · exact Or.inr (Or.inl rfl)
        · exact Or.inl rfl
        · exact Or.inr (Or.inr ⟨ht, hne⟩)

end Overload

theorem TypeRule.stable_distinct : TypeRule.distinct.Stable where
  args := fun _ _ _ _ _ => trivial
  applied := fun _ _ _ _ _ => trivial
  case := fun _ _ _ _ => trivial
  empty := List.Pairwise.nil
  insert := fun _ _ hs hp hd => Overload.distinct_insert hs hp hd

/-- Replacement builds every set anew, so that nothing is asked of the type. -/
theorem Ty.proper_replace {bindings : Bindings}
    (hb : ∀ x t, bindings.lookup x = some t → t.Proper) (t : Ty) : (t.replace bindings).Proper := by
  have hparts {s : Signature} (hp : ∀ t ∈ s.params, (t.replace bindings).Proper)
      (hr : (s.ret.replace bindings).Proper) : (s.replace bindings).Proper := by
    rw [Signature.replace_eq]
    exact Signature.obeys_iff.mpr ⟨List.forall_mem_map.mpr hp, hr⟩
  induction t using Ty.byParts with
  | primitive p => exact Ty.obeys_primitive p
  | function s ihp ihr =>
    rw [Ty.replace]
    exact Ty.obeys_function.mpr (hparts ihp ihr)
  | overloaded ss ih =>
    rw [Ty.replace, Signature.replaceAll_eq_map]
    exact TypeRule.stable_distinct.obeys_ofList
      (List.forall_mem_map.mpr fun s hs => hparts (ih s hs).1 (ih s hs).2)
  | param x =>
    rw [Ty.replace]
    cases hx : bindings.lookup x with
    | none => exact Ty.obeys_param x
    | some bound => exact hb x bound hx
  | variant head args ih =>
    rw [Ty.replace, Ty.replaceAll_eq_map]
    exact Ty.obeys_variant.mpr ⟨trivial, List.forall_mem_map.mpr ih⟩
  | array t ih =>
    rw [Ty.replace]
    exact Ty.obeys_array.mpr ih

end Tern
