/-!
The same steps in different orders. Where steps that do not need each other commute, every order in
which nothing comes before what it needs leads to the same.
-/

set_option autoImplicit false

namespace Tern

variable {α σ : Type}

/-- Steps for which `U` holds go from valid states to valid ones, and two of them commute unless one
needs the other. -/
structure Commutes (R : σ → σ → Prop) (Valid : σ → Prop) (U : α → Prop) (needs : α → α → Prop)
    (step : σ → α → σ) : Prop where
  refl : ∀ s, Valid s → R s s
  trans : ∀ {s s' s''}, R s s' → R s' s'' → R s s''
  valid : ∀ a s, U a → Valid s → Valid (step s a)
  congr : ∀ a s s', U a → Valid s → Valid s' → R s s' → R (step s a) (step s' a)
  swap : ∀ a b s, U a → U b → a ≠ b → ¬ needs a b → ¬ needs b a → Valid s →
    R (step (step s a) b) (step (step s b) a)

namespace Commutes

variable {R : σ → σ → Prop} {Valid : σ → Prop} {U : α → Prop} {needs : α → α → Prop}
  {step : σ → α → σ}

theorem foldl_valid (h : Commutes R Valid U needs step) {as : List α} (has : ∀ a ∈ as, U a) {s : σ}
    (hs : Valid s) : Valid (as.foldl step s) := by
  induction as generalizing s with
  | nil => exact hs
  | cons a as ih =>
    rw [List.forall_mem_cons] at has
    exact ih has.2 (h.valid a s has.1 hs)

theorem foldl_congr (h : Commutes R Valid U needs step) {as : List α} (has : ∀ a ∈ as, U a)
    {s s' : σ} (hs : Valid s) (hs' : Valid s') (hr : R s s') :
    R (as.foldl step s) (as.foldl step s') := by
  induction as generalizing s s' with
  | nil => exact hr
  | cons a as ih =>
    rw [List.forall_mem_cons] at has
    exact ih has.2 (h.valid a s has.1 hs) (h.valid a s' has.1 hs')
      (h.congr a s s' has.1 hs hs' hr)

/-- A step may be taken before others that it does not need, and that do not need it. -/
theorem foldl_front (h : Commutes R Valid U needs step) {a : α} (ha : U a) {as : List α}
    (has : ∀ b ∈ as, U b ∧ a ≠ b ∧ ¬ needs a b ∧ ¬ needs b a) {s : σ} (hs : Valid s) :
    R (as.foldl step (step s a)) (step (as.foldl step s) a) := by
  induction as generalizing s with
  | nil => exact h.refl _ (h.valid a s ha hs)
  | cons b as ih =>
    obtain ⟨⟨hb, hne, hab, hba⟩, has⟩ := List.forall_mem_cons.mp has
    have hswap := h.swap a b s ha hb hne hab hba hs
    have hsb := h.valid b s hb hs
    have hfirst := h.foldl_congr (fun b hb => (has b hb).1)
      (h.valid b _ hb (h.valid a s ha hs)) (h.valid a _ ha hsb) hswap
    exact h.trans hfirst (ih has hsb)

/-- All orders that respect the needs lead to the same. -/
theorem foldl_perm (h : Commutes R Valid U needs step) {as bs : List α} (hp : as.Perm bs)
    (hU : ∀ a ∈ as, U a) (has : as.Pairwise fun a b => ¬ needs a b)
    (hbs : bs.Pairwise fun a b => ¬ needs a b) {s s' : σ} (hs : Valid s) (hs' : Valid s')
    (hr : R s s') : R (as.foldl step s) (bs.foldl step s') := by
  induction as generalizing bs s s' with
  | nil =>
    obtain rfl := hp.nil_eq
    exact hr
  | cons a as ih =>
    rw [List.forall_mem_cons] at hU
    rw [List.pairwise_cons] at has
    -- the first step of the one order somewhere in the other
    obtain ⟨before, after, rfl, hnew⟩ :=
      List.eq_append_cons_of_mem (hp.subset List.mem_cons_self)
    have hrest : as.Perm (before ++ after) := (hp.trans List.perm_middle).cons_inv
    have hbefore : ∀ b ∈ before, U b ∧ a ≠ b ∧ ¬ needs a b ∧ ¬ needs b a := by
      intro b hb
      have hmem : b ∈ as := hrest.mem_iff.mpr (List.mem_append_left after hb)
      refine ⟨hU.2 b hmem, fun hab => hnew (hab ▸ hb), has.1 b hmem, ?_⟩
      exact (List.pairwise_append.mp hbs).2.2 b hb a List.mem_cons_self
    have hafter : ∀ b ∈ after, U b :=
      fun b hb => hU.2 b (hrest.mem_iff.mpr (List.mem_append_right before hb))
    have hstep := h.valid a s hU.1 hs
    have hstep' := h.valid a s' hU.1 hs'
    have hbs' : (before ++ after).Pairwise fun a b => ¬ needs a b :=
      hbs.sublist ((List.sublist_cons_self a after).append_left before)
    have hfirst := ih hrest hU.2 has.2 hbs' hstep hstep' (h.congr a s s' hU.1 hs hs' hr)
    have hvalid := h.foldl_valid (fun b hb => (hbefore b hb).1) hs'
    have hmoved := h.foldl_congr hafter (h.foldl_valid (fun b hb => (hbefore b hb).1) hstep')
      (h.valid a _ hU.1 hvalid) (h.foldl_front hU.1 hbefore hs')
    rw [List.foldl_append] at hfirst
    rw [List.foldl_cons, List.foldl_append, List.foldl_cons]
    exact h.trans hfirst hmoved

end Commutes

end Tern
