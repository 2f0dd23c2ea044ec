import Tern.Proofs.Ty.Rule

/-!
Unification as rules. A call goes on behind bound parameters as often as they come, so it is not
plain that it ends; a derivation from these rules is a call that does. What holds of every call that
ends is proved here by induction on derivations: it ends in one way only, it keeps the bindings that
were there, and it keeps whatever each new binding keeps.
-/

set_option autoImplicit false

namespace Tern

namespace Unifier

/-- What is to be unified. -/
inductive Goal
  | types (expected found : Ty)
  /-- Pair by pair. -/
  | lists (expected found : List Ty)
  | signatures (expected found : Signature)
  /-- A signature with a member of a set, of which `rest` is left to try. -/
  | members (expected : Signature) (set rest : List Signature)

/-- The types fit without a look at their parts. -/
def AtOnce (expected found : Ty) : Prop :=
  (expected == found || expected.isAny || found.isAny) = true

/-- What is left of the goal for two types that are no parameters, if they are built alike. -/
def parts? : Ty → Ty → Option Goal
  | .function s, .function t => some (.signatures s t)
  | .function s, .overloaded ts => some (.members s ts ts)
  | .array a, .array b => some (.types a b)
  | .variant h as, .variant k bs =>
    if HeadsFit h k ∧ as.length = bs.length then some (.lists as bs) else none
  | _, _ => none

/-- The call for the goal ends with this attempt. -/
inductive Run : Unifier → Goal → Attempt → Prop
  | atOnce {u : Unifier} {expected found : Ty} (h : AtOnce expected found) :
    Run u (.types expected found) u.fits
  | followLeft {u : Unifier} {x : String} {bound found : Ty} {r : Attempt}
    (h : ¬ AtOnce (.param x) found) (hx : u.bindings.lookup x = some bound)
    (next : Run u (.types bound found) r) : Run u (.types (.param x) found) r
  | bindLeft {u : Unifier} {x : String} {found : Ty} (h : ¬ AtOnce (.param x) found)
    (hx : u.bindings.lookup x = none) : Run u (.types (.param x) found) (u.bind x found)
  | followRight {u : Unifier} {x : String} {bound expected : Ty} {r : Attempt}
    (h : ¬ AtOnce expected (.param x)) (hne : ∀ y, expected ≠ .param y)
    (hx : u.bindings.lookup x = some bound) (next : Run u (.types expected bound) r) :
    Run u (.types expected (.param x)) r
  | bindRight {u : Unifier} {x : String} {expected : Ty} (h : ¬ AtOnce expected (.param x))
    (hne : ∀ y, expected ≠ .param y) (hx : u.bindings.lookup x = none) :
    Run u (.types expected (.param x)) (u.bind x expected)
  | parts {u : Unifier} {expected found : Ty} {goal : Goal} {r : Attempt}
    (h : ¬ AtOnce expected found) (hparts : parts? expected found = some goal)
    (next : Run u goal r) : Run u (.types expected found) r
  | mismatch {u : Unifier} {expected found : Ty} (h : ¬ AtOnce expected found)
    (hl : ∀ x, expected ≠ .param x) (hr : ∀ x, found ≠ .param x)
    (hparts : parts? expected found = none) :
    Run u (.types expected found) (u.fails (.mismatch expected found))
  | done {u : Unifier} {as bs : List Ty} (h : as = [] ∨ bs = []) : Run u (.lists as bs) u.fits
  | onward {u u' : Unifier} {a b : Ty} {as bs : List Ty} {r : Attempt}
    (first : Run u (.types a b) (u', none)) (next : Run u' (.lists as bs) r) :
    Run u (.lists (a :: as) (b :: bs)) r
  | stop {u u' : Unifier} {e : UnifyError} {a b : Ty} {as bs : List Ty}
    (first : Run u (.types a b) (u', some e)) : Run u (.lists (a :: as) (b :: bs)) (u', some e)
  | arity {u : Unifier} {s t : Signature} (h : s.params.length ≠ t.params.length) :
    Run u (.signatures s t) (u.fails (.mismatch (.function s) (.function t)))
  | params {u u' : Unifier} {e : UnifyError} {s t : Signature}
    (h : s.params.length = t.params.length)
    (first : Run u (.lists s.params t.params) (u', some e)) : Run u (.signatures s t) (u', some e)
  | result {u u' : Unifier} {s t : Signature} {r : Attempt}
    (h : s.params.length = t.params.length) (first : Run u (.lists s.params t.params) (u', none))
    (next : Run u' (.types s.ret t.ret) r) : Run u (.signatures s t) r
  | exhausted {u : Unifier} {s : Signature} {set : List Signature} :
    Run u (.members s set []) (u.fails (.mismatch (.function s) (.overloaded set)))
  | member {u u' : Unifier} {s t : Signature} {set rest : List Signature}
    (first : Run u (.signatures s t) (u', none)) : Run u (.members s set (t :: rest)) u'.fits
  | skip {u u' : Unifier} {e : UnifyError} {s t : Signature} {set rest : List Signature}
    {r : Attempt} (first : Run u (.signatures s t) (u', some e))
    (next : Run u (.members s set rest) r) : Run u (.members s set (t :: rest)) r

theorem atOnce_iff {expected found : Ty} :
    AtOnce expected found ↔
      (expected == found) = true ∨ expected.isAny = true ∨ found.isAny = true := by
  rw [AtOnce, Bool.or_eq_true, Bool.or_eq_true, or_assoc]

theorem parts?_cases {expected found : Ty} {goal : Goal} (h : parts? expected found = some goal) :
    (∃ s t, expected = .function s ∧ found = .function t ∧ goal = .signatures s t) ∨
      (∃ s ts, expected = .function s ∧ found = .overloaded ts ∧ goal = .members s ts ts) ∨
      (∃ a b, expected = .array a ∧ found = .array b ∧ goal = .types a b) ∨
      ∃ h as k bs, expected = .variant h as ∧ found = .variant k bs ∧ HeadsFit h k ∧
        as.length = bs.length ∧ goal = .lists as bs := by
  unfold parts? at h
  split at h
  · exact Or.inl ⟨_, _, rfl, rfl, (Option.some.inj h).symm⟩
  · exact Or.inr (Or.inl ⟨_, _, rfl, rfl, (Option.some.inj h).symm⟩)
  · exact Or.inr (Or.inr (Or.inl ⟨_, _, rfl, rfl, (Option.some.inj h).symm⟩))
  · split at h
    · rename_i hfit
      refine Or.inr (Or.inr (Or.inr ⟨_, _, _, _, rfl, rfl, hfit.1, hfit.2, ?_⟩))
      exact (Option.some.inj h).symm
    · cases h
  · cases h

/-- Types with parts to be unified are no parameters. -/
theorem not_param_of_parts? {expected found : Ty} {goal : Goal}
    (h : parts? expected found = some goal) :
    (∀ x, expected ≠ .param x) ∧ ∀ x, found ≠ .param x := by
  rcases parts?_cases h with ⟨_, _, rfl, rfl, _⟩ | ⟨_, _, rfl, rfl, _⟩ | ⟨_, _, rfl, rfl, _⟩ |
    ⟨_, _, _, _, rfl, rfl, _⟩
  all_goals exact ⟨nofun, nofun⟩

namespace Run

variable {u : Unifier} {goal : Goal} {r r' : Attempt}

/-- Each goal has one rule that applies, and so one end. -/
theorem unique (h : Run u goal r) (h' : Run u goal r') : r = r' := by
  induction h generalizing r' with
  | atOnce h =>
    cases h' with
    | atOnce => rfl
    | followLeft h' | bindLeft h' | followRight h' | bindRight h' | parts h' | mismatch h' =>
      exact absurd h h'
  | followLeft h hx _ ih =>
    cases h' with
    | atOnce h' => exact absurd h' h
    | followLeft _ hx' next => exact ih (Option.some.inj (hx.symm.trans hx') ▸ next)
    | bindLeft _ hx' => cases hx.symm.trans hx'
    | followRight _ hne | bindRight _ hne => exact absurd rfl (hne _)
    | parts _ hp => exact absurd rfl ((not_param_of_parts? hp).1 _)
    | mismatch _ hl => exact absurd rfl (hl _)
  | bindLeft h hx =>
    cases h' with
    | atOnce h' => exact absurd h' h
    | followLeft _ hx' => cases hx.symm.trans hx'
    | bindLeft => rfl
    | followRight _ hne | bindRight _ hne => exact absurd rfl (hne _)
    | parts _ hp => exact absurd rfl ((not_param_of_parts? hp).1 _)
    | mismatch _ hl => exact absurd rfl (hl _)
  | followRight h hne hx _ ih =>
    cases h' with
    | atOnce h' => exact absurd h' h
    | followLeft | bindLeft => exact absurd rfl (hne _)
    | followRight _ _ hx' next => exact ih (Option.some.inj (hx.symm.trans hx') ▸ next)
    | bindRight _ _ hx' => cases hx.symm.trans hx'
    | parts _ hp => exact absurd rfl ((not_param_of_parts? hp).2 _)
    | mismatch _ _ hr => exact absurd rfl (hr _)
  | bindRight h hne hx =>
    cases h' with
    | atOnce h' => exact absurd h' h
    | followLeft | bindLeft => exact absurd rfl (hne _)
    | followRight _ _ hx' => cases hx.symm.trans hx'
    | bindRight => rfl
    | parts _ hp => exact absurd rfl ((not_param_of_parts? hp).2 _)
    | mismatch _ _ hr => exact absurd rfl (hr _)
  | parts h hp _ ih =>
    cases h' with
    | atOnce h' => exact absurd h' h
    | followLeft | bindLeft => exact absurd rfl ((not_param_of_parts? hp).1 _)
    | followRight | bindRight => exact absurd rfl ((not_param_of_parts? hp).2 _)
    | parts _ hp' next => exact ih (Option.some.inj (hp.symm.trans hp') ▸ next)
    | mismatch _ _ _ hp' => cases hp.symm.trans hp'
  | mismatch h hl hr hp =>
    cases h' with
    | atOnce h' => exact absurd h' h
    | followLeft | bindLeft => exact absurd rfl (hl _)
    | followRight | bindRight => exact absurd rfl (hr _)
    | parts _ hp' => cases hp.symm.trans hp'
    | mismatch => rfl
  | done h =>
    cases h' with
    | done => rfl
    | onward | stop => simp at h
  | onward _ _ ihf ihn =>
    cases h' with
    | done h => simp at h
    | onward first next =>
      cases ihf first
      exact ihn next
    | stop first => cases ihf first
  | stop _ ihf =>
    cases h' with
    | done h => simp at h
    | onward first => cases ihf first
    | stop first => exact ihf first
  | arity h =>
    cases h' with
    | arity => rfl
    | params h' | result h' => exact absurd h' h
  | params h _ ihf =>
    cases h' with
    | arity h' => exact absurd h h'
    | params _ first => exact ihf first
    | result _ first => cases ihf first
  | result h _ _ ihf ihn =>
    cases h' with
    | arity h' => exact absurd h h'
    | params _ first => cases ihf first
    | result _ first next =>
      cases ihf first
      exact ihn next
  | exhausted =>
    cases h'
    rfl
  | member _ ihf =>
    cases h' with
    | member first =>
      cases ihf first
      rfl
    | skip first => cases ihf first
  | skip _ _ ihf ihn =>
    cases h' with
    | member first => cases ihf first
    | skip _ next => exact ihn next

end Run

/-! What a call keeps -/

/-- A binding stays as it is: a parameter is bound only if it was not, and behind all others. -/
theorem Run.extends {u : Unifier} {goal : Goal} {r : Attempt} (h : Run u goal r) :
    u.bindings <+: r.1.bindings := by
  induction h with
  | atOnce | mismatch | done | arity | exhausted => exact List.prefix_rfl
  | @bindLeft u x t | @bindRight u x t =>
    rcases u.bind_cases x t with ⟨_, h⟩ | ⟨_, h⟩
    · rw [h]
      exact List.prefix_rfl
    · rw [h]
      exact List.prefix_append _ _
  | followLeft _ _ _ ih | followRight _ _ _ _ ih | parts _ _ _ ih => exact ih
  | stop _ ih | params _ _ ih | member _ ih => exact ih
  | onward _ _ ihf ihn | result _ _ _ ihf ihn => exact ihf.trans ihn
  | skip _ _ _ ihn => exact ihn

theorem lookup_of_extends {b b' : Bindings} (h : b <+: b') {x : String} {t : Ty}
    (hx : b.lookup x = some t) : b'.lookup x = some t := by
  obtain ⟨more, rfl⟩ := h
  rw [List.lookup_append, hx, Option.some_or]

/-- The parts of a type of this kind are of this kind. -/
structure Inherited (P : Ty → Prop) : Prop where
  function : ∀ {s}, P (.function s) → (∀ t ∈ s.params, P t) ∧ P s.ret
  overloaded : ∀ {ss}, P (.overloaded ss) → ∀ s ∈ ss, P (.function s)
  variant : ∀ {head args}, P (.variant head args) → ∀ t ∈ args, P t
  array : ∀ {t}, P (.array t) → P t

/-- All types of the goal are of this kind. -/
def Goal.All (P : Ty → Prop) : Goal → Prop
  | types a b => P a ∧ P b
  | lists as bs => (∀ a ∈ as, P a) ∧ ∀ b ∈ bs, P b
  | signatures s t => P (.function s) ∧ P (.function t)
  | members s set rest => P (.function s) ∧ P (.overloaded set) ∧ ∀ t ∈ rest, P (.function t)

theorem Inherited.all_of_parts? {P : Ty → Prop} (hP : Inherited P) {expected found : Ty}
    {goal : Goal} (h : parts? expected found = some goal) (he : P expected) (hf : P found) :
    goal.All P := by
  rcases parts?_cases h with ⟨s, t, rfl, rfl, rfl⟩ | ⟨s, ts, rfl, rfl, rfl⟩ |
    ⟨a, b, rfl, rfl, rfl⟩ | ⟨h, as, k, bs, rfl, rfl, _, _, rfl⟩
  · exact ⟨he, hf⟩
  · exact ⟨he, hf, hP.overloaded hf⟩
  · exact ⟨hP.array he, hP.array hf⟩
  · exact ⟨hP.variant he, hP.variant hf⟩

/-- What holds of the bindings before holds of them after, if it survives that an unbound parameter
is bound; it is never bound to `any`, which fits at once. -/
theorem Run.keeps {P : Ty → Prop} {I : Unifier → Prop} (hP : Inherited P)
    (hbound : ∀ u x t, I u → u.bindings.lookup x = some t → P t)
    (hbind : ∀ u x t, I u → P (.param x) → P t → ¬ t.isAny = true → u.bindings.lookup x = none →
      I (u.bind x t).1)
    {u : Unifier} {goal : Goal} {r : Attempt} (h : Run u goal r) (hu : I u) (hg : goal.All P) :
    I r.1 := by
  induction h with
  | atOnce | mismatch | done | arity | exhausted => exact hu
  | followLeft _ hx _ ih => exact ih hu ⟨hbound _ _ _ hu hx, hg.2⟩
  | bindLeft h hx =>
    exact hbind _ _ _ hu hg.1 hg.2 (fun hany => h (atOnce_iff.mpr (Or.inr (Or.inr hany)))) hx
  | followRight _ _ hx _ ih => exact ih hu ⟨hg.1, hbound _ _ _ hu hx⟩
  | bindRight h _ hx =>
    exact hbind _ _ _ hu hg.2 hg.1 (fun hany => h (atOnce_iff.mpr (Or.inr (Or.inl hany)))) hx
  | parts _ hparts _ ih => exact ih hu (hP.all_of_parts? hparts hg.1 hg.2)
  | onward _ _ ihf ihn =>
    simp only [Goal.All, List.forall_mem_cons] at hg
    exact ihn (ihf hu ⟨hg.1.1, hg.2.1⟩) ⟨hg.1.2, hg.2.2⟩
  | stop _ ih =>
    simp only [Goal.All, List.forall_mem_cons] at hg
    exact ih hu ⟨hg.1.1, hg.2.1⟩
  | params _ _ ih => exact ih hu ⟨(hP.function hg.1).1, (hP.function hg.2).1⟩
  | result _ _ _ ihf ihn =>
    have hs := hP.function hg.1
    have ht := hP.function hg.2
    exact ihn (ihf hu ⟨hs.1, ht.1⟩) ⟨hs.2, ht.2⟩
  | member _ ih => exact ih hu ⟨hg.1, hg.2.2 _ List.mem_cons_self⟩
  | skip _ _ _ ihn =>
    exact ihn hu ⟨hg.1, hg.2.1, fun t ht => hg.2.2 t (List.mem_cons_of_mem _ ht)⟩

/-- What every new binding leaves as it is needs nothing of the types. -/
theorem Run.keeps_always {I : Unifier → Prop}
    (hbind : ∀ u x t, I u → ¬ t.isAny = true → u.bindings.lookup x = none → I (u.bind x t).1)
    {u : Unifier} {goal : Goal} {r : Attempt} (h : Run u goal r) (hu : I u) : I r.1 :=
  h.keeps (P := fun _ => True) ⟨by simp, by simp, by simp, by simp⟩ (by simp)
    (fun u x t hu _ _ hany hx => hbind u x t hu hany hx) hu (by cases goal <;> simp [Goal.All])

theorem inherited_obeys (rule : TypeRule) : Inherited (Ty.Obeys rule) where
  function h := Signature.obeys_iff.mp (Ty.obeys_function.mp h)
  overloaded h s hs := Ty.obeys_function.mpr ((Ty.obeys_overloaded.mp h).2 s hs)
  variant h := (Ty.obeys_variant.mp h).2
  array := Ty.obeys_array.mp

theorem Run.obeys {rule : TypeRule} (hr : rule.Stable) {u : Unifier} {goal : Goal} {r : Attempt}
    (h : Run u goal r) (hu : u.Obeys rule) (hg : goal.All (Ty.Obeys rule)) : r.1.Obeys rule :=
  h.keeps (inherited_obeys rule) (fun _ x t hu => hu x t)
    (fun _ x _ hu _ ht _ _ => hu.bind hr x ht) hu hg

end Unifier

end Tern
