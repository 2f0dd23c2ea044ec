import Mathlib.Logic.Relation
import Tern.Proofs.Ty.Bare
import Tern.Proofs.Unifier.Run

/-!
Bindings in the order in which they are made. A parameter is bound to a type in which neither itself
is seen nor a parameter that was bound before it: applying the bindings takes the earlier ones away,
and the occurs check sees to the new one. What is seen in a type may be all that it mentions, or only
what it mentions outside of sets. The first needs sets without repetition, since two types with
repeated members can be taken for equal though only one of them mentions a parameter; outside of sets,
equal types are the same.
-/

set_option autoImplicit false

namespace Tern

open Relation

namespace Unifier

/-- Which parameters are seen in a type of this kind. Replacement brings in only what is seen in the
types of parameters that are seen, and equal types show the same. -/
structure View where
  Kind : Ty → Prop
  Sees : Ty → String → Prop
  replace : ∀ {b : Bindings} (t : Ty), (∀ x s, b.lookup x = some s → Kind s) → Kind (t.replace b)
  param : ∀ {x y : String}, Sees (.param x) y ↔ x = y
  mentions : ∀ {t : Ty} {x : String}, Sees t x → t.mentions x = true
  brought : ∀ {b : Bindings} {t : Ty} {x : String}, Sees (t.replace b) x →
    Sees t x ∧ b.lookup x = none ∨ ∃ y s, Sees t y ∧ b.lookup y = some s ∧ Sees s x
  of_beq : ∀ {s t : Ty} {x : String}, Kind s → Kind t → (s == t) = true → Sees t x → Sees s x

namespace View

/-- All that a type without repetitions mentions. -/
def whole : View where
  Kind := Ty.Proper
  Sees t x := t.mentions x = true
  replace t hb := Ty.proper_replace hb t
  param := Ty.mentions_param
  mentions := id
  brought := Ty.brought_of_mentions_replace
  of_beq hs ht h := Ty.mentions_of_beq ht hs (Ty.regular_proper.symm hs ht h)

/-- What any type mentions outside of sets. -/
def outside : View where
  Kind _ := True
  Sees t x := t.bare.mentions x = true
  replace _ _ := trivial
  param := Ty.mentions_param
  mentions := Ty.mentions_of_mentions_bare
  brought := by
    intro b t x hx
    rw [Ty.bare_replace] at hx
    rcases Ty.brought_of_mentions_replace hx with ⟨hx, hnone⟩ | ⟨y, s, hy, hs, hx⟩
    · rw [Ty.lookup_map_bare, Option.map_eq_none_iff] at hnone
      exact Or.inl ⟨hx, hnone⟩
    · rw [Ty.lookup_map_bare] at hs
      obtain ⟨r, hr, rfl⟩ := Option.map_eq_some_iff.mp hs
      exact Or.inr ⟨y, r, hy, hr, hx⟩
  of_beq _ _ h hx := Ty.bare_eq_of_beq h ▸ hx

end View

/-- Each parameter is bound once, to a type in which neither itself is seen nor a parameter bound
before it. -/
structure Tidy (u : Unifier) (v : View) : Prop where
  kind : ∀ p ∈ u.bindings, v.Kind p.2
  later : u.bindings.Pairwise fun p q => q.1 ≠ p.1 ∧ ¬ v.Sees q.2 p.1
  free : ∀ p ∈ u.bindings, ¬ v.Sees p.2 p.1

/-- None of the first `k` parameters that were bound is seen in the type. -/
def Clear (u : Unifier) (v : View) (k : Nat) (t : Ty) : Prop :=
  ∀ p ∈ u.bindings.take k, ¬ v.Sees t p.1

section

variable {u : Unifier} {v : View} {x : String} {t : Ty} {k : Nat}

theorem tidy_empty (v : View) : Tidy {} v := ⟨by simp, by simp, by simp⟩

theorem lookup_ne_none {b : Bindings} {p : String × Ty} (h : p ∈ b) : b.lookup p.1 ≠ none := by
  rw [ne_eq, List.lookup_eq_none_iff]
  intro hnone
  simpa using hnone p h

theorem mem_of_lookup {b : Bindings} (h : b.lookup x = some t) : (x, t) ∈ b := by
  obtain ⟨front, back, rfl, _⟩ := List.lookup_eq_some_iff.mp h
  exact List.mem_append_right front List.mem_cons_self

theorem clear_zero : u.Clear v 0 t := by simp [Clear]

theorem Clear.mono {j : Nat} (h : u.Clear v k t) (hj : j ≤ k) : u.Clear v j t :=
  fun p hp => h p ((List.take_subset_take_left u.bindings hj) hp)

theorem Clear.of_sees {t' : Ty} (h : u.Clear v k t) (ht : ∀ y, v.Sees t' y → v.Sees t y) :
    u.Clear v k t' := fun p hp hy => h p hp (ht p.1 hy)

/-- A type that is clear of all that were bound shows no bound parameter. -/
theorem Clear.lookup_of_sees (h : u.Clear v u.bindings.length t) (hx : v.Sees t x) :
    u.bindings.lookup x = none := by
  cases hs : u.bindings.lookup x with
  | none => rfl
  | some s => exact absurd hx (h (x, s) (by rw [List.take_length]; exact mem_of_lookup hs))

namespace Tidy

variable (hu : u.Tidy v)
include hu

theorem kind_of_lookup (h : u.bindings.lookup x = some t) : v.Kind t := hu.kind _ (mem_of_lookup h)

/-- What stands for a parameter is clear of it and of all that were bound before it. -/
theorem exists_clear (hx : u.Clear v k (.param x)) (h : u.bindings.lookup x = some t) :
    ∃ j, k ≤ j ∧ j < u.bindings.length ∧ u.Clear v (j + 1) t := by
  obtain ⟨front, back, heq, _⟩ := List.lookup_eq_some_iff.mp h
  refine ⟨front.length, ?_, by simp [heq], ?_⟩
  · refine Nat.le_of_not_lt fun hlt => ?_
    have hmem : (x, t) ∈ u.bindings.take k := by
      rw [heq, List.take_append, List.take_of_length_le (by omega)]
      refine List.mem_append_right front ?_
      obtain ⟨n, hn⟩ := Nat.exists_eq_add_of_lt hlt
      rw [show k - front.length = n + 1 by omega, List.take_succ_cons]
      exact List.mem_cons_self
    exact hx _ hmem (v.param.mpr rfl)
  · intro p hp
    rw [heq, List.take_append, List.take_of_length_le (by omega),
      show front.length + 1 - front.length = 1 by omega, List.take_succ_cons, List.take_zero,
      List.mem_append, List.mem_singleton] at hp
    rcases hp with hp | rfl
    · have hlater := hu.later
      rw [heq, List.pairwise_append] at hlater
      exact (hlater.2.2 p hp (x, t) List.mem_cons_self).2
    · exact hu.free (x, t) (mem_of_lookup h)

/-- Replacement takes away one parameter more. -/
theorem clear_replace (ht : u.Clear v k t) : u.Clear v (k + 1) (t.replace u.bindings) := by
  intro p hp hy
  rcases v.brought hy with ⟨_, hnone⟩ | ⟨z, s, hz, hs, hsees⟩
  · exact lookup_ne_none (List.mem_of_mem_take hp) hnone
  · have hclear : u.Clear v k (.param z) := ht.of_sees fun y hy => v.param.mp hy ▸ hz
    obtain ⟨j, hkj, _, hj⟩ := hu.exists_clear hclear hs
    exact hj.mono (Nat.succ_le_succ hkj) p hp hsees

theorem clear_substitute (ht : u.Clear v k t) : u.Clear v (k + 1) (t.substitute u.bindings) := by
  unfold Ty.substitute
  split
  · rename_i hempty
    intro p hp
    rw [List.isEmpty_iff.mp hempty, List.take_nil] at hp
    cases hp
  · exact hu.clear_replace ht

/-- Without bindings nothing is replaced. -/
theorem kind_substitute (ht : u.bindings = [] → v.Kind t) : v.Kind (t.substitute u.bindings) := by
  unfold Ty.substitute
  split
  · rename_i hempty
    exact ht (List.isEmpty_iff.mp hempty)
  · exact v.replace t fun _ _ => hu.kind_of_lookup

/-- A type that replacement leaves equal is clear of every bound parameter: of the first one, then
of the second one, which only the type of the first one could have brought, and so on. -/
theorem clear_of_beq (ht : v.Kind t) (h : (t.substitute u.bindings == t) = true) :
    u.Clear v k t := by
  induction k with
  | zero => exact clear_zero
  | succ k ih =>
    exact (hu.clear_substitute ih).of_sees fun _ => v.of_beq (hu.kind_substitute fun _ => ht) ht h

theorem clear_settle (n : Nat) (ht : v.Kind t) (hk : u.Clear v k t)
    (hn : u.bindings.length ≤ k + n) : u.Clear v u.bindings.length (settle u.bindings n t) := by
  induction n generalizing k t with
  | zero => exact hk.mono hn
  | succ n ih =>
    rw [settle]
    split
    · rename_i h
      exact hu.clear_of_beq ht h
    · exact ih (hu.kind_substitute fun _ => ht) (hu.clear_substitute hk) (by omega)

/-- Applying the bindings leaves no bound parameter. -/
theorem clear_apply (t : Ty) : u.Clear v u.bindings.length (u.apply t) := by
  by_cases hnone : u.bindings = []
  · simp [Clear, hnone]
  · exact hu.clear_settle u.bindings.length (hu.kind_substitute fun h => absurd h hnone) clear_zero
      (by omega)

theorem kind_apply (ht : u.bindings = [] → v.Kind t) : v.Kind (u.apply t) :=
  apply_of_substitute (P := v.Kind) (fun _ h => hu.kind_substitute fun _ => h)
    (hu.kind_substitute ht)

/-- No parameter that is bound is seen in the new binding, and the occurs check sees to itself. -/
theorem bind (ht : u.bindings = [] → v.Kind t) (hx : u.bindings.lookup x = none) :
    (u.bind x t).1.Tidy v := by
  rcases u.bind_cases x t with ⟨_, h⟩ | ⟨hfree, h⟩
  · rw [h]
    exact hu
  · rw [h]
    refine ⟨?_, ?_, ?_⟩
    · rintro p hp
      rcases List.mem_append.mp hp with hp | hp
      · exact hu.kind p hp
      · exact List.mem_singleton.mp hp ▸ hu.kind_apply ht
    · refine List.pairwise_append.mpr ⟨hu.later, List.pairwise_singleton _ _, ?_⟩
      intro p hp q hq
      rw [List.mem_singleton.mp hq]
      refine ⟨?_, fun hsees => ?_⟩
      · rintro rfl
        exact lookup_ne_none hp hx
      · exact lookup_ne_none hp ((hu.clear_apply t).lookup_of_sees hsees)
    · intro p hp
      rcases List.mem_append.mp hp with hp | hp
      · exact hu.free p hp
      · rw [List.mem_singleton.mp hp]
        exact fun hsees => Bool.eq_false_iff.mp hfree (v.mentions hsees)

end Tidy

theorem apply_of_empty (h : u.bindings = []) (t : Ty) : u.apply t = t := by
  rw [apply, h]
  rfl

/-- The first type that a parameter was bound to is of the kind. -/
def Starts (u : Unifier) (v : View) : Prop := ∀ p ∈ u.bindings.head?, v.Kind p.2

theorem starts_of_lookup (h : ∀ x t, u.bindings.lookup x = some t → v.Kind t) : u.Starts v := by
  intro p hp
  obtain ⟨bs, hb⟩ := List.head?_eq_some_iff.mp hp
  exact h p.1 p.2 (by rw [hb, List.lookup_cons_self])

/-- The bindings are applied to every type but the first one before a parameter is bound to it, so
these are of the kind at any rate. -/
theorem tidy_bind (hu : u.Starts v → u.Tidy v) (hx : u.bindings.lookup x = none)
    (hstart : (u.bind x t).1.Starts v) : (u.bind x t).1.Tidy v := by
  rcases u.bind_cases x t with ⟨_, h⟩ | ⟨_, h⟩
  · rw [h] at hstart ⊢
    exact hu hstart
  · have hnew : (u.bind x t).1.bindings = u.bindings ++ [(x, u.apply t)] := by
      rw [h]
      rfl
    rw [Starts, hnew] at hstart
    cases hb : u.bindings with
    | nil =>
      have htidy : u.Tidy v := hu (by simp [Starts, hb])
      have hkind : v.Kind (u.apply t) := hstart (x, u.apply t) (by simp [hb])
      exact htidy.bind (fun _ => apply_of_empty hb t ▸ hkind) hx
    | cons p bs =>
      have htidy : u.Tidy v := hu fun q hq => hstart q (by rw [hb] at hq ⊢; exact hq)
      exact htidy.bind (fun h => absurd (hb.symm.trans h) (List.cons_ne_nil p bs)) hx

/-- A call leaves the bindings tidy. -/
theorem Tidy.run {goal : Goal} {r : Attempt} (h : Run u goal r) (hu : u.Starts v → u.Tidy v) :
    r.1.Starts v → r.1.Tidy v :=
  h.keeps_always (fun _ _ _ hu _ hx => tidy_bind hu hx) hu

/-! Circles -/

/-- The parameter `y` is seen in what stands for the parameter `x`. -/
def Refers (u : Unifier) (v : View) (x y : String) : Prop :=
  ∃ t, u.bindings.lookup x = some t ∧ v.Sees t y

theorem Tidy.clear_of_refers (hu : u.Tidy v) {y : String} (h : TransGen (u.Refers v) x y)
    (hx : u.Clear v k (.param x)) : u.Clear v (k + 1) (.param y) := by
  have hstep {x y : String} (h : u.Refers v x y) {k : Nat} (hx : u.Clear v k (.param x)) :
      u.Clear v (k + 1) (.param y) := by
    obtain ⟨t, hbound, hy⟩ := h
    obtain ⟨j, hkj, _, hclear⟩ := hu.exists_clear hx hbound
    exact (hclear.mono (Nat.succ_le_succ hkj)).of_sees fun z hz => v.param.mp hz ▸ hy
  induction h with
  | single h => exact hstep h hx
  | tail _ h ih => exact (hstep h ih).mono (Nat.le_succ _)

/-- Otherwise a parameter of the circle would come after all parameters that are bound. -/
theorem Tidy.acyclic (hu : u.Tidy v) (x : String) : ¬ TransGen (u.Refers v) x x := by
  intro h
  have hclear (k : Nat) : u.Clear v k (.param x) := by
    induction k with
    | zero => exact clear_zero
    | succ k ih => exact hu.clear_of_refers h ih
  obtain ⟨_, ⟨t, hx, _⟩, _⟩ := TransGen.head'_iff.mp h
  cases hx.symm.trans ((hclear _).lookup_of_sees (v.param.mpr rfl))

end

/-! Types without bound parameters -/

section

variable {u : Unifier} {t : Ty}

theorem substitute_eq_self (ht : t.Proper)
    (h : ∀ x, t.mentions x = true → u.bindings.lookup x = none) : t.substitute u.bindings = t := by
  unfold Ty.substitute
  split
  · rfl
  · exact Ty.replace_eq_self ht h

theorem apply_eq_self (ht : t.Proper)
    (h : ∀ x, t.mentions x = true → u.bindings.lookup x = none) : u.apply t = t := by
  have hsubstitute := substitute_eq_self ht h
  rw [apply, hsubstitute]
  cases u.bindings.length with
  | zero => rfl
  | succ n => rw [settle, hsubstitute, if_pos (beq_self_eq_true t)]

theorem Tidy.apply_apply (hu : u.Tidy .whole) (t : Ty) : u.apply (u.apply t) = u.apply t := by
  by_cases hnone : u.bindings = []
  · rw [apply_of_empty hnone, apply_of_empty hnone]
  · exact apply_eq_self (hu.kind_apply (t := t) fun h => absurd h hnone)
      fun _ => (hu.clear_apply t).lookup_of_sees

end

end Unifier

end Tern
