import Mathlib.Logic.Function.Iterate
import Tern.Proofs.Blame

/-!
Unification of types without sets of signatures. There equality is the same type again, and applying
the bindings replaces parameters and leaves all else as it is. Main statement: what has been unified
stays consistent under the bindings, whatever is bound later and whether or not calls fail in
between. Consistency with `any` is not transitive, so the argument is not about equal types: every
replacement of parameters that agrees with the bindings makes the unified types consistent.
-/

set_option autoImplicit false

namespace Tern

/-! Types without sets -/

def TypeRule.setless : TypeRule := ⟨fun _ _ => True, fun _ => False⟩

/-- No set of signatures is inside. -/
def Ty.Setless (t : Ty) : Prop := t.Obeys .setless

namespace Ty

theorem Setless.proper {t : Ty} (h : t.Setless) : t.Proper :=
  Ty.Obeys.mono (fun _ _ _ => trivial) (fun _ => False.elim) h

theorem not_setless_overloaded {ss : List Signature} : ¬ (Ty.overloaded ss).Setless :=
  fun h => (Ty.obeys_overloaded.mp h).1

theorem setless_primitive (p : Primitive) : (Ty.primitive p).Setless := Ty.obeys_primitive p

theorem setless_param (x : String) : (Ty.param x).Setless := Ty.obeys_param x

theorem setless_function {s : Signature} :
    (Ty.function s).Setless ↔ (∀ t ∈ s.params, t.Setless) ∧ s.ret.Setless :=
  Ty.obeys_function.trans Signature.obeys_iff

theorem setless_variant {head : VariantHead} {args : List Ty} :
    (Ty.variant head args).Setless ↔ ∀ t ∈ args, t.Setless :=
  Ty.obeys_variant.trans (and_iff_right trivial)

theorem setless_array {t : Ty} : (Ty.array t).Setless ↔ t.Setless := Ty.obeys_array

theorem inherited_setless : Unifier.Inherited Setless := Unifier.inherited_obeys .setless

theorem list_eq_of_beq {as bs : List Ty} (h : ∀ a ∈ as, ∀ b, (a == b) = true → a = b)
    (heq : (as == bs) = true) : as = bs := by
  induction as generalizing bs with
  | nil =>
    cases bs with
    | nil => rfl
    | cons b bs => cases heq
  | cons a as ih =>
    cases bs with
    | nil => cases heq
    | cons b bs =>
      rw [List.forall_mem_cons] at h
      rw [List.cons_beq_cons, Bool.and_eq_true] at heq
      rw [h.1 b heq.1, ih h.2 heq.2]

/-- Only sets make different types equal. -/
theorem Setless.eq_of_beq {a b : Ty} (ha : a.Setless) (h : (a == b) = true) : a = b := by
  induction a using Ty.byParts generalizing b with
  | primitive p | param x =>
    rcases Ty.cases_of_beq h with h | ⟨_, _, h, _⟩ | ⟨_, _, h, _⟩ | ⟨_, _, _, h, _⟩ | ⟨_, _, h, _⟩
    · exact h
    all_goals cases h
  | function s ihp ihr =>
    cases b with
    | function t =>
      rw [Ty.function_beq, Signature.beq_iff] at h
      have hs := setless_function.mp ha
      have hparams := list_eq_of_beq (fun u hu v => ihp u hu (hs.1 u hu)) h.1
      have hret := ihr hs.2 h.2
      cases s
      cases t
      exact congrArg Ty.function (congrArg₂ Signature.mk hparams hret)
    | _ => cases h
  | overloaded ss _ => exact absurd ha not_setless_overloaded
  | variant head as ih =>
    cases b with
    | variant head' bs =>
      obtain ⟨hhead, hargs⟩ := Ty.variant_beq_iff.mp h
      have has := setless_variant.mp ha
      exact congrArg₂ Ty.variant hhead (list_eq_of_beq (fun u hu v => ih u hu (has u hu)) hargs)
    | _ => cases h
  | array t ih =>
    cases b with
    | array u =>
      rw [Ty.array_beq] at h
      exact congrArg Ty.array (ih (setless_array.mp ha) h)
    | _ => cases h

theorem Setless.replace {bindings : Bindings}
    (hb : ∀ x t, bindings.lookup x = some t → t.Setless) {t : Ty} (ht : t.Setless) :
    (t.replace bindings).Setless := by
  induction t using Ty.byParts with
  | primitive p =>
    rw [Ty.replace]
    exact Ty.setless_primitive p
  | function s ihp ihr =>
    have hs := setless_function.mp ht
    rw [Ty.replace, Signature.replace_eq, setless_function]
    exact ⟨List.forall_mem_map.mpr fun t ht => ihp t ht (hs.1 t ht), ihr hs.2⟩
  | overloaded ss _ => exact absurd ht not_setless_overloaded
  | param x =>
    rw [Ty.replace]
    cases hx : bindings.lookup x with
    | none => exact Ty.setless_param x
    | some t => exact hb x t hx
  | variant head args ih =>
    have hargs := setless_variant.mp ht
    rw [Ty.replace, Ty.replaceAll_eq_map, setless_variant]
    exact List.forall_mem_map.mpr fun t ht => ih t ht (hargs t ht)
  | array t ih =>
    rw [Ty.replace, setless_array]
    exact ih (setless_array.mp ht)

theorem Setless.substitute_eq_replace (bindings : Bindings) {t : Ty} (ht : t.Setless) :
    t.substitute bindings = t.replace bindings := by
  unfold Ty.substitute
  split
  · rename_i hempty
    rw [List.isEmpty_iff.mp hempty]
    exact (Ty.replace_eq_self ht.proper fun _ _ => rfl).symm
  · rfl

end Ty

namespace Unifier

/-- All parameters stand for types without sets. -/
def Setless (u : Unifier) : Prop := ∀ x t, u.bindings.lookup x = some t → t.Setless

variable {u : Unifier} {t : Ty} {x : String}

theorem setless_empty : Setless {} := by simp [Setless]

/-- The round of replacements after which applying the bindings ends makes no difference. -/
theorem Setless.settle_eq_iterate (hu : u.Setless) (n : Nat) (ht : t.Setless) :
    settle u.bindings n t = (Ty.replace u.bindings)^[n] t := by
  induction n generalizing t with
  | zero => rfl
  | succ n ih =>
    rw [settle, ht.substitute_eq_replace, Function.iterate_succ_apply]
    split
    · rename_i h
      have hfixed := (ht.replace hu).eq_of_beq h
      rw [hfixed, Function.iterate_fixed hfixed]
    · exact ih (ht.replace hu)

theorem Setless.apply_eq_iterate (hu : u.Setless) (ht : t.Setless) :
    u.apply t = (Ty.replace u.bindings)^[u.bindings.length + 1] t := by
  rw [apply, ht.substitute_eq_replace, hu.settle_eq_iterate _ (ht.replace hu),
    Function.iterate_succ_apply]

theorem Setless.iterate (hu : u.Setless) (n : Nat) (ht : t.Setless) :
    ((Ty.replace u.bindings)^[n] t).Setless := by
  induction n generalizing t with
  | zero => exact ht
  | succ n ih =>
    rw [Function.iterate_succ_apply]
    exact ih (ht.replace hu)

theorem Setless.apply (hu : u.Setless) (ht : t.Setless) : (u.apply t).Setless := by
  rw [hu.apply_eq_iterate ht]
  exact hu.iterate _ ht

theorem Setless.bind (hu : u.Setless) (x : String) (ht : t.Setless) : (u.bind x t).1.Setless := by
  intro y s hy
  rcases lookup_bind hy with hy | ⟨_, rfl⟩
  · exact hu y s hy
  · exact hu.apply ht

theorem Setless.run {goal : Goal} {r : Attempt} (hu : u.Setless) (h : Run u goal r)
    (hg : goal.All Ty.Setless) : r.1.Setless :=
  h.keeps Ty.inherited_setless (fun _ x t hu => hu x t) (fun _ x _ hu _ ht _ _ => hu.bind x ht) hu hg

end Unifier

/-! Replacements of parameters -/

/-- Of types without sets the map replaces parameters, and leaves all else as it is. -/
structure Ty.Replaces (f : Ty → Ty) : Prop where
  primitive : ∀ p, f (.primitive p) = .primitive p
  function : ∀ s : Signature, (Ty.function s).Setless →
    f (.function s) = .function (.mk (s.params.map f) (f s.ret))
  variant : ∀ head args, (Ty.variant head args).Setless →
    f (.variant head args) = .variant head (args.map f)
  array : ∀ t, (Ty.array t).Setless → f (.array t) = .array (f t)

theorem Ty.replaces_replace (bindings : Bindings) : Ty.Replaces (Ty.replace bindings) where
  primitive _ := by rw [Ty.replace]
  function s _ := by rw [Ty.replace, Signature.replace_eq]
  variant head args _ := by rw [Ty.replace, Ty.replaceAll_eq_map]
  array t _ := by rw [Ty.replace]

namespace Unifier

variable {u : Unifier} {t : Ty} {x : String}

theorem Setless.replaces_iterate (hu : u.Setless) (n : Nat) :
    Ty.Replaces ((Ty.replace u.bindings)^[n]) := by
  induction n with
  | zero =>
    refine ⟨fun _ => rfl, fun s _ => ?_, fun _ args _ => ?_, fun _ _ => rfl⟩
    · cases s
      simp [Signature.params, Signature.ret]
    · simp
  | succ n ih =>
    have hr := Ty.replaces_replace u.bindings
    simp only [Function.iterate_succ]
    refine ⟨fun p => ?_, fun s hs => ?_, fun head args hargs => ?_, fun t ht => ?_⟩
    · rw [Function.comp_apply, hr.primitive, ih.primitive]
    · have hs' := hs.replace hu
      rw [hr.function s hs] at hs'
      rw [Function.comp_apply, hr.function s hs, ih.function _ hs', Signature.params, Signature.ret,
        List.map_map]
      rfl
    · have hargs' := hargs.replace hu
      rw [hr.variant head args hargs] at hargs'
      rw [Function.comp_apply, hr.variant head args hargs, ih.variant _ _ hargs', List.map_map]
    · have ht' := ht.replace hu
      rw [hr.array t ht] at ht'
      rw [Function.comp_apply, hr.array t ht, ih.array _ ht']
      rfl

/-- The replacement agrees with the bindings. -/
def Solves (f : Ty → Ty) (u : Unifier) : Prop :=
  ∀ x t, u.bindings.lookup x = some t → f (.param x) = f t

theorem Solves.of_extends {f : Ty → Ty} {v : Unifier} (h : Solves f v)
    (hext : u.bindings <+: v.bindings) : Solves f u :=
  fun x t hx => h x t (lookup_of_extends hext hx)

section

variable {f : Ty → Ty}

theorem Solves.replace (hf : Ty.Replaces f) (hs : Solves f u) (hu : u.Setless) (ht : t.Setless) :
    f (t.replace u.bindings) = f t := by
  have hr := Ty.replaces_replace u.bindings
  induction t using Ty.byParts with
  | primitive p => rw [hr.primitive]
  | function s ihp ihr =>
    have hparts := Ty.setless_function.mp ht
    have ht' := ht.replace hu
    rw [hr.function s ht] at ht'
    rw [hr.function s ht, hf.function _ ht', hf.function s ht, Signature.params, Signature.ret,
      List.map_map, ihr hparts.2]
    congr 2
    exact List.map_congr_left fun a ha => ihp a ha (hparts.1 a ha)
  | overloaded ss _ => exact absurd ht Ty.not_setless_overloaded
  | param x =>
    rw [Ty.replace]
    cases hx : u.bindings.lookup x with
    | none => rfl
    | some t => exact (hs x t hx).symm
  | variant head args ih =>
    have hargs := Ty.setless_variant.mp ht
    have ht' := ht.replace hu
    rw [hr.variant head args ht] at ht'
    rw [hr.variant head args ht, hf.variant _ _ ht', hf.variant head args ht, List.map_map]
    congr 1
    exact List.map_congr_left fun a ha => ih a ha (hargs a ha)
  | array t ih =>
    have ht' := ht.replace hu
    rw [hr.array t ht] at ht'
    rw [hr.array t ht, hf.array _ ht', hf.array t ht, ih (Ty.setless_array.mp ht)]

/-- A replacement that agrees with the bindings sees no difference when they are applied. -/
theorem Solves.apply (hf : Ty.Replaces f) (hs : Solves f u) (hu : u.Setless) (ht : t.Setless) :
    f (u.apply t) = f t := by
  have hiterate (n : Nat) {t : Ty} (ht : t.Setless) :
      f ((Ty.replace u.bindings)^[n] t) = f t := by
    induction n generalizing t with
    | zero => rfl
    | succ n ih => rw [Function.iterate_succ_apply, ih (ht.replace hu), hs.replace hf hu ht]
  rw [hu.apply_eq_iterate ht, hiterate _ ht]

theorem Solves.bind (hf : Ty.Replaces f) (hs : Solves f u) (hu : u.Setless) (ht : t.Setless)
    (h : f (.param x) = f t) : Solves f (u.bind x t).1 := by
  intro y s hy
  rcases lookup_bind hy with hy | ⟨rfl, rfl⟩
  · exact hs y s hy
  · rw [hs.apply hf hu ht, h]

/-- A parameter that was bound to a type stands for the same as that type. -/
theorem Solves.eq_of_bind (hf : Ty.Replaces f) (hu : u.Setless) (ht : t.Setless)
    (hx : u.bindings.lookup x = none) (hr : (u.bind x t).2 = none) (hs : Solves f (u.bind x t).1) :
    f (.param x) = f t := by
  rcases u.bind_cases x t with ⟨_, h⟩ | ⟨_, h⟩
  · rw [h] at hr
    cases hr
  · rw [h, fits] at hs
    have hold : Solves f u := hs.of_extends (List.prefix_append _ _)
    rw [← hold.apply hf hu ht]
    refine hs x (u.apply t) ?_
    rw [List.lookup_append, hx, Option.none_or, List.lookup_cons_self]

end

/-- Applying the bindings is a replacement that agrees with them. -/
theorem Setless.replaces_apply (hu : u.Setless) : Ty.Replaces u.apply := by
  have h := hu.replaces_iterate (u.bindings.length + 1)
  have hall {t : Ty} (ht : t.Setless) := hu.apply_eq_iterate ht
  refine ⟨fun p => ?_, fun s hs => ?_, fun head args hargs => ?_, fun t ht => ?_⟩
  · rw [hall (Ty.setless_primitive p), h.primitive]
  · have hparts := Ty.setless_function.mp hs
    rw [hall hs, h.function s hs, hall hparts.2]
    congr 2
    exact List.map_congr_left fun t ht => (hall (hparts.1 t ht)).symm
  · have hparts := Ty.setless_variant.mp hargs
    rw [hall hargs, h.variant head args hargs]
    congr 1
    exact List.map_congr_left fun t ht => (hall (hparts t ht)).symm
  · rw [hall ht, h.array t ht, hall (Ty.setless_array.mp ht)]

theorem Tidy.clear_iterate {v : View} (hu : u.Tidy v) (n : Nat) :
    u.Clear v n ((Ty.replace u.bindings)^[n] t) := by
  induction n with
  | zero => exact clear_zero
  | succ n ih =>
    rw [Function.iterate_succ_apply']
    exact hu.clear_replace ih

theorem Tidy.solves_apply (hu : u.Tidy .whole) (hs : u.Setless) : Solves u.apply u := by
  intro x t hx
  have ht := hs x t hx
  have hreplace : (Ty.param x).replace u.bindings = t := by rw [Ty.replace, hx, Option.getD_some]
  rw [hs.apply_eq_iterate (Ty.setless_param x), hs.apply_eq_iterate ht, Function.iterate_succ_apply,
    hreplace, Function.iterate_succ_apply']
  refine (Ty.replace_eq_self (hs.iterate _ ht).proper fun y hy => ?_).symm
  exact (hu.clear_iterate (t := t) u.bindings.length).lookup_of_sees hy

end Unifier

/-! Consistency -/

/-- The types are the same up to `any`, which is consistent with all, and up to cases that are
selected on one side only. -/
inductive Ty.Consistent : Ty → Ty → Prop
  | anyLeft (t : Ty) : Consistent .any t
  | anyRight (t : Ty) : Consistent t .any
  | primitive (p : Primitive) : Consistent (.primitive p) (.primitive p)
  | param (x : String) : Consistent (.param x) (.param x)
  | function {s t : Signature} (length : s.params.length = t.params.length)
    (params : ∀ p ∈ s.params.zip t.params, Consistent p.1 p.2) (ret : Consistent s.ret t.ret) :
    Consistent (.function s) (.function t)
  | array {a b : Ty} (element : Consistent a b) : Consistent (.array a) (.array b)
  | variant {h k : VariantHead} {as bs : List Ty} (definition : h.SameDefinition k)
    (case : h.case = none ∨ k.case = none ∨ h.case = k.case) (length : as.length = bs.length)
    (args : ∀ p ∈ as.zip bs, Consistent p.1 p.2) : Consistent (.variant h as) (.variant k bs)

theorem Ty.forall_zip_self {R : Ty → Ty → Prop} {ts : List Ty} (h : ∀ t ∈ ts, R t t) :
    ∀ p ∈ ts.zip ts, R p.1 p.2 := by
  induction ts with
  | nil => simp
  | cons t ts ih =>
    rw [List.forall_mem_cons] at h
    rw [List.zip_cons_cons, List.forall_mem_cons]
    exact ⟨h.1, ih h.2⟩

theorem Ty.forall_zip_map {R : Ty → Ty → Prop} {f : Ty → Ty} {as bs : List Ty} :
    (∀ p ∈ (as.map f).zip (bs.map f), R p.1 p.2) ↔ ∀ p ∈ as.zip bs, R (f p.1) (f p.2) := by
  rw [List.zip_map, List.forall_mem_map]
  rfl

theorem Ty.Setless.consistent_self {t : Ty} (h : t.Setless) : t.Consistent t := by
  induction t using Ty.byParts with
  | primitive p => exact .primitive p
  | function s ihp ihr =>
    have hs := Ty.setless_function.mp h
    exact .function rfl (Ty.forall_zip_self (R := Ty.Consistent) fun t ht => ihp t ht (hs.1 t ht))
      (ihr hs.2)
  | overloaded ss _ => exact absurd h Ty.not_setless_overloaded
  | param x => exact .param x
  | variant head args ih =>
    have hargs := Ty.setless_variant.mp h
    exact .variant ⟨rfl, rfl⟩ (Or.inr (Or.inr rfl)) rfl
      (Ty.forall_zip_self (R := Ty.Consistent) fun t ht => ih t ht (hargs t ht))
  | array t ih => exact .array (ih (Ty.setless_array.mp h))

namespace Unifier

/-- The map brings the sides of the goal into this relation, which there is none for with the members
of a set. -/
def Goal.Relates (R : Ty → Ty → Prop) (f : Ty → Ty) : Goal → Prop
  | types a b => R (f a) (f b)
  | lists as bs => ∀ p ∈ as.zip bs, R (f p.1) (f p.2)
  | signatures s t => R (f (.function s)) (f (.function t))
  | members _ _ _ => False

/-- A call that succeeds makes its sides consistent, under every replacement that agrees with the
bindings it leaves; and all later bindings do. -/
theorem Run.consistent {f : Ty → Ty} (hf : Ty.Replaces f)
    (hset : ∀ t : Ty, t.Setless → (f t).Setless) {u : Unifier} {goal : Goal} {r : Attempt} (h : Run u goal r) (hu : u.Setless)
    (hg : goal.All Ty.Setless) (hr : r.2 = none) (hs : Solves f r.1) :
    goal.Relates Ty.Consistent f := by
  induction h with
  | @atOnce u e t h =>
    rcases atOnce_iff.mp h with h | h | h
    · rw [hg.1.eq_of_beq h]
      exact (hset t hg.2).consistent_self
    · rw [Ty.isAny_iff.mp h, Goal.Relates, hf.primitive]
      exact .anyLeft _
    · rw [Ty.isAny_iff.mp h, Goal.Relates, hf.primitive]
      exact .anyRight _
  | @followLeft u x t _ _ _ hx next ih =>
    have hbound := ih hu ⟨hu _ _ hx, hg.2⟩ hr hs
    rw [Goal.Relates, hs.of_extends next.extends x t hx]
    exact hbound
  | bindLeft _ hx =>
    rw [Goal.Relates, hs.eq_of_bind hf hu hg.2 hx hr]
    exact (hset _ hg.2).consistent_self
  | @followRight u x t _ _ _ hne hx next ih =>
    have hbound := ih hu ⟨hg.1, hu _ _ hx⟩ hr hs
    rw [Goal.Relates, hs.of_extends next.extends x t hx]
    exact hbound
  | bindRight _ _ hx =>
    rw [Goal.Relates, hs.eq_of_bind hf hu hg.1 hx hr]
    exact (hset _ hg.1).consistent_self
  | parts _ hparts next ih =>
    have hnext := ih hu (Ty.inherited_setless.all_of_parts? hparts hg.1 hg.2) hr hs
    rcases parts?_cases hparts with ⟨s, t, rfl, rfl, rfl⟩ | ⟨s, ts, rfl, rfl, rfl⟩ |
      ⟨a, b, rfl, rfl, rfl⟩ | ⟨h, as, k, bs, rfl, rfl, hfit, hlength, rfl⟩
    · exact hnext
    · exact hnext.elim
    · rw [Goal.Relates, hf.array a hg.1, hf.array b hg.2]
      exact .array hnext
    · rw [Goal.Relates, hf.variant h as hg.1, hf.variant k bs hg.2]
      exact .variant hfit.1 hfit.2 (by simpa using hlength) (Ty.forall_zip_map.mpr hnext)
  | mismatch => cases hr
  | done h =>
    rcases h with rfl | rfl
    · simp [Goal.Relates]
    · simp [Goal.Relates]
  | onward first next ihf ihn =>
    simp only [Goal.All, List.forall_mem_cons] at hg
    rw [Goal.Relates, List.zip_cons_cons, List.forall_mem_cons]
    have hfirst : Goal.All Ty.Setless (.types _ _) := ⟨hg.1.1, hg.2.1⟩
    exact ⟨ihf hu hfirst rfl (hs.of_extends next.extends),
      ihn (hu.run first hfirst) ⟨hg.1.2, hg.2.2⟩ hr hs⟩
  | stop => cases hr
  | arity => cases hr
  | params => cases hr
  | @result u u' s t r hlength first next ihf ihn =>
    have hsp := Ty.setless_function.mp hg.1
    have htp := Ty.setless_function.mp hg.2
    have hparams : Goal.All Ty.Setless (.lists s.params t.params) := ⟨hsp.1, htp.1⟩
    have hfirst := ihf hu hparams rfl (hs.of_extends next.extends)
    have hnext := ihn (hu.run first hparams) ⟨hsp.2, htp.2⟩ hr hs
    rw [Goal.Relates, hf.function s hg.1, hf.function t hg.2]
    exact .function (by simpa [Signature.params] using hlength) (Ty.forall_zip_map.mpr hfirst) hnext
  | exhausted => cases hr
  | member => exact absurd hg.2.1 Ty.not_setless_overloaded
  | skip => exact absurd hg.2.1 Ty.not_setless_overloaded

/-! Calls one after the other -/

/-- The types of the calls have no sets. -/
def SetlessCalls (calls : List (Ty × Ty)) : Prop := ∀ call ∈ calls, call.1.Setless ∧ call.2.Setless

theorem setless_after {calls : List (Ty × Ty)} (h : SetlessCalls calls) :
    (after calls).Setless := by
  induction calls using List.reverseRecOn with
  | nil => exact setless_empty
  | append_singleton calls call ih =>
    have hcalls : SetlessCalls calls := fun c hc => h c (List.mem_append_left _ hc)
    have hcall := h call List.mem_concat_self
    rw [after_concat]
    exact (ih hcalls).run (run_after calls call.1 call.2) hcall

theorem SetlessCalls.tidy {calls : List (Ty × Ty)} (h : SetlessCalls calls) :
    (after calls).Tidy .whole :=
  whole_after (starts_of_lookup fun x t hx => (setless_after h x t hx).proper)

/-- Once a call succeeds, its sides are consistent under the bindings after any further calls,
failing or not. -/
theorem unified_stay_consistent {first last : List (Ty × Ty)} {expected found : Ty}
    (h : SetlessCalls (first ++ (expected, found) :: last))
    (hr : ((after first).unify expected found).2 = none) :
    ((after (first ++ (expected, found) :: last)).apply expected).Consistent
      ((after (first ++ (expected, found) :: last)).apply found) := by
  rw [List.append_cons] at h ⊢
  have hfirst : SetlessCalls first := fun c hc =>
    h c (List.mem_append_left _ (List.mem_append_left _ hc))
  have hcall := h (expected, found) (List.mem_append_left _ List.mem_concat_self)
  have hset := setless_after h
  have hsolves : Solves (after (first ++ [(expected, found)] ++ last)).apply
      ((after first).unify expected found).1 := by
    rw [← after_concat first (expected, found)]
    exact (h.tidy.solves_apply hset).of_extends (prefix_after _ last)
  exact (run_after first expected found).consistent hset.replaces_apply (fun _ => hset.apply)
    (setless_after hfirst) hcall hr hsolves

/-- A case against its whole type, with `any` for a parameter that is bound later; then a call that
fails, and one that binds a parameter the two sides share. -/
theorem unified_stay_consistent_narrowed :
    let option (case : Option String) (t : Ty) : Ty :=
      .variant ⟨⟨"std", "option"⟩, "Option", ["A"], case⟩ [t]
    let first : List (Ty × Ty) := [(.array (.param "T"), .array .any)]
    let expected : Ty := .function (.mk [.param "T", .param "U"] (option none (.param "U")))
    let found : Ty :=
      .function (.mk [.param "V", .any] (option (some "Some") (.array (.param "V"))))
    let last : List (Ty × Ty) := [(.param "U", .int), (.array (.param "V"), .param "U"),
      (.param "V", .string)]
    let u := after (first ++ (expected, found) :: last)
    SetlessCalls (first ++ (expected, found) :: last) ∧
      ((after first).unify expected found).2 = none ∧
      (((after (first ++ [(expected, found)])).unify (.param "U") .int).2 ≠ none) ∧
      u.apply expected =
        .function (.mk [.string, .array .string] (option none (.array .string))) ∧
      u.apply found = .function (.mk [.string, .any] (option (some "Some") (.array .string))) ∧
      (u.apply expected).Consistent (u.apply found) := by
  intro option first expected found last u
  have hset : SetlessCalls (first ++ (expected, found) :: last) := by
    simp [first, expected, found, last, option, SetlessCalls, Ty.setless_function,
      Ty.setless_variant, Ty.setless_array, Ty.setless_primitive, Ty.setless_param, Signature.params,
      Signature.ret]
  have hcall : expected.Setless ∧ found.Setless := hset (expected, found) (by simp [first])
  have hafter := setless_after hset
  have hr : ((after first).unify expected found).2 = none :=
    Option.isNone_iff_eq_none.mp (by decide +kernel)
  exact ⟨hset, hr, Option.isSome_iff_ne_none.mp (by decide +kernel),
    (hafter.apply hcall.1).eq_of_beq (by decide +kernel),
    (hafter.apply hcall.2).eq_of_beq (by decide +kernel), unified_stay_consistent hset hr⟩

end Unifier

end Tern
