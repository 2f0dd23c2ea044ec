import Tern.Proofs.Unifier.Consistent

/-!
Unification of types without sets that some substitution makes equal. Every replacement of
parameters that makes the two sides the same agrees with the bindings on the way, so a call has
nothing to fail for but the occurs check; and that finds a parameter only where the parameter is all
there is. Whether a type is the parameter itself is asked before the bindings are applied to it, so
this happens: main statement is that it is the only way to fail, and that it takes a second
parameter which stands for the first one already.
-/

set_option autoImplicit false

namespace Tern

namespace Ty

theorem replaces_bare (θ : Bindings) : Replaces fun t => (t.replace θ).bare where
  primitive p := by rw [replace, bare]
  function s _ := by
    rw [replace, Signature.replace_eq, bare, Signature.bare, bareAll_eq_map, List.map_map]
    rfl
  variant head args _ := by
    rw [replace, replaceAll_eq_map, bare, bareAll_eq_map, List.map_map]
    rfl
  array t _ := by rw [replace, bare]

/-! Size -/

section

variable {f : Ty → Ty} (hf : Replaces f) {x : String}
include hf

/-- What stands for a parameter is no larger than what stands for a type that mentions it, and
smaller unless the type is the parameter. -/
theorem Replaces.sizeOf_le {t : Ty} (ht : t.Setless) (hx : t.mentions x = true) :
    t = .param x ∨ sizeOf (f (.param x)) < sizeOf (f t) := by
  have hle {t : Ty} (h : t = .param x ∨ sizeOf (f (.param x)) < sizeOf (f t)) :
      sizeOf (f (.param x)) ≤ sizeOf (f t) := by
    rcases h with rfl | h
    · exact Nat.le_refl _
    · exact Nat.le_of_lt h
  have hmember {t : Ty} {ts : List Ty} (hmem : t ∈ ts) : sizeOf (f t) < sizeOf (ts.map f) :=
    List.sizeOf_lt_of_mem (List.mem_map_of_mem hmem)
  induction t using Ty.byParts with
  | primitive p => simp at hx
  | function s ihp ihr =>
    right
    have hparts := setless_function.mp ht
    rw [hf.function s ht, function.sizeOf_spec, Signature.mk.sizeOf_spec]
    rw [mentions_function, Signature.mentions_iff] at hx
    rcases hx with ⟨t, hmem, hx⟩ | hx
    · have hpart := hle (ihp t hmem (hparts.1 t hmem) hx)
      have hlt := hmember hmem
      omega
    · have hpart := hle (ihr hparts.2 hx)
      omega
  | overloaded ss _ => exact absurd ht not_setless_overloaded
  | param y => exact Or.inl (congrArg param (mentions_param.mp hx))
  | variant head args ih =>
    right
    obtain ⟨t, hmem, hx⟩ := mentions_variant.mp hx
    have hpart := hle (ih t hmem (setless_variant.mp ht t hmem) hx)
    have hlt := hmember hmem
    rw [hf.variant head args ht, variant.sizeOf_spec]
    omega
  | array t ih =>
    right
    have hpart := hle (ih (setless_array.mp ht) (mentions_array ▸ hx))
    rw [hf.array t ht, array.sizeOf_spec]
    omega

/-- Nothing is made equal to a part of itself. -/
theorem Replaces.eq_param {t : Ty} (ht : t.Setless) (hx : t.mentions x = true)
    (h : f (.param x) = f t) : t = .param x := by
  refine (hf.sizeOf_le ht hx).resolve_right ?_
  rw [h]
  exact Nat.lt_irrefl _

/-- Only a parameter can become a parameter. -/
theorem Replaces.exists_param {t : Ty} (ht : t.Setless) (h : f t = .param x) :
    ∃ y, t = .param y := by
  cases t with
  | primitive p =>
    rw [hf.primitive] at h
    cases h
  | function s =>
    rw [hf.function s ht] at h
    cases h
  | overloaded ss => exact absurd ht not_setless_overloaded
  | param y => exact ⟨y, rfl⟩
  | variant head args =>
    rw [hf.variant head args ht] at h
    cases h
  | array t =>
    rw [hf.array t ht] at h
    cases h

end

end Ty

namespace Unifier

/-! One call -/

section

variable {f : Ty → Ty}

theorem relates_lists {as bs : List Ty} (h : as.map f = bs.map f) :
    Goal.Relates Eq f (.lists as bs) := by
  refine Ty.forall_zip_map.mp ?_
  rw [h]
  exact Ty.forall_zip_self fun _ _ => rfl

variable (hf : Ty.Replaces f)
include hf

theorem relates_signatures {s t : Signature} (hs : (Ty.function s).Setless)
    (ht : (Ty.function t).Setless) (h : Goal.Relates Eq f (.signatures s t)) :
    s.params.map f = t.params.map f ∧ f s.ret = f t.ret := by
  rw [Goal.Relates, hf.function s hs, hf.function t ht] at h
  exact Signature.mk.inj (Ty.function.inj h)

/-- Types that are made equal are built alike. -/
theorem parts?_of_eq {a b : Ty} (ha : a.Setless) (hb : b.Setless) (h : f a = f b)
    (hl : ∀ x, a ≠ .param x) (hr : ∀ x, b ≠ .param x) (hne : ¬ AtOnce a b) :
    ∃ goal, parts? a b = some goal := by
  cases a with
  | param x => exact absurd rfl (hl x)
  | overloaded ss => exact absurd ha Ty.not_setless_overloaded
  | primitive p =>
    cases b with
    | param x => exact absurd rfl (hr x)
    | overloaded ss => exact absurd hb Ty.not_setless_overloaded
    | primitive q =>
      rw [hf.primitive, hf.primitive] at h
      exact absurd (atOnce_iff.mpr (Or.inl (h ▸ beq_self_eq_true _))) hne
    | function t => rw [hf.primitive, hf.function t hb] at h; cases h
    | variant k bs => rw [hf.primitive, hf.variant k bs hb] at h; cases h
    | array b => rw [hf.primitive, hf.array b hb] at h; cases h
  | function s =>
    rw [hf.function s ha] at h
    cases b with
    | param x => exact absurd rfl (hr x)
    | overloaded ss => exact absurd hb Ty.not_setless_overloaded
    | primitive q => rw [hf.primitive] at h; cases h
    | function t => exact ⟨_, rfl⟩
    | variant k bs => rw [hf.variant k bs hb] at h; cases h
    | array b => rw [hf.array b hb] at h; cases h
  | variant head as =>
    rw [hf.variant head as ha] at h
    cases b with
    | param x => exact absurd rfl (hr x)
    | overloaded ss => exact absurd hb Ty.not_setless_overloaded
    | primitive q => rw [hf.primitive] at h; cases h
    | function t => rw [hf.function t hb] at h; cases h
    | variant k bs =>
      rw [hf.variant k bs hb] at h
      obtain ⟨rfl, hargs⟩ := Ty.variant.inj h
      have hlength : as.length = bs.length := by simpa using congrArg List.length hargs
      exact ⟨.lists as bs, if_pos ⟨⟨⟨rfl, rfl⟩, Or.inr (Or.inr rfl)⟩, hlength⟩⟩
    | array b => rw [hf.array b hb] at h; cases h
  | array a =>
    rw [hf.array a ha] at h
    cases b with
    | param x => exact absurd rfl (hr x)
    | overloaded ss => exact absurd hb Ty.not_setless_overloaded
    | primitive q => rw [hf.primitive] at h; cases h
    | function t => rw [hf.function t hb] at h; cases h
    | variant k bs => rw [hf.variant k bs hb] at h; cases h
    | array b => exact ⟨_, rfl⟩

end

/-- The occurs check refuses a parameter for itself, because another one stands for it. -/
def RefusesItself (names : List String) (r : Attempt) : Prop :=
  ∃ x y, x ≠ y ∧ x ∈ names ∧ y ∈ names ∧ r.1.apply (.param y) = .param x ∧
    r.2 = some (.occurs x (.param x))

/-- Types without sets and with no parameters but these. -/
def Plain (names : List String) (t : Ty) : Prop := Known names t ∧ t.Setless

theorem inherited_plain (names : List String) : Inherited (Plain names) where
  function h :=
    have hknown := (inherited_known names).function h.1
    have hset := Ty.inherited_setless.function h.2
    ⟨fun t ht => ⟨hknown.1 t ht, hset.1 t ht⟩, hknown.2, hset.2⟩
  overloaded h := absurd h.2 Ty.not_setless_overloaded
  variant h t ht :=
    ⟨(inherited_known names).variant h.1 t ht, Ty.inherited_setless.variant h.2 t ht⟩
  array h := ⟨(inherited_known names).array h.1, Ty.inherited_setless.array h.2⟩

/-- The bindings are tidy, for types without sets and for these parameters. -/
structure PlainIn (names : List String) (u : Unifier) : Prop where
  tidyIn : u.TidyIn names
  setless : u.Setless

section

variable {names : List String} {u : Unifier}

theorem PlainIn.plain_of_lookup {x : String} {t : Ty} (hu : u.PlainIn names)
    (h : u.bindings.lookup x = some t) : Plain names t :=
  ⟨hu.tidyIn.known_of_lookup h, hu.setless x t h⟩

theorem PlainIn.run {goal : Goal} {r : Attempt} (hu : u.PlainIn names) (h : Run u goal r)
    (hg : goal.All (Plain names)) : r.1.PlainIn names :=
  h.keeps (inherited_plain names) (fun _ _ _ hu => hu.plain_of_lookup)
    (fun _ x _ hu hx ht _ hnone => ⟨hu.tidyIn.bind hx.1 ht.1 hnone, hu.setless.bind x ht.2⟩) hu hg

/-- What is left of the parameter is all of the type, and the type was not the parameter. -/
theorem PlainIn.refusesItself_of_bind {f : Ty → Ty} (hf : Ty.Replaces f) (hu : u.PlainIn names)
    (hs : Solves f u) {x : String} {t : Ty} (hx : Plain names (.param x)) (ht : Plain names t)
    (h : f (.param x) = f t) (hne : t ≠ .param x) :
    Solves f (u.bind x t).1 ∧ ((u.bind x t).2 = none ∨ RefusesItself names (u.bind x t)) := by
  refine ⟨hs.bind hf hu.setless ht.2 h, ?_⟩
  rcases u.bind_cases x t with ⟨hmentions, heq⟩ | ⟨_, heq⟩
  · right
    have hset := hu.setless.apply ht.2
    have happly : u.apply t = .param x := by
      refine hf.eq_param hset hmentions ?_
      rw [hs.apply hf hu.setless ht.2, h]
    obtain ⟨y, rfl⟩ := hu.setless.replaces_apply.exists_param ht.2 happly
    refine ⟨x, y, fun hxy => hne (congrArg Ty.param hxy.symm), hx.1 x ?_, ht.1 y ?_, ?_, ?_⟩
    · exact Ty.mentions_param.mpr rfl
    · exact Ty.mentions_param.mpr rfl
    · rw [heq]
      exact happly
    · rw [heq, happly]
      rfl
  · left
    rw [heq]
    rfl

/-- A replacement that makes the sides the same still agrees with the bindings after the call. -/
theorem Run.solved {f : Ty → Ty} (hf : Ty.Replaces f) {goal : Goal} {r : Attempt}
    (h : Run u goal r) (hu : u.PlainIn names) (hg : goal.All (Plain names)) (hs : Solves f u)
    (heq : goal.Relates Eq f) : Solves f r.1 ∧ (r.2 = none ∨ RefusesItself names r) := by
  induction h with
  | atOnce | done => exact ⟨hs, Or.inl rfl⟩
  | followLeft _ hx _ ih =>
    exact ih hu ⟨hu.plain_of_lookup hx, hg.2⟩ hs ((hs _ _ hx).symm.trans heq)
  | bindLeft h hx =>
    refine hu.refusesItself_of_bind hf hs hg.1 hg.2 heq fun ht => h ?_
    exact atOnce_iff.mpr (Or.inl (ht ▸ beq_self_eq_true _))
  | followRight _ _ hx _ ih =>
    exact ih hu ⟨hg.1, hu.plain_of_lookup hx⟩ hs (heq.trans (hs _ _ hx))
  | bindRight h hne hx => exact hu.refusesItself_of_bind hf hs hg.2 hg.1 heq.symm (hne _)
  | parts _ hparts _ ih =>
    refine ih hu ((inherited_plain names).all_of_parts? hparts hg.1 hg.2) hs ?_
    rcases parts?_cases hparts with ⟨s, t, rfl, rfl, rfl⟩ | ⟨s, ts, rfl, rfl, rfl⟩ |
      ⟨a, b, rfl, rfl, rfl⟩ | ⟨h, as, k, bs, rfl, rfl, _, _, rfl⟩
    · exact heq
    · exact absurd hg.2.2 Ty.not_setless_overloaded
    · rw [Goal.Relates, hf.array a hg.1.2, hf.array b hg.2.2] at heq
      exact Ty.array.inj heq
    · rw [Goal.Relates, hf.variant h as hg.1.2, hf.variant k bs hg.2.2] at heq
      exact relates_lists (Ty.variant.inj heq).2
  | mismatch h hl hr hparts =>
    obtain ⟨goal, hgoal⟩ := parts?_of_eq hf hg.1.2 hg.2.2 heq hl hr h
    cases hparts.symm.trans hgoal
  | onward first _ ihf ihn =>
    simp only [Goal.All, List.forall_mem_cons] at hg
    rw [Goal.Relates, List.zip_cons_cons, List.forall_mem_cons] at heq
    have hfirst : Goal.All (Plain names) (.types _ _) := ⟨hg.1.1, hg.2.1⟩
    exact ihn (hu.run first hfirst) ⟨hg.1.2, hg.2.2⟩ (ihf hu hfirst hs heq.1).1 heq.2
  | stop _ ihf =>
    simp only [Goal.All, List.forall_mem_cons] at hg
    rw [Goal.Relates, List.zip_cons_cons, List.forall_mem_cons] at heq
    exact ihf hu ⟨hg.1.1, hg.2.1⟩ hs heq.1
  | arity hlength =>
    have hparams := congrArg List.length (relates_signatures hf hg.1.2 hg.2.2 heq).1
    exact absurd (by simpa using hparams) hlength
  | params _ _ ihf =>
    have hs' := (inherited_plain names).function hg.1
    have ht' := (inherited_plain names).function hg.2
    exact ihf hu ⟨hs'.1, ht'.1⟩ hs (relates_lists (relates_signatures hf hg.1.2 hg.2.2 heq).1)
  | @result _ _ s t _ _ first _ ihf ihn =>
    have hs' := (inherited_plain names).function hg.1
    have ht' := (inherited_plain names).function hg.2
    have hparts := relates_signatures hf hg.1.2 hg.2.2 heq
    have hparams : Goal.All (Plain names) (.lists s.params t.params) := ⟨hs'.1, ht'.1⟩
    have hfirst := ihf hu hparams hs (relates_lists hparts.1)
    exact ihn (hu.run first hparams) ⟨hs'.2, ht'.2⟩ hfirst.1 hparts.2
  -- types without sets never lead to the members of one
  | exhausted | member | skip => exact heq.elim

end

/-! Calls one after the other -/

theorem solved_after {f : Ty → Ty} (hf : Ty.Replaces f) {names : List String}
    {calls : List (Ty × Ty)} (hplain : ∀ call ∈ calls, Plain names call.1 ∧ Plain names call.2)
    (heq : ∀ call ∈ calls, f call.1 = f call.2) :
    (after calls).PlainIn names ∧ Solves f (after calls) := by
  induction calls using List.reverseRecOn with
  | nil => exact ⟨⟨⟨tidy_empty _, by simp [after]⟩, setless_empty⟩, by simp [Solves, after]⟩
  | append_singleton calls call ih =>
    have hcall := hplain call List.mem_concat_self
    obtain ⟨hu, hs⟩ := ih (fun c hc => hplain c (List.mem_append_left _ hc))
      fun c hc => heq c (List.mem_append_left _ hc)
    have hrun := run_after calls call.1 call.2
    rw [after_concat]
    exact ⟨hu.run hrun hcall, (hrun.solved hf hu hcall hs (heq call List.mem_concat_self)).1⟩

/-- The parameters that the types of the calls mention. -/
def callNames (calls : List (Ty × Ty)) : List String :=
  calls.flatMap fun call => call.1.names ++ call.2.names

theorem SetlessCalls.plain {calls : List (Ty × Ty)} (h : SetlessCalls calls) {call : Ty × Ty}
    (hcall : call ∈ calls) :
    Plain (callNames calls) call.1 ∧ Plain (callNames calls) call.2 := by
  have hset := h call hcall
  refine ⟨⟨fun x hx => ?_, hset.1⟩, fun x hx => ?_, hset.2⟩
  · exact List.mem_flatMap.mpr ⟨call, hcall, List.mem_append_left _ (call.1.mem_names.mpr hx)⟩
  · exact List.mem_flatMap.mpr ⟨call, hcall, List.mem_append_right _ (call.2.mem_names.mpr hx)⟩

/-- If some substitution makes the sides of all calls equal, then a call succeeds, or else the
occurs check refuses a parameter for itself: another parameter of the calls stands for it then, and
the substitution does not keep the two apart. -/
theorem solvable_unified {calls : List (Ty × Ty)} (h : SetlessCalls calls) {θ : Bindings}
    (hθ : ∀ call ∈ calls, (call.1.substitute θ == call.2.substitute θ) = true)
    {first last : List (Ty × Ty)} {expected found : Ty}
    (hcalls : calls = first ++ (expected, found) :: last) :
    ((after first).unify expected found).2 = none ∨
      ∃ x ∈ callNames calls, ∃ y ∈ callNames calls, x ≠ y ∧
        ((after first).unify expected found).1.apply (.param y) = .param x ∧
        ((Ty.param x).substitute θ).bare = ((Ty.param y).substitute θ).bare ∧
        ((after first).unify expected found).2 = some (.occurs x (.param x)) := by
  have hf := Ty.replaces_bare θ
  have heq : ∀ call ∈ calls, (call.1.replace θ).bare = (call.2.replace θ).bare := by
    intro call hcall
    have hset := h call hcall
    rw [← hset.1.substitute_eq_replace, ← hset.2.substitute_eq_replace]
    exact Ty.bare_eq_of_beq (hθ call hcall)
  have hcall : (expected, found) ∈ calls := by simp [hcalls]
  have hfirst : ∀ call ∈ first, call ∈ calls := fun c hc => hcalls ▸ List.mem_append_left _ hc
  obtain ⟨hu, hs⟩ :=
    solved_after hf (fun c hc => h.plain (hfirst c hc)) fun c hc => heq c (hfirst c hc)
  have hplain := h.plain hcall
  have hrun := run_after first expected found
  obtain ⟨hs', hr⟩ := hrun.solved hf hu hplain hs (heq _ hcall)
  refine hr.imp_right ?_
  rintro ⟨x, y, hne, hx, hy, happly, herror⟩
  refine ⟨x, hx, y, hy, hne, happly, ?_, herror⟩
  have hsame := hs'.apply hf (hu.run hrun hplain).setless (Ty.setless_param y)
  rw [happly] at hsame
  rw [(Ty.setless_param x).substitute_eq_replace, (Ty.setless_param y).substitute_eq_replace]
  exact hsame

/-- Two calls with a substitution that keeps all their parameters apart. -/
theorem solvable_unified_apart :
    let pair (a b : Ty) : Ty := .variant ⟨⟨"std", "pair"⟩, "Pair", ["A", "B"], none⟩ [a, b]
    let first : Ty × Ty :=
      (.function (.mk [.param "T", pair (.param "U") (.param "T")] (.param "U")),
        .function (.mk [.array (.param "V"), .param "W"] .int))
    let second : Ty × Ty := (.param "W", pair .int (.array (.array .string)))
    let θ : Bindings := [("T", .array (.array .string)), ("U", .int), ("V", .array .string),
      ("W", pair .int (.array (.array .string)))]
    SetlessCalls [first, second] ∧
      (∀ call ∈ [first, second], (call.1.substitute θ == call.2.substitute θ) = true) ∧
      ((after [first]).unify second.1 second.2).2 = none := by
  intro pair first second θ
  have hset : SetlessCalls [first, second] := by
    simp [pair, first, second, SetlessCalls, Ty.setless_function, Ty.setless_variant,
      Ty.setless_array, Ty.setless_primitive, Ty.setless_param, Signature.params, Signature.ret]
  have hθ : ∀ call ∈ [first, second], (call.1.substitute θ == call.2.substitute θ) = true := by
    rw [List.forall_mem_cons, List.forall_mem_singleton]
    exact ⟨by decide +kernel, by decide +kernel⟩
  have hapart : ∀ x ∈ callNames [first, second], ∀ y ∈ callNames [first, second], x ≠ y →
      ((Ty.param x).substitute θ).bare.text ≠ ((Ty.param y).substitute θ).bare.text := by
    decide +kernel
  have hcalls : [first, second] = [first] ++ (second.1, second.2) :: [] := rfl
  refine ⟨hset, hθ, (solvable_unified hset hθ hcalls).resolve_right ?_⟩
  rintro ⟨x, hx, y, hy, hne, _, hsame, _⟩
  exact hapart x hx y hy hne (congrArg Ty.text hsame)

/-- The second call asks whether the parameter is the other one before it looks what that stands
for, and takes it for a type that contains the parameter. -/
theorem turned_pair_refused :
    let calls : List (Ty × Ty) := [(.param "y", .param "x"), (.param "x", .param "y")]
    let θ : Bindings := [("y", .param "x")]
    SetlessCalls calls ∧
      (∀ call ∈ calls, (call.1.substitute θ == call.2.substitute θ) = true) ∧
      ((after [(.param "y", .param "x")]).unify (.param "x") (.param "y")).2 =
        some (.occurs "x" (.param "x")) := by
  refine ⟨?_, by decide +kernel, ?_⟩
  · simp [SetlessCalls, Ty.setless_param]
  · have hrun : Run (after [(.param "y", .param "x")]) (.types (.param "x") (.param "y")) _ :=
      .bindLeft (mt atOnce_iff.mp (by decide +kernel)) (by rfl)
    rw [← hrun.unique (run_after _ _ _)]
    rfl

end Unifier

end Tern
