import Mathlib.Data.List.Induction
import Mathlib.Data.List.Perm.Subperm
import Tern.Proofs.Unifier.Tidy

/-!
Calls of unification one after the other. Every call ends: the left side never enters a set, and what
stands for a parameter outside of sets comes after it in the order of the bindings, so the left side
passes every name at most once, and so does the right side before the left one is taken apart. What
was bound stays bound, and outside of sets bindings never lead back to where they started. The same
holds inside of sets, and applying the bindings leaves no bound parameter, unless a set in the first
type that was bound has a repeated signature: then two types can be taken for equal though only one of
them mentions a parameter. All other types that are bound were rebuilt when the bindings were applied.
-/

set_option autoImplicit false

namespace Tern

open Relation

namespace Unifier

/-! Every call ends -/

/-- No parameters but these are mentioned. -/
def Known (names : List String) (t : Ty) : Prop := ∀ x, t.mentions x = true → x ∈ names

/-- All that the bindings speak of is among these names. -/
structure TidyIn (names : List String) (u : Unifier) : Prop where
  tidy : u.Tidy .outside
  bound : ∀ p ∈ u.bindings, p.1 ∈ names ∧ Known names p.2

section

variable {names : List String} {u u' : Unifier} {t : Ty} {k : Nat}

theorem inherited_known (names : List String) : Inherited (Known names) where
  function := by
    intro s h
    simp only [Known, Ty.mentions_function, Signature.mentions_iff] at h
    exact ⟨fun t ht x hx => h x (Or.inl ⟨t, ht, hx⟩), fun x hx => h x (Or.inr hx)⟩
  overloaded := fun h s hs x hx =>
    h x (Ty.mentions_overloaded.mpr ⟨s, hs, Ty.mentions_function ▸ hx⟩)
  variant := fun h t ht x hx => h x (Ty.mentions_variant.mpr ⟨t, ht, hx⟩)
  array := fun h x hx => h x (Ty.mentions_array.trans hx)

namespace TidyIn

variable (hu : u.TidyIn names)
include hu

theorem known_of_lookup {x : String} (h : u.bindings.lookup x = some t) : Known names t :=
  (hu.bound _ (mem_of_lookup h)).2

theorem known_substitute (ht : Known names t) : Known names (t.substitute u.bindings) := by
  intro x hx
  unfold Ty.substitute at hx
  split at hx
  · exact ht x hx
  · rcases Ty.brought_of_mentions_replace hx with ⟨hx, _⟩ | ⟨_, s, _, hs, hx⟩
    · exact ht x hx
    · exact hu.known_of_lookup hs x hx

theorem known_apply (ht : Known names t) : Known names (u.apply t) :=
  apply_of_substitute (P := Known names) (fun _ => hu.known_substitute) (hu.known_substitute ht)

theorem bind {x : String} (hx : Known names (.param x)) (ht : Known names t)
    (hnone : u.bindings.lookup x = none) : (u.bind x t).1.TidyIn names := by
  refine ⟨hu.tidy.bind (fun _ => trivial) hnone, ?_⟩
  rcases u.bind_cases x t with ⟨_, h⟩ | ⟨_, h⟩
  · rw [h]
    exact hu.bound
  · rw [h]
    intro p hp
    rcases List.mem_append.mp hp with hp | hp
    · exact hu.bound p hp
    · exact List.mem_singleton.mp hp ▸ ⟨hx x (Ty.mentions_param.mpr rfl), hu.known_apply ht⟩

/-- A call on known types leaves the bindings tidy and knows no other names. -/
theorem run {goal : Goal} {r : Attempt} (h : Run u goal r) (hg : goal.All (Known names)) :
    r.1.TidyIn names :=
  h.keeps (I := TidyIn names) (inherited_known names) (fun _ _ _ hu => hu.known_of_lookup)
    (fun _ _ _ hu hx ht _ hnone => hu.bind hx ht hnone) hu hg

/-- No more names can be bound than there are. -/
theorem length_le : u.bindings.length ≤ names.length := by
  have hnodup : (u.bindings.map Prod.fst).Nodup :=
    List.pairwise_map.mpr (hu.tidy.later.imp fun h => h.1.symm)
  have hsub : u.bindings.map Prod.fst ⊆ names := by
    intro x hx
    obtain ⟨p, hp, rfl⟩ := List.mem_map.mp hx
    exact (hu.bound p hp).1
  simpa using (hnodup.subperm hsub).length_le

end TidyIn

/-! The right side -/

/-- A parameter is followed to one that is not bound. -/
theorem Tidy.lookup_behind (hu : u.Tidy .outside) {n : Nat} (ht : u.Clear .outside k t)
    (hn : u.bindings.length ≤ k + n) {x : String} (h : u.behind n t = .param x) :
    u.bindings.lookup x = none := by
  induction n generalizing k t with
  | zero =>
    have hx : t = .param x := h
    exact (ht.mono hn).lookup_of_sees (hx ▸ View.outside.param.mpr rfl)
  | succ n ih =>
    cases t with
    | param y =>
      rw [behind] at h
      cases hy : u.bindings.lookup y with
      | none =>
        rw [hy] at h
        cases h
        exact hy
      | some s =>
        rw [hy] at h
        obtain ⟨j, hkj, _, hclear⟩ := hu.exists_clear ht hy
        exact ih hclear (by omega) h
    | _ => cases h

theorem TidyIn.known_behind (hu : u.TidyIn names) (n : Nat) (ht : Known names t) :
    Known names (u.behind n t) := by
  induction n generalizing t with
  | zero => exact ht
  | succ n ih =>
    cases t with
    | param x =>
      rw [behind]
      split
      · rename_i hx
        exact ih (hu.known_of_lookup hx)
      · exact ht
    | _ => exact ht

theorem met_of_free {expected : Ty} (h : ∀ x, t = .param x → u.bindings.lookup x = none) :
    u.met expected t = t := by
  cases t with
  | param x =>
    have hbehind (n : Nat) : u.behind n (.param x) = .param x := by
      cases n with
      | zero => rfl
      | succ n => rw [behind, h x rfl]
    cases expected with
    | param y => rfl
    | _ => exact hbehind _
  | _ => exact u.met_eq_self (by simp) expected

/-- Where the left side is no parameter, the call goes on behind all that are bound on the right. -/
theorem run_of_behind {expected : Ty} (he : ∀ x, expected ≠ .param x) {n : Nat} {r : Attempt}
    (h : Run u (.types expected (u.behind n t)) r) : Run u (.types expected t) r := by
  induction n generalizing t with
  | zero => exact h
  | succ n ih =>
    cases t with
    | param x =>
      rw [behind] at h
      cases hx : u.bindings.lookup x with
      | none => rwa [hx] at h
      | some bound =>
        rw [hx] at h
        have hnext := ih h
        by_cases hfits : AtOnce expected (.param x)
        · -- only `any` on the left fits a parameter at once, and then it fits what is behind it
          have hany : expected.isAny = true := by
            rcases atOnce_iff.mp hfits with heq | hany | hany
            · rcases Ty.cases_of_beq heq with rfl | ⟨_, _, _, h⟩ | ⟨_, _, _, h⟩ | ⟨_, _, _, _, h⟩ |
                ⟨_, _, _, h⟩
              · exact absurd rfl (he x)
              all_goals cases h
            · exact hany
            · cases hany
          rw [hnext.unique (.atOnce (atOnce_iff.mpr (Or.inr (Or.inl hany))))]
          exact .atOnce hfits
        · exact .followRight hfits he hx hnext
    | _ => exact h

/-! The left side -/

/-- The type is known, and clear of the first `k` parameters that were bound. -/
structure Past (names : List String) (u : Unifier) (k : Nat) (t : Ty) : Prop where
  known : Known names t
  le : k ≤ u.bindings.length
  clear : u.Clear .outside k t

theorem Past.extends (h : Past names u k t) (hext : u.bindings <+: u'.bindings) :
    Past names u' k t := by
  refine ⟨h.known, Nat.le_trans h.le hext.length_le, ?_⟩
  obtain ⟨more, heq⟩ := hext
  rw [Clear, ← heq, List.take_append_of_le_length h.le]
  exact h.clear

/-- The parts that a left side is taken apart into; there are none of a set. -/
theorem Past.function {s : Signature} (h : Past names u k (.function s)) :
    (∀ t ∈ s.params, Past names u k t) ∧ Past names u k s.ret := by
  have hknown := (inherited_known names).function h.known
  have hsees (x : String) (hx : s.bare.mentions x = true) :
      (Ty.function s).bare.mentions x = true := by rwa [Ty.bare, Ty.mentions_function]
  rw [Signature.bare_eq] at hsees
  constructor
  · intro t ht
    exact ⟨hknown.1 t ht, h.le, h.clear.of_sees fun x hx =>
      hsees x (Signature.mentions_iff.mpr (Or.inl ⟨t.bare, List.mem_map_of_mem ht, hx⟩))⟩
  · exact ⟨hknown.2, h.le, h.clear.of_sees fun x hx =>
      hsees x (Signature.mentions_iff.mpr (Or.inr hx))⟩

theorem Past.variant {head : VariantHead} {args : List Ty} (h : Past names u k (.variant head args)) :
    ∀ t ∈ args, Past names u k t := by
  intro t ht
  refine ⟨(inherited_known names).variant h.known t ht, h.le, h.clear.of_sees fun x hx => ?_⟩
  change (Ty.variant head args).bare.mentions x = true
  rw [Ty.bare, Ty.mentions_variant, Ty.bareAll_eq_map]
  exact ⟨t.bare, List.mem_map_of_mem ht, hx⟩

theorem Past.array (h : Past names u k (.array t)) : Past names u k t := by
  refine ⟨(inherited_known names).array h.known, h.le, h.clear.of_sees fun x hx => ?_⟩
  change (Ty.array t).bare.mentions x = true
  rwa [Ty.bare, Ty.mentions_array]

/-- Behind a bound parameter one comes past it. -/
theorem Past.bound {x : String} (hu : u.TidyIn names) (h : Past names u k (.param x))
    (hx : u.bindings.lookup x = some t) : ∃ j, k < j ∧ Past names u j t := by
  obtain ⟨j, hkj, hj, hclear⟩ := hu.tidy.exists_clear h.clear hx
  exact ⟨j + 1, Nat.lt_succ_of_le hkj, hu.known_of_lookup hx, hj, hclear⟩

section

variable {follow : Rule}

/-- Going on behind a bound parameter on the left is a call that ends, when one has come past more
of them than the first `k`. -/
def Follows (names : List String) (k : Nat) (follow : Rule) : Prop :=
  ∀ (u : Unifier) (expected found : Ty) (j : Nat), u.TidyIn names → Past names u j expected →
    Known names found → k < j → Run u (.types expected found) (follow u expected found)

/-- Going down from this type is a call that ends. -/
def Ends (names : List String) (k : Nat) (follow : Rule) (expected : Ty) : Prop :=
  ∀ (u : Unifier) (found : Ty), u.TidyIn names → Past names u k expected → Known names found →
    Run u (.types expected found) (descend follow expected u found)

theorem run_bindLeft (hf : Follows names k follow) {x : String} (h : ¬ AtOnce (.param x) t)
    (hu : u.TidyIn names) (hx : Past names u k (.param x)) (ht : Known names t) :
    Run u (.types (.param x) t) (bindLeft follow u x t) := by
  unfold bindLeft
  split
  · rename_i bound hbound
    obtain ⟨j, hj, hpast⟩ := hx.bound hu hbound
    exact .followLeft h hbound (hf u bound t j hu hpast ht hj)
  · rename_i hnone
    exact .bindLeft h hnone

theorem run_descendAll {as : List Ty} (ih : ∀ a ∈ as, Ends names k follow a) {bs : List Ty}
    (hu : u.TidyIn names) (ha : ∀ a ∈ as, Past names u k a) (hb : ∀ b ∈ bs, Known names b) :
    Run u (.lists as bs) (descendAll follow as u bs) := by
  induction as generalizing u bs with
  | nil => exact .done (Or.inl rfl)
  | cons a as ihs =>
    cases bs with
    | nil => exact .done (Or.inr rfl)
    | cons b bs =>
      rw [List.forall_mem_cons] at ih ha hb
      have hfirst := ih.1 u b hu ha.1 hb.1
      rw [descendAll]
      split
      · rename_i u' heq
        rw [heq] at hfirst
        have hu' := hu.run hfirst ⟨ha.1.known, hb.1⟩
        exact .onward hfirst (ihs ih.2 hu' (fun x hx => (ha.2 x hx).extends hfirst.extends) hb.2)
      · rename_i heq
        rcases h : descend follow a u b with ⟨u', _ | e⟩
        · exact absurd h (heq u')
        · exact .stop (h ▸ hfirst)

theorem run_descendSignature {s t : Signature} (ihp : ∀ a ∈ s.params, Ends names k follow a)
    (ihr : Ends names k follow s.ret) (hu : u.TidyIn names) (hs : Past names u k (.function s))
    (ht : Known names (.function t)) :
    Run u (.signatures s t) (descendSignature follow s u t) := by
  have hsp := hs.function
  have htp := (inherited_known names).function ht
  have hparams := run_descendAll ihp hu hsp.1 htp.1
  cases s with
  | mk ps r =>
    cases t with
    | mk qs q =>
      rw [descendSignature]
      split
      · rename_i hlength
        split
        · rename_i u' heq
          have hfirst : Run u (.lists ps qs) (u', none) := heq ▸ hparams
          have hu' := hu.run hfirst ⟨fun a ha => (hsp.1 a ha).known, htp.1⟩
          exact .result hlength hfirst (ihr u' q hu' (hsp.2.extends hfirst.extends) htp.2)
        · rename_i heq
          rcases h : descendAll follow ps u qs with ⟨u', _ | e⟩
          · exact absurd h (heq u')
          · exact .params hlength (h ▸ hparams)
      · rename_i hlength
        exact .arity hlength

theorem run_firstFit {s : Signature} {set rest : List Signature}
    (h : ∀ t ∈ rest, Run u (.signatures s t) (descendSignature follow s u t)) :
    Run u (.members s set rest)
      (match firstFit u (fun t => descendSignature follow s u t) rest with
        | some u' => u'.fits
        | none => u.fails (.mismatch (.function s) (.overloaded set))) := by
  induction rest with
  | nil => exact .exhausted
  | cons t rest ih =>
    rw [List.forall_mem_cons] at h
    rw [firstFit]
    rcases heq : descendSignature follow s u t with ⟨u', _ | e⟩
    · exact .member (heq ▸ h.1)
    · exact .skip (heq ▸ h.1) (ih h.2)

/-- Where the left side is no parameter, it is enough to look at right sides that are followed
already. -/
theorem ends_of_free {expected : Ty} (he : ∀ x, expected ≠ .param x)
    (h : ∀ (u : Unifier) (found : Ty), u.TidyIn names → Past names u k expected →
      Known names found → (∀ x, found = .param x → u.bindings.lookup x = none) →
      Run u (.types expected found) (descend follow expected u found)) :
    Ends names k follow expected := by
  intro u found hu hexpected hfound
  have hbehind : u.met expected found = u.behind u.bindings.length found := by
    cases expected with
    | param x => exact absurd rfl (he x)
    | _ => rfl
  have hfree : ∀ x, u.met expected found = .param x → u.bindings.lookup x = none :=
    fun x hx => hu.tidy.lookup_behind clear_zero (by omega) (hbehind.symm.trans hx)
  have hdescend : descend follow expected u found = descend follow expected u (u.met expected found) := by
    rw [descend.eq_def, descend.eq_def follow expected u (u.met expected found)]
    dsimp only
    rw [met_of_free hfree]
  rw [hdescend]
  refine run_of_behind he (n := u.bindings.length) ?_
  rw [← hbehind]
  exact h u _ hu hexpected (hbehind ▸ hu.known_behind _ hfound) hfree

/-- Nor is there anything to look at where the types fit at once or the right side is a parameter. -/
theorem ends_of_parts {expected : Ty} (he : ∀ x, expected ≠ .param x)
    (h : ∀ (u : Unifier) (found : Ty), u.TidyIn names → Past names u k expected →
      Known names found → (∀ x, found ≠ .param x) → ¬ AtOnce expected found →
      Run u (.types expected found) (descend follow expected u found)) :
    Ends names k follow expected := by
  refine ends_of_free he fun u found hu hexpected hfound hfree => ?_
  by_cases hat : AtOnce expected found
  · rw [descend.eq_def]
    dsimp only
    rw [met_of_free hfree, if_pos (c := _ = true) hat]
    exact .atOnce hat
  · cases found with
    | param x =>
      rw [descend.eq_def]
      dsimp only
      rw [met_of_free hfree, if_neg (c := _ = true) hat]
      cases expected with
      | param y => exact absurd rfl (he y)
      | _ => exact .bindRight hat nofun (hfree x rfl)
    | _ => exact h u _ hu hexpected hfound nofun hat

theorem ends (hf : Follows names k follow) (expected : Ty) : Ends names k follow expected := by
  induction expected using Ty.byParts with
  | param x =>
    intro u found hu hx hfound
    rw [descend.eq_def]
    dsimp only
    split
    · rename_i h
      exact .atOnce h
    · rename_i h
      exact run_bindLeft hf h hu hx hfound
  | primitive p =>
    refine ends_of_parts nofun fun u found hu hexpected hfound hr h => ?_
    rw [descend.eq_def]
    dsimp only
    rw [met_of_free fun x hx => absurd hx (hr x), if_neg (c := _ = true) h]
    cases found with
    | param x => exact absurd rfl (hr x)
    | _ => exact .mismatch h nofun nofun rfl
  | function s ihp ihr =>
    refine ends_of_parts nofun fun u found hu hexpected hfound hr h => ?_
    rw [descend.eq_def]
    dsimp only
    rw [met_of_free fun x hx => absurd hx (hr x), if_neg (c := _ = true) h]
    cases found with
    | param x => exact absurd rfl (hr x)
    | function t => exact .parts h rfl (run_descendSignature ihp ihr hu hexpected hfound)
    | overloaded ts =>
      have hmembers := (inherited_known names).overloaded hfound
      exact .parts h rfl (run_firstFit fun t ht =>
        run_descendSignature ihp ihr hu hexpected (hmembers t ht))
    | _ => exact .mismatch h nofun nofun rfl
  | overloaded ss _ =>
    refine ends_of_parts nofun fun u found hu hexpected hfound hr h => ?_
    rw [descend.eq_def]
    dsimp only
    rw [met_of_free fun x hx => absurd hx (hr x), if_neg (c := _ = true) h]
    cases found with
    | param x => exact absurd rfl (hr x)
    | _ => exact .mismatch h nofun nofun rfl
  | variant head as ih =>
    refine ends_of_parts nofun fun u found hu hexpected hfound hr h => ?_
    rw [descend.eq_def]
    dsimp only
    rw [met_of_free fun x hx => absurd hx (hr x), if_neg (c := _ = true) h]
    cases found with
    | param x => exact absurd rfl (hr x)
    | variant head' bs =>
      dsimp only
      split
      · rename_i hfit
        exact .parts h (if_pos hfit) (run_descendAll ih hu hexpected.variant
          ((inherited_known names).variant hfound))
      · rename_i hfit
        exact .mismatch h nofun nofun (if_neg hfit)
    | _ => exact .mismatch h nofun nofun rfl
  | array a ih =>
    refine ends_of_parts nofun fun u found hu hexpected hfound hr h => ?_
    rw [descend.eq_def]
    dsimp only
    rw [met_of_free fun x hx => absurd hx (hr x), if_neg (c := _ = true) h]
    cases found with
    | param x => exact absurd rfl (hr x)
    | array b =>
      exact .parts h rfl (ih u b hu hexpected.array ((inherited_known names).array hfound))
    | _ => exact .mismatch h nofun nofun rfl

/-- The left side comes past every name at most once, so that the bound on the way is never
reached. -/
theorem run_unifyWithin (n : Nat) {expected found : Ty} (hu : u.TidyIn names)
    (he : Past names u k expected) (hf : Known names found) (hn : names.length ≤ n + k) :
    Run u (.types expected found) (unifyWithin n u expected found) := by
  induction n generalizing u k expected found with
  | zero =>
    refine ends ?_ expected u found hu he hf
    intro v _ _ j hv hj _ hlt
    have hlength := hv.length_le
    have hle := hj.le
    omega
  | succ n ih =>
    refine ends ?_ expected u found hu he hf
    intro v e f j hv hj hf' hlt
    exact ih hv hj hf' (by omega)

end

end

/-- The names that the bindings speak of. -/
def names (u : Unifier) : List String :=
  u.bindings.map (·.1) ++ Ty.namesAll (u.bindings.map (·.2))

theorem Tidy.tidyIn {u : Unifier} (hu : u.Tidy .outside) {known : List String}
    (hknown : u.names ⊆ known) : u.TidyIn known := by
  refine ⟨hu, fun p hp => ⟨?_, fun x hx => ?_⟩⟩
  · exact hknown (List.mem_append_left _ (List.mem_map_of_mem hp))
  · refine hknown (List.mem_append_right _ ((Ty.mem_namesAll _).mpr ?_))
    exact Ty.anyMentions_iff.mpr ⟨p.2, List.mem_map_of_mem hp, hx⟩

/-- A call of unification ends, as the rules say. -/
theorem Tidy.run_unify {u : Unifier} (hu : u.Tidy .outside) (expected found : Ty) :
    Run u (.types expected found) (u.unify expected found) := by
  let known := u.names ++ (expected.names ++ found.names)
  have hleft : Past known u 0 expected := by
    refine ⟨fun x hx => ?_, Nat.zero_le _, clear_zero⟩
    exact List.mem_append_right _ (List.mem_append_left _ (expected.mem_names.mpr hx))
  have hright : Known known found := fun x hx =>
    List.mem_append_right _ (List.mem_append_right _ (found.mem_names.mpr hx))
  refine run_unifyWithin _ (hu.tidyIn (List.subset_append_left _ _)) hleft hright ?_
  simp only [names, depthBound, List.length_append, List.length_map, Ty.length_namesAll,
    Ty.length_names]
  omega

/-! Calls one after the other -/

/-- The unifier after these calls, whether or not they fail. -/
def after (calls : List (Ty × Ty)) : Unifier :=
  calls.foldl (fun u call => (u.unify call.1 call.2).1) {}

theorem after_append (first last : List (Ty × Ty)) :
    after (first ++ last) = last.foldl (fun u call => (u.unify call.1 call.2).1) (after first) :=
  List.foldl_append

theorem after_concat (calls : List (Ty × Ty)) (call : Ty × Ty) :
    after (calls ++ [call]) = ((after calls).unify call.1 call.2).1 := after_append calls [call]

theorem Tidy.unify {u : Unifier} (hu : u.Tidy .outside) (expected found : Ty) :
    (u.unify expected found).1.Tidy .outside :=
  .run (hu.run_unify expected found) (fun _ => hu) fun _ _ => trivial

theorem Obeys.unify {rule : TypeRule} (hr : rule.Stable) {u : Unifier} (hu : u.Obeys rule)
    (ht : u.Tidy .outside) {expected found : Ty} (he : expected.Obeys rule) (hf : found.Obeys rule) :
    (u.unify expected found).1.Obeys rule := (ht.run_unify expected found).obeys hr hu ⟨he, hf⟩

theorem tidy_after (calls : List (Ty × Ty)) : (after calls).Tidy .outside := by
  induction calls using List.reverseRecOn with
  | nil => exact tidy_empty _
  | append_singleton calls call ih =>
    rw [after_concat]
    exact ih.unify call.1 call.2

theorem run_after (calls : List (Ty × Ty)) (expected found : Ty) :
    Run (after calls) (.types expected found) ((after calls).unify expected found) :=
  (tidy_after calls).run_unify expected found

theorem whole_after {calls : List (Ty × Ty)} (h : (after calls).Starts .whole) :
    (after calls).Tidy .whole := by
  induction calls using List.reverseRecOn with
  | nil => exact tidy_empty _
  | append_singleton calls call ih =>
    rw [after_concat] at h ⊢
    exact .run (run_after calls call.1 call.2) ih h

/-- The types of the calls are proper. -/
def ProperCalls (calls : List (Ty × Ty)) : Prop := ∀ call ∈ calls, call.1.Proper ∧ call.2.Proper

theorem proper_after {calls : List (Ty × Ty)} (hp : ProperCalls calls) :
    (after calls).Obeys .distinct := by
  induction calls using List.reverseRecOn with
  | nil => exact obeys_empty
  | append_singleton calls call ih =>
    rw [after_concat]
    exact (run_after calls call.1 call.2).obeys TypeRule.stable_distinct
      (ih fun c hc => hp c (List.mem_append_left _ hc)) (hp call List.mem_concat_self)

/-- Later calls keep what earlier ones bound. -/
theorem prefix_after (first last : List (Ty × Ty)) :
    (after first).bindings <+: (after (first ++ last)).bindings := by
  induction last using List.reverseRecOn with
  | nil => exact (List.append_nil first).symm ▸ List.prefix_rfl
  | append_singleton last call ih =>
    rw [← List.append_assoc, after_concat]
    exact ih.trans (run_after _ call.1 call.2).extends

/-- After any calls, failing or not: every further call ends, and what the rules say it ends with is
what unification gives; what was bound after the first calls stays bound to the same type; and outside
of sets, bindings do not lead back to where they started, and applying them leaves no bound parameter.
If there are no repetitions in the sets of the type that was bound first, bindings lead back nowhere,
and applied to any type they leave no bound parameter at all, so that applying them again changes
nothing. There are none if the types of the calls have no such sets. -/
theorem bindings_settle (calls : List (Ty × Ty)) :
    (∀ (expected found : Ty) (r : Attempt),
      Run (after calls) (.types expected found) r ↔ r = (after calls).unify expected found) ∧
    (∀ first last, calls = first ++ last → ∀ x t, (after first).bindings.lookup x = some t →
      (after calls).bindings.lookup x = some t) ∧
    (∀ x, ¬ TransGen ((after calls).Refers .outside) x x) ∧
    (∀ (t : Ty) (x : String), (after calls).bindings.lookup x ≠ none →
      ((after calls).apply t).bare.mentions x = false) ∧
    ((∀ p ∈ (after calls).bindings.head?, p.2.Proper) →
      (∀ x, ¬ TransGen ((after calls).Refers .whole) x x) ∧ ∀ t : Ty,
        (∀ x, (after calls).bindings.lookup x ≠ none → ((after calls).apply t).mentions x = false) ∧
        (after calls).apply ((after calls).apply t) = (after calls).apply t) ∧
    (ProperCalls calls → ∀ p ∈ (after calls).bindings.head?, p.2.Proper) := by
  have hu := tidy_after calls
  refine ⟨?_, ?_, hu.acyclic, ?_, ?_, fun hp => starts_of_lookup (v := .whole) (proper_after hp)⟩
  · intro expected found r
    have hrun := run_after calls expected found
    exact ⟨fun h => h.unique hrun, fun h => h ▸ hrun⟩
  · rintro first last rfl x t hx
    exact lookup_of_extends (prefix_after first last) hx
  · intro t x hx
    rw [Bool.eq_false_iff]
    exact fun hmentions => hx ((hu.clear_apply t).lookup_of_sees hmentions)
  · intro hstart
    have hwhole := whole_after hstart
    refine ⟨hwhole.acyclic, fun t => ⟨fun x hx => ?_, hwhole.apply_apply t⟩⟩
    rw [Bool.eq_false_iff]
    exact fun hmentions => hx ((hwhole.clear_apply t).lookup_of_sees hmentions)

/-- A set of which the second member fits, the first one being given up after it has bound a
parameter; then a call that the occurs check refuses, and one that binds what is left. -/
theorem bindings_settle_overloaded :
    let pair (t : Ty) (ret : Ty) : Signature := .mk [t, .array t] ret
    let calls : List (Ty × Ty) :=
      [(.function (pair (.param "T") (.param "U")),
        .overloaded [.mk [.int, .string] .bool, pair (.param "V") (.param "V")]),
        (.param "U", .array (.param "U")), (.param "V", .int)]
    ProperCalls calls ∧ (after calls).bindings.map Prod.fst = ["T", "U", "V"] ∧
      (¬ TransGen ((after calls).Refers .whole) "T" "T") ∧
      (after calls).apply (.param "T") = .int ∧
      ((after calls).apply (.param "T")).mentions "T" = false := by
  intro pair calls
  have hproper : ProperCalls calls := by
    simp [calls, pair, ProperCalls, Ty.Proper, Ty.obeys_function, Ty.obeys_overloaded,
      Ty.obeys_array, Signature.obeys_iff, Signature.params, Signature.ret, TypeRule.distinct,
      Overload.Distinct]
    decide
  obtain ⟨_, _, _, _, hsettled, hstart⟩ := bindings_settle calls
  obtain ⟨hacyclic, happly⟩ := hsettled (hstart hproper)
  have hbound : (after calls).bindings.lookup "T" ≠ none :=
    Option.isSome_iff_ne_none.mp (by decide +kernel)
  refine ⟨hproper, by decide +kernel, hacyclic "T", ?_, (happly (.param "T")).1 "T" hbound⟩
  have heq : ((after calls).apply (.param "T") == .int) = true := by decide +kernel
  rcases Ty.cases_of_beq heq with h | ⟨_, _, _, h⟩ | ⟨_, _, _, h⟩ | ⟨_, _, _, _, h⟩ | ⟨_, _, _, h⟩
  · exact h
  all_goals cases h

/-- A set of functions that take one of these types each. -/
def takers (ts : List Ty) : Ty := .overloaded (ts.map fun t => .mk [t] .unit)

/-- The function that takes `int` twice in it makes the set of the first two members equal to that
of any two members of which one takes what they take. -/
def twofold : Ty :=
  let plain := takers [takers [.int, .string], takers [.int, .bool]]
  takers [takers [plain, takers [takers [.int, .int], .bool]], takers [plain, .param "x"]]

/-- With a repeated signature inside, replacement can leave a type equal in which a bound parameter
is mentioned: applying the bindings stops there, applying them again changes the type, and binding
what is left over makes a circle. -/
theorem repeated_signature_unsettled :
    let u := after [(.param "y", twofold), (.param "x", .int)]
    let v := after [(.param "y", twofold), (.param "x", .array (.param "z")), (.param "z", .param "y")]
    (u.bindings.lookup "x" ≠ none ∧ (u.apply (.param "y")).mentions "x" = true ∧
        (u.apply (.param "y") == u.apply (u.apply (.param "y"))) = false) ∧
      TransGen (v.Refers .whole) "x" "x" := by
  intro u v
  refine ⟨⟨?_, by decide +kernel, by decide +kernel⟩, ?_⟩
  · rw [show u.bindings.lookup "x" = some .int by rfl]
    exact Option.some_ne_none _
  · exact .tail (.single (b := "z") ⟨.array (.param "z"), by rfl, by rfl⟩) ⟨twofold, by rfl, by rfl⟩

end Unifier

end Tern
