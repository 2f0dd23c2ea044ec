import Tern.Check.Rules
import Tern.Proofs.Ty.Renaming
import Tern.Proofs.Unifier.Consistent

/-!
What a constructor was given can be read back from the value. A call of a constructor stands for one
replacement of the parameters of the variant type: it applies what was bound and erases what was not.
The arguments of the resulting type are its values at the parameters, so the type of a field, read
back with these arguments, is its value at the declared type; and this is consistent with what the
field was given.
-/

set_option autoImplicit false

namespace Tern

/-! Replacements -/

namespace Ty

variable {f g : Ty → Ty} {t : Ty}

theorem replaces_id : Replaces id where
  primitive _ := rfl
  function s _ := by cases s; simp [Signature.params, Signature.ret]
  variant _ _ _ := by simp
  array _ _ := rfl

theorem replaces_erase (names : List String) : Replaces (erase names) where
  primitive _ := by rw [erase]
  function s _ := by
    cases s
    rw [erase, Signature.erase, eraseAll_eq_map, Signature.params, Signature.ret]
  variant head args _ := by rw [erase, eraseAll_eq_map]
  array t _ := by rw [erase]

namespace Replaces

theorem setless (hf : Replaces f) (hparam : ∀ x, (f (.param x)).Setless) (ht : t.Setless) :
    (f t).Setless := by
  induction t using byParts with
  | primitive p => exact (hf.primitive p).symm ▸ ht
  | function s ihp ihr =>
    obtain ⟨hparams, hret⟩ := setless_function.mp ht
    rw [hf.function s ht, setless_function, Signature.params, Signature.ret]
    exact ⟨List.forall_mem_map.mpr fun a ha => ihp a ha (hparams a ha), ihr hret⟩
  | overloaded ss _ => exact absurd ht not_setless_overloaded
  | param x => exact hparam x
  | variant head args ih =>
    rw [hf.variant head args ht, setless_variant]
    exact List.forall_mem_map.mpr fun a ha => ih a ha (setless_variant.mp ht a ha)
  | array t ih =>
    rw [hf.array t ht, setless_array]
    exact ih (setless_array.mp ht)

theorem comp (hg : Replaces g) (hf : Replaces f) (hset : ∀ t : Ty, t.Setless → (f t).Setless) :
    Replaces (g ∘ f) where
  primitive p := by rw [Function.comp_apply, hf.primitive, hg.primitive]
  function s hs := by
    have hfs := hset _ hs
    rw [hf.function s hs] at hfs
    rw [Function.comp_apply, hf.function s hs, hg.function _ hfs, Signature.params, Signature.ret,
      List.map_map]
    rfl
  variant head args hargs := by
    have hfargs := hset _ hargs
    rw [hf.variant head args hargs] at hfargs
    rw [Function.comp_apply, hf.variant head args hargs, hg.variant _ _ hfargs, List.map_map]
  array t ht := by
    have hft := hset _ ht
    rw [hf.array t ht] at hft
    rw [Function.comp_apply, hf.array t ht, hg.array _ hft]
    rfl

/-- What the map does to the parameters that are mentioned decides what it does. -/
theorem congr (hf : Replaces f) (hg : Replaces g) (ht : t.Setless)
    (h : ∀ x, t.mentions x = true → f (.param x) = g (.param x)) : f t = g t := by
  induction t using byParts with
  | primitive p => rw [hf.primitive, hg.primitive]
  | function s ihp ihr =>
    obtain ⟨hparams, hret⟩ := setless_function.mp ht
    have hmentions {x : String} (hx : (∃ a ∈ s.params, a.mentions x = true) ∨ s.ret.mentions x = true) :
        f (.param x) = g (.param x) := h x (by rwa [mentions_function, Signature.mentions_iff])
    rw [hf.function s ht, hg.function s ht, ihr hret fun x hx => hmentions (Or.inr hx)]
    congr 2
    exact List.map_congr_left fun a ha =>
      ihp a ha (hparams a ha) fun x hx => hmentions (Or.inl ⟨a, ha, hx⟩)
  | overloaded ss _ => exact absurd ht not_setless_overloaded
  | param x => exact h x (mentions_param.mpr rfl)
  | variant head args ih =>
    rw [hf.variant head args ht, hg.variant head args ht]
    congr 1
    exact List.map_congr_left fun a ha =>
      ih a ha (setless_variant.mp ht a ha) fun x hx => h x (mentions_variant.mpr ⟨a, ha, hx⟩)
  | array t ih =>
    rw [hf.array t ht, hg.array t ht, ih (setless_array.mp ht)]
    exact fun x hx => h x (by rwa [mentions_array])

theorem eq_self (hf : Replaces f) (ht : t.Setless) (hp : t.hasParams = false) : f t = t := by
  refine hf.congr replaces_id ht ?_
  intro x hx
  have hnames : t.names = [] := by
    by_contra hne
    exact Bool.eq_false_iff.mp hp ((hasParams_iff t).mpr hne)
  rw [← mem_names, hnames] at hx
  cases hx

end Replaces

theorem Setless.erase (ht : t.Setless) (names : List String) : (t.erase names).Setless := by
  refine (replaces_erase names).setless ?_ ht
  intro x
  rw [Ty.erase]
  split
  · exact setless_param x
  · exact setless_primitive .any

end Ty

/-! Consistent types fit -/

namespace Unifier

/-- Nothing has to be bound for types that are consistent. -/
theorem run_of_consistent {a b : Ty} (h : a.Consistent b) (u : Unifier) :
    Run u (.types a b) u.fits := by
  have hlists {as bs : List Ty} (h : ∀ p ∈ as.zip bs, Run u (.types p.1 p.2) u.fits) :
      Run u (.lists as bs) u.fits := by
    induction as generalizing bs with
    | nil => exact .done (Or.inl rfl)
    | cons a as ih =>
      cases bs with
      | nil => exact .done (Or.inr rfl)
      | cons b bs =>
        rw [List.zip_cons_cons, List.forall_mem_cons] at h
        exact .onward h.1 (ih h.2)
  have hparts {a b : Ty} {goal : Goal} (hgoal : parts? a b = some goal) (h : Run u goal u.fits) :
      Run u (.types a b) u.fits := by
    by_cases hfits : AtOnce a b
    · exact .atOnce hfits
    · exact .parts hfits hgoal h
  induction h with
  | anyLeft t => exact .atOnce (atOnce_iff.mpr (Or.inr (Or.inl rfl)))
  | anyRight t => exact .atOnce (atOnce_iff.mpr (Or.inr (Or.inr rfl)))
  | primitive p => exact .atOnce (atOnce_iff.mpr (Or.inl (beq_self_eq_true _)))
  | param x => exact .atOnce (atOnce_iff.mpr (Or.inl (beq_self_eq_true _)))
  | function hlength _ _ ihp ihr => exact hparts rfl (.result hlength (hlists ihp) ihr)
  | array _ ih => exact hparts rfl ih
  | variant hdefinition hcase hlength _ ih =>
    exact hparts (if_pos ⟨⟨hdefinition, hcase⟩, hlength⟩) (hlists ih)

end Unifier

theorem Ty.Consistent.isAssignable {a b : Ty} (h : a.Consistent b) : a.isAssignable b = true := by
  have hrun := (Unifier.tidy_empty .outside).run_unify a b
  rw [Ty.isAssignable, hrun.unique (Unifier.run_of_consistent h {})]
  rfl

/-! Calls -/

namespace Check

/-- Where none of the calls fails, they were made one after the other. -/
theorem fits_of_foldl {calls : List (Ty × Ty)} {u : Unifier}
    (hu : calls.foldl (fun (u? : Option Unifier) (param, arg) =>
      u?.bind fun u =>
        match u.unify param arg with
        | (u', none) => some u'
        | (_, some _) => none) (some {}) = some u) :
    u = Unifier.after calls ∧ ∀ first call last, calls = first ++ call :: last →
      ((Unifier.after first).unify call.1 call.2).2 = none := by
  induction calls using List.reverseRecOn generalizing u with
  | nil =>
    refine ⟨(Option.some.inj hu).symm, ?_⟩
    intro first call last hcalls
    exact absurd hcalls.symm (List.append_ne_nil_of_right_ne_nil first (List.cons_ne_nil call last))
  | append_singleton calls call ih =>
    rw [List.foldl_append, List.foldl_cons, List.foldl_nil, Option.bind_eq_some_iff] at hu
    obtain ⟨v, hv, hu⟩ := hu
    obtain ⟨rfl, hbefore⟩ := ih hv
    cases hunify : (Unifier.after calls).unify call.1 call.2 with
    | mk u' fault =>
      rw [hunify] at hu
      cases fault with
      | some e => cases hu
      | none =>
        refine ⟨?_, ?_⟩
        · rw [Unifier.after_concat, hunify]
          exact (Option.some.inj hu).symm
        · -- the call in question is the last one or comes before it
          intro first call' last hcalls
          rcases List.eq_nil_or_concat last with rfl | ⟨last, call'', rfl⟩
          · obtain ⟨rfl, hcall⟩ := List.append_inj' hcalls rfl
            rw [← List.singleton_inj.mp hcall, hunify]
          · rw [List.concat_eq_append, ← List.cons_append, ← List.append_assoc] at hcalls
            exact hbefore first call' last (List.append_inj' hcalls rfl).1

/-- In a call that fits, each argument is unified with its parameter. -/
theorem resultOf?_eq_some {s : Signature} {args : List Ty} {t : Ty} (h : resultOf? s args = some t) :
    s.params.length = args.length ∧ t = (Unifier.after (s.params.zip args)).apply s.ret ∧
      ∀ first call last, s.params.zip args = first ++ call :: last →
        ((Unifier.after first).unify call.1 call.2).2 = none := by
  unfold resultOf? at h
  split at h
  · rename_i hlength
    obtain ⟨u, hu, rfl⟩ := Option.map_eq_some_iff.mp h
    obtain ⟨rfl, hfits⟩ := fits_of_foldl hu
    exact ⟨hlength, rfl, hfits⟩
  · cases h

end Check

/-! Replacements that calls stand for -/

namespace Unifier

variable {calls : List (Ty × Ty)}

/-- What becomes of a type in the result of a call: bindings are applied, and what is left of the
parameters becomes `any`. -/
def result (u : Unifier) (t : Ty) : Ty := (u.apply t).erase []

theorem setless_result (h : SetlessCalls calls) {t : Ty} (ht : t.Setless) :
    ((after calls).result t).Setless := ((setless_after h).apply ht).erase []

theorem replaces_result (h : SetlessCalls calls) : Ty.Replaces (after calls).result :=
  (Ty.replaces_erase []).comp (setless_after h).replaces_apply fun _ => (setless_after h).apply

/-- A call that succeeded has consistent sides in the result. -/
theorem consistent_result {first last : List (Ty × Ty)} {call : Ty × Ty}
    (h : SetlessCalls (first ++ call :: last)) (hr : ((after first).unify call.1 call.2).2 = none) :
    ((after (first ++ call :: last)).result call.1).Consistent
      ((after (first ++ call :: last)).result call.2) := by
  have hset := setless_after h
  have hsolves : Solves (after (first ++ call :: last)).result (after (first ++ call :: last)) :=
    fun x t hx => congrArg (Ty.erase []) (h.tidy.solves_apply hset x t hx)
  have hreplaces := replaces_result h
  have hsetless := fun t => @setless_result _ h t
  rw [List.append_cons] at h hsolves hreplaces hsetless ⊢
  have hfirst : SetlessCalls first := fun c hc =>
    h c (List.mem_append_left _ (List.mem_append_left _ hc))
  have hcall := h call (List.mem_append_left _ List.mem_concat_self)
  have hrun := run_after first call.1 call.2
  have hprefix : ((after first).unify call.1 call.2).1.bindings <+:
      (after (first ++ [call] ++ last)).bindings := by
    rw [← after_concat]
    exact prefix_after _ last
  exact hrun.consistent hreplaces hsetless (setless_after hfirst) hcall hr (hsolves.of_extends hprefix)

end Unifier

/-! Arguments by name -/

/-- If arguments are given by the names of their parameters, it does not matter that names may be
repeated. -/
theorem VariantHead.lookup_bindings (head : VariantHead) (g : String → Ty) {x : String}
    (hx : x ∈ head.typeParams) : (head.bindings (head.typeParams.map g)).lookup x = some (g x) := by
  have hzip : head.bindings (head.typeParams.map g) = head.typeParams.reverse.map fun y => (y, g y) := by
    rw [bindings, List.map_reverse]
    have hzip := @List.zip_map' _ _ _ id g head.typeParams
    rw [List.map_id] at hzip
    exact congrArg List.reverse hzip
  rw [hzip]
  rw [← List.mem_reverse] at hx
  generalize head.typeParams.reverse = names at hx
  induction names with
  | nil => cases hx
  | cons y names ih =>
    rw [List.map_cons, List.lookup_cons]
    by_cases hxy : x = y
    · simp [hxy]
    · rw [beq_false_of_ne hxy]
      exact ih ((List.mem_cons.mp hx).resolve_left hxy)

/-- What a field was made from, it can be read back to. Where a call of a constructor fits, its result
is a type of the definition once the parameters that no argument has fixed are `any`; and with the case
selected, a field of this type takes the argument that was given for it. -/
theorem Definition.constructed_fields_fit {d : Definition} {c : Case} {s : Signature} {types : List Ty}
    {result : Ty} (hcase : d.case? c.name = some c)
    (hfields : ∀ f ∈ c.fields, f.type.Setless ∧ ∀ x, f.type.mentions x = true → x ∈ d.typeParams)
    (htypes : ∀ t ∈ types, t.Setless ∧ t.hasParams = false) (hs : d.constructorType c = .function s)
    (hresult : Check.resultOf? s types = some result) :
    ∃ args, result.erase [] = .variant ⟨d.path, d.name, d.typeParams, none⟩ args ∧
      args.length = d.typeParams.length ∧
      ∀ (i : Nat) (f : Field), c.fields[i]? = some f → c.field? f.name = some f →
        ∃ a t, types[i]? = some a ∧
          d.fieldType? ⟨d.path, d.name, d.typeParams, some c.name⟩ args f.name = some t ∧
          t.isAssignable a = true := by
  obtain rfl := Ty.function.inj hs
  obtain ⟨hlength, rfl, hunified⟩ := Check.resultOf?_eq_some hresult
  rw [Signature.params, List.length_map] at hlength
  let calls := (c.fields.map Field.type).zip types
  let g := (Unifier.after calls).result
  have hcalls : Unifier.SetlessCalls calls := by
    intro call hcall
    obtain ⟨hfield, htype⟩ := List.of_mem_zip hcall
    obtain ⟨f, hf, hft⟩ := List.mem_map.mp hfield
    exact ⟨hft ▸ (hfields f hf).1, (htypes _ htype).1⟩
  have hg : Ty.Replaces g := Unifier.replaces_result hcalls
  have hgeneric : d.type.Setless :=
    Ty.setless_variant.mpr (List.forall_mem_map.mpr fun x _ => Ty.setless_param x)
  refine ⟨d.typeParams.map fun x => g (.param x), ?_, List.length_map _, ?_⟩
  · exact (hg.variant _ _ hgeneric).trans (by rw [List.map_map]; rfl)
  · intro i f hi hname
    obtain ⟨hset, hmentions⟩ := hfields f (List.mem_of_getElem? hi)
    have hlt : i < types.length := hlength ▸ (List.getElem?_eq_some_iff.mp hi).1
    have ha : types[i]? = some types[i] := List.getElem?_eq_getElem hlt
    -- the type that is read back is what the call made of the declared one
    have hread : f.type.substitute (VariantHead.bindings ⟨d.path, d.name, d.typeParams, some c.name⟩
        (d.typeParams.map fun x => g (.param x))) = g f.type := by
      rw [hset.substitute_eq_replace]
      refine (Ty.replaces_replace _).congr hg hset ?_
      intro x hx
      rw [Ty.replace, VariantHead.lookup_bindings _ _ (hmentions x hx), Option.getD_some]
    refine ⟨types[i], g f.type, ha, ?_, ?_⟩
    · rw [fieldType?, declaredFieldType?, hcase, Option.bind_some, hname, Option.map_some,
        Option.map_some, hread]
    · have hcall : calls[i]? = some (f.type, types[i]) := by
        rw [List.getElem?_zip_eq_some, List.getElem?_map, hi]
        exact ⟨rfl, ha⟩
      obtain ⟨first, last, hsplit⟩ := List.append_of_mem (List.mem_of_getElem? hcall)
      have hfits := Unifier.consistent_result (hsplit ▸ hcalls) (hunified first _ last hsplit)
      rw [← hsplit] at hfits
      obtain ⟨htype, hclosed⟩ := htypes _ (List.getElem_mem hlt)
      rw [← hg.eq_self htype hclosed]
      exact hfits.isAssignable

/-- The parameter `A` is named twice, `B` meets `any` before it is bound, and no field mentions `C`. -/
theorem Definition.constructed_fields_fit_open :
    let c : Case := ⟨"Full", [⟨"a", .param "A", true⟩, ⟨"all", .array (.param "A"), true⟩,
      ⟨"b", .param "B", true⟩, ⟨"f", .function (.mk [.param "A"] (.param "B")), true⟩], true⟩
    let d : Definition := ⟨⟨"app", "main"⟩, "Box", ["A", "B", "C", "A"], true,
      [⟨"Empty", [], true⟩, c, ⟨"Full", [], true⟩]⟩
    let types : List Ty := [.int, .array .any, .any, .function (.mk [.int] .bool)]
    let head : VariantHead := ⟨d.path, d.name, d.typeParams, none⟩
    ∃ s result args t, d.constructorType c = .function s ∧ Check.resultOf? s types = some result ∧
      result.erase [] = .variant head args ∧ args = [.int, .bool, .any, .int] ∧
      d.fieldType? { head with case := some "Full" } args "f" = some t ∧
      t.isAssignable (.function (.mk [.int] .bool)) = true := by
  intro c d types head
  have hfields : ∀ f ∈ c.fields, f.type.Setless ∧ ∀ x, f.type.mentions x = true → x ∈ d.typeParams := by
    simp [c, d, Ty.setless_param, Ty.setless_array, Ty.setless_function, Signature.params, Signature.ret,
      Signature.mentions_iff]
    rintro x (rfl | rfl) <;> simp
  have htypes : ∀ t ∈ types, t.Setless ∧ t.hasParams = false := by
    simp [types, Ty.setless_primitive, Ty.setless_array, Ty.setless_function, Signature.params,
      Signature.ret]
    decide
  have hresult : Check.resultOf? (.mk (c.fields.map Field.type) d.type) types =
      some (.variant head [.int, .bool, .param "C", .int]) := by
    have hset : (Ty.variant head [.int, .bool, .param "C", .int]).Setless := by
      simp [Ty.setless_variant, Ty.setless_primitive, Ty.setless_param]
    have heq : (some (.variant head [.int, .bool, .param "C", .int]) ==
        Check.resultOf? (.mk (c.fields.map Field.type) d.type) types) = true := by
      decide +kernel
    obtain ⟨result, hresult⟩ := Option.isSome_iff_exists.mp
      (show (Check.resultOf? (.mk (c.fields.map Field.type) d.type) types).isSome by
        decide +kernel)
    rw [hresult] at heq ⊢
    exact congrArg some (hset.eq_of_beq heq).symm
  obtain ⟨args, hargs, _, hread⟩ :=
    d.constructed_fields_fit (c := c) (by rfl) hfields htypes (by rfl) hresult
  obtain ⟨a, t, ha, ht, hfit⟩ := hread 3 _ (by rfl) (by rfl)
  obtain rfl : Ty.function (.mk [.int] .bool) = a := Option.some.inj ha
  have herased : Ty.variant head [.int, .bool, .any, .int] = .variant head args := hargs
  injection herased with _ hlist
  exact ⟨_, _, args, t, rfl, hresult, hargs, hlist.symm, ht, hfit⟩

end Tern
