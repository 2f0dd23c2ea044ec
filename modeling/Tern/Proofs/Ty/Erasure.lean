import Mathlib.Data.List.Basic
import Tern.Proofs.Ty.Renaming

/-!
Erasure is a replacement: where sets of signatures have no repetition, erasing what is out of scope
puts `any` in the place of every parameter that is mentioned and is out of scope. What is left
mentions parameters in scope only.
-/

set_option autoImplicit false

namespace Tern

variable {inScope : List String} {bindings : Bindings} {x : String}

/-- `any` for every parameter that the type mentions and that is not in scope. -/
def Ty.anyOutside (inScope : List String) (t : Ty) : Bindings :=
  (t.names.filter fun x => !inScope.contains x).map fun x => (x, .any)

theorem Ty.lookup_anyOutside (t : Ty) (x : String) :
    (t.anyOutside inScope).lookup x =
      if t.mentions x = true ∧ x ∉ inScope then some .any else none := by
  have hmem : x ∈ (t.names.filter fun x => !inScope.contains x) ↔ t.mentions x = true ∧ x ∉ inScope := by
    simp [Ty.mem_names]
  split
  · rename_i h
    exact List.lookup_graph (fun _ => Ty.any) (hmem.mpr h)
  · rename_i h
    rw [List.lookup_eq_none_iff]
    intro p hp
    obtain ⟨y, hy, rfl⟩ := List.mem_map.mp hp
    rw [bne_iff_ne]
    rintro rfl
    exact h (hmem.mp hy)

theorem Ty.hasParams_iff_mentions (t : Ty) : t.hasParams = true ↔ ∃ x, t.mentions x = true := by
  rw [hasParams_iff, ne_eq, List.eq_nil_iff_forall_not_mem, not_forall_not]
  simp only [mem_names]

/-! What is left -/

theorem Signature.mentions_of_mentions_erase {s : Signature}
    (hp : ∀ t ∈ s.params, (t.erase inScope).mentions x = true → x ∈ inScope ∧ t.mentions x = true)
    (hr : (s.ret.erase inScope).mentions x = true → x ∈ inScope ∧ s.ret.mentions x = true)
    (hx : (s.erase inScope).mentions x = true) : x ∈ inScope ∧ s.mentions x = true := by
  rw [Signature.erase_eq, Signature.mentions_iff] at hx
  rw [Signature.mentions_iff]
  rcases hx with ⟨_, hmem, hx⟩ | hx
  · obtain ⟨t, ht, rfl⟩ := List.mem_map.mp hmem
    exact (hp t ht hx).imp_right fun hx => Or.inl ⟨t, ht, hx⟩
  · exact (hr hx).imp_right Or.inr

/-- Whatever is mentioned after erasure was mentioned before, and is in scope. -/
theorem Ty.mentions_of_mentions_erase {t : Ty} (hx : (t.erase inScope).mentions x = true) :
    x ∈ inScope ∧ t.mentions x = true := by
  induction t using Ty.byParts with
  | primitive p => simp [Ty.erase] at hx
  | function s ihp ihr =>
    rw [Ty.erase, Ty.mentions_function] at hx
    rw [Ty.mentions_function]
    exact Signature.mentions_of_mentions_erase ihp ihr hx
  | overloaded ss ih =>
    rw [Ty.erase] at hx
    split at hx
    · rw [Ty.mentions_overloaded, Signature.eraseAll_eq_map] at hx
      obtain ⟨_, hmem, hx⟩ := hx
      obtain ⟨s, hs, rfl⟩ := List.mem_map.mp (Overload.mem_ofList hmem)
      have h := Signature.mentions_of_mentions_erase (ih s hs).1 (ih s hs).2 hx
      exact h.imp_right fun hx => Ty.mentions_overloaded.mpr ⟨s, hs, hx⟩
    · -- a set that is left alone mentions nothing
      rename_i hnone
      exact absurd ((Ty.overloaded ss).hasParams_iff_mentions.mpr ⟨x, hx⟩) hnone
  | param y =>
    rw [Ty.erase] at hx
    split at hx
    · rename_i hy
      obtain rfl := Ty.mentions_param.mp hx
      exact ⟨List.contains_iff_mem.mp hy, hx⟩
    · simp at hx
  | variant head args ih =>
    rw [Ty.erase, Ty.mentions_variant, Ty.eraseAll_eq_map] at hx
    obtain ⟨_, hmem, hx⟩ := hx
    obtain ⟨t, ht, rfl⟩ := List.mem_map.mp hmem
    exact (ih t ht hx).imp_right fun hx => Ty.mentions_variant.mpr ⟨t, ht, hx⟩
  | array t ih =>
    rw [Ty.erase, Ty.mentions_array] at hx
    rw [Ty.mentions_array]
    exact ih hx

/-! Erasure by replacement -/

theorem Signature.replace_eq_erase {s : Signature}
    (hp : ∀ t ∈ s.params, t.Proper →
      (∀ x, t.mentions x = true → bindings.lookup x = if x ∈ inScope then none else some .any) →
        t.replace bindings = t.erase inScope)
    (hr : s.ret.Proper →
      (∀ x, s.ret.mentions x = true → bindings.lookup x = if x ∈ inScope then none else some .any) →
        s.ret.replace bindings = s.ret.erase inScope)
    (hs : s.Proper)
    (h : ∀ x, s.mentions x = true → bindings.lookup x = if x ∈ inScope then none else some .any) :
    s.replace bindings = s.erase inScope := by
  have hparts := Signature.obeys_iff.mp hs
  simp only [Signature.mentions_iff] at h
  have hmap : s.params.map (Ty.replace bindings) = s.params.map (Ty.erase inScope) :=
    List.map_congr_left fun t ht => hp t ht (hparts.1 t ht) fun x hx => h x (Or.inl ⟨t, ht, hx⟩)
  rw [Signature.replace_eq, Signature.erase_eq, hmap, hr hparts.2 fun x hx => h x (Or.inr hx)]

/-- Erasure leaves a set without parameters as it is, and replacement builds it anew. -/
theorem Ty.replace_eq_erase {t : Ty} (ht : t.Proper)
    (h : ∀ x, t.mentions x = true → bindings.lookup x = if x ∈ inScope then none else some .any) :
    t.replace bindings = t.erase inScope := by
  induction t using Ty.byParts with
  | primitive p => rw [Ty.replace, Ty.erase]
  | function s ihp ihr =>
    simp only [Ty.mentions_function] at h
    rw [Ty.replace, Ty.erase, Signature.replace_eq_erase ihp ihr (Ty.obeys_function.mp ht) h]
  | overloaded ss ih =>
    by_cases hparams : (Ty.overloaded ss).hasParams = true
    · simp only [Ty.mentions_overloaded] at h
      have hmap : ss.map (Signature.replace bindings) = ss.map (Signature.erase inScope) :=
        List.map_congr_left fun s hs => Signature.replace_eq_erase (ih s hs).1 (ih s hs).2
          ((Ty.obeys_overloaded.mp ht).2 s hs) fun x hx => h x ⟨s, hs, hx⟩
      rw [Ty.hasParams] at hparams
      rw [Ty.replace, Ty.erase, if_pos hparams, Signature.replaceAll_eq_map,
        Signature.eraseAll_eq_map, hmap]
    · have hnone : ∀ x, (Ty.overloaded ss).mentions x = true → bindings.lookup x = none :=
        fun x hx => absurd ((Ty.overloaded ss).hasParams_iff_mentions.mpr ⟨x, hx⟩) hparams
      rw [Ty.hasParams] at hparams
      rw [Ty.replace_eq_self ht hnone, Ty.erase, if_neg hparams]
  | param y =>
    rw [Ty.replace, Ty.erase, h y (Ty.mentions_param.mpr rfl)]
    by_cases hy : y ∈ inScope
    · rw [if_pos hy, if_pos (List.contains_iff_mem.mpr hy), Option.getD_none]
    · rw [if_neg hy, if_neg (List.contains_iff_mem.not.mpr hy), Option.getD_some]
  | variant head args ih =>
    simp only [Ty.mentions_variant] at h
    have hmap : args.map (Ty.replace bindings) = args.map (Ty.erase inScope) :=
      List.map_congr_left fun t hmem => ih t hmem ((Ty.obeys_variant.mp ht).2 t hmem)
        fun x hx => h x ⟨t, hmem, hx⟩
    rw [Ty.replace, Ty.erase, Ty.replaceAll_eq_map, Ty.eraseAll_eq_map, hmap]
  | array t ih =>
    simp only [Ty.mentions_array] at h
    rw [Ty.replace, Ty.erase, ih (Ty.obeys_array.mp ht) h]

theorem Ty.Proper.substitute_eq_replace {t : Ty} (ht : t.Proper) (bindings : Bindings) :
    t.substitute bindings = t.replace bindings := by
  unfold Ty.substitute
  split
  · rename_i hempty
    rw [List.isEmpty_iff.mp hempty, Ty.replace_eq_self ht fun _ _ => rfl]
  · rfl

theorem Ty.Proper.erase_eq_substitute {t : Ty} (ht : t.Proper) (inScope : List String) :
    t.erase inScope = t.substitute (t.anyOutside inScope) := by
  rw [ht.substitute_eq_replace, Ty.replace_eq_erase ht]
  intro x hx
  rw [Ty.lookup_anyOutside]
  by_cases hin : x ∈ inScope
  · simp [hin]
  · simp [hx, hin]

end Tern
