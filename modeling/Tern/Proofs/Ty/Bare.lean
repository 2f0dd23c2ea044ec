import Tern.Proofs.Ty.Mention

/-!
Types up to what is inside their sets of signatures. Equality of sets is a relation of its own, but
equal types are the same outside of sets; and replacing parameters brings in there only what their
types mention outside of sets.
-/

set_option autoImplicit false

namespace Tern

mutual
/-- The type with all its sets left empty. -/
def Ty.bare : Ty → Ty
  | .primitive p => .primitive p
  | .function s => .function s.bare
  | .overloaded _ => .overloaded []
  | .param x => .param x
  | .variant head args => .variant head (Ty.bareAll args)
  | .array t => .array t.bare
def Ty.bareAll : List Ty → List Ty
  | [] => []
  | t :: ts => t.bare :: Ty.bareAll ts
def Signature.bare : Signature → Signature
  | .mk params ret => .mk (Ty.bareAll params) ret.bare
end

theorem Ty.bareAll_eq_map (ts : List Ty) : bareAll ts = ts.map bare := by
  induction ts with
  | nil => rfl
  | cons t ts ih => rw [bareAll, ih, List.map_cons]

theorem Signature.bare_eq (s : Signature) : s.bare = .mk (s.params.map Ty.bare) s.ret.bare := by
  cases s with
  | mk ps r => rw [Signature.bare, Ty.bareAll_eq_map, params, ret]

namespace Ty

theorem bareAll_eq_of_beq {as bs : List Ty}
    (h : ∀ a ∈ as, ∀ b : Ty, (a == b) = true → a.bare = b.bare) (heq : (as == bs) = true) :
    bareAll as = bareAll bs := by
  induction as generalizing bs with
  | nil =>
    cases bs with
    | nil => rfl
    | cons b bs => cases heq
  | cons a as ih =>
    cases bs with
    | nil => cases heq
    | cons b bs =>
      rw [List.forall_mem_cons] at h
      rw [List.cons_beq_cons, Bool.and_eq_true] at heq
      rw [bareAll, bareAll, h.1 b heq.1, ih h.2 heq.2]

/-- Equality of sets is a relation of its own, but equal types are the same outside of sets. -/
theorem bare_eq_of_beq {a b : Ty} (h : (a == b) = true) : a.bare = b.bare := by
  induction a using Ty.byParts generalizing b with
  | primitive p | param x =>
    rcases Ty.cases_of_beq h with rfl | ⟨_, _, h, _⟩ | ⟨_, _, h, _⟩ | ⟨_, _, _, h, _⟩ | ⟨_, _, h, _⟩
    · rfl
    all_goals cases h
  | function s ihp ihr =>
    cases b with
    | function t =>
      rw [Ty.function_beq, Signature.beq_iff] at h
      rw [bare, bare, Signature.bare_eq, Signature.bare_eq, ← bareAll_eq_map, ← bareAll_eq_map,
        bareAll_eq_of_beq ihp h.1, ihr h.2]
    | _ => cases h
  | overloaded ss _ =>
    cases b with
    | overloaded ts => rfl
    | _ => cases h
  | variant head as ih =>
    cases b with
    | variant head' bs =>
      obtain ⟨rfl, hargs⟩ := Ty.variant_beq_iff.mp h
      rw [bare, bare, bareAll_eq_of_beq ih hargs]
    | _ => cases h
  | array t ih =>
    cases b with
    | array u =>
      rw [Ty.array_beq] at h
      rw [bare, bare, ih h]
    | _ => cases h

theorem mentions_of_mentions_bare {t : Ty} {x : String} (hx : t.bare.mentions x = true) :
    t.mentions x = true := by
  induction t using Ty.byParts with
  | primitive p => exact hx
  | function s ihp ihr =>
    rw [bare, mentions_function, Signature.bare_eq, Signature.mentions_iff] at hx
    rw [mentions_function, Signature.mentions_iff]
    rcases hx with ⟨_, hmem, hx⟩ | hx
    · obtain ⟨t, ht, rfl⟩ := List.mem_map.mp hmem
      exact Or.inl ⟨t, ht, ihp t ht hx⟩
    · exact Or.inr (ihr hx)
  | overloaded ss _ =>
    obtain ⟨_, hmem, _⟩ := mentions_overloaded.mp hx
    cases hmem
  | param y => exact hx
  | variant head args ih =>
    rw [bare, bareAll_eq_map, mentions_variant] at hx
    obtain ⟨_, hmem, hx⟩ := hx
    obtain ⟨t, ht, rfl⟩ := List.mem_map.mp hmem
    exact mentions_variant.mpr ⟨t, ht, ih t ht hx⟩
  | array t ih =>
    rw [bare, mentions_array] at hx
    exact mentions_array.trans (ih hx)

/-- Bindings to what the types are outside of sets. -/
theorem lookup_map_bare (b : Bindings) (x : String) :
    (b.map (Prod.map id bare)).lookup x = (b.lookup x).map bare := by
  induction b with
  | nil => rfl
  | cons p b ih =>
    rw [List.map_cons, Prod.map, List.lookup_cons, List.lookup_cons, id, ih]
    cases x == p.1 <;> rfl

/-- What is outside of sets after a replacement comes from what was outside of them before. -/
theorem bare_replace (b : Bindings) (t : Ty) :
    (t.replace b).bare = t.bare.replace (b.map (Prod.map id bare)) := by
  induction t using Ty.byParts with
  | primitive p => rw [replace, bare, replace]
  | function s ihp ihr =>
    rw [replace, bare, bare, replace, Signature.replace_eq, Signature.bare_eq, Signature.bare_eq,
      Signature.replace_eq, Signature.params, Signature.params, Signature.ret, Signature.ret, ihr,
      List.map_map, List.map_map]
    congr 2
    exact List.map_congr_left ihp
  | overloaded ss _ => rw [replace, bare, bare, replace, Signature.replaceAll_eq_map]; rfl
  | param x =>
    rw [replace, bare, replace, lookup_map_bare]
    cases b.lookup x <;> rfl
  | variant head args ih =>
    rw [replace, bare, bare, replace, replaceAll_eq_map, replaceAll_eq_map, bareAll_eq_map,
      bareAll_eq_map, List.map_map, List.map_map]
    congr 1
    exact List.map_congr_left ih
  | array t ih => rw [replace, bare, bare, replace, ih]

end Ty

end Tern
