import Mathlib.Data.List.Basic
import Tern.Proofs.Ty.Mention

/-!
Other names for type parameters. What is asked of a type is asked of the name of a parameter only
for whether it is the same as another, so a renaming that keeps names apart changes no answer, and
what is made of renamed types is what is made of the types, renamed. Erasure alone asks for certain
names, the ones in scope.
-/

set_option autoImplicit false

namespace Tern

mutual
def Ty.rename (π : String → String) : Ty → Ty
  | .primitive p => .primitive p
  | .function s => .function (s.rename π)
  | .overloaded ss => .overloaded (Signature.renameAll π ss)
  | .param x => .param (π x)
  | .variant head args => .variant head (Ty.renameAll π args)
  | .array t => .array (t.rename π)
def Ty.renameAll (π : String → String) : List Ty → List Ty
  | [] => []
  | t :: ts => t.rename π :: Ty.renameAll π ts
def Signature.rename (π : String → String) : Signature → Signature
  | .mk params ret => .mk (Ty.renameAll π params) (ret.rename π)
def Signature.renameAll (π : String → String) : List Signature → List Signature
  | [] => []
  | s :: ss => s.rename π :: Signature.renameAll π ss
end

variable {π τ : String → String}

theorem Ty.renameAll_eq_map (ts : List Ty) : Ty.renameAll π ts = ts.map (Ty.rename π) := by
  induction ts with
  | nil => rfl
  | cons t ts ih => rw [Ty.renameAll, ih, List.map_cons]

theorem Ty.length_renameAll (ts : List Ty) : (Ty.renameAll π ts).length = ts.length := by
  rw [Ty.renameAll_eq_map, List.length_map]

theorem Signature.renameAll_eq_map (ss : List Signature) :
    Signature.renameAll π ss = ss.map (Signature.rename π) := by
  induction ss with
  | nil => rfl
  | cons s ss ih => rw [Signature.renameAll, ih, List.map_cons]

theorem Signature.params_rename (s : Signature) :
    (s.rename π).params = s.params.map (Ty.rename π) := by
  cases s with
  | mk ps r => rw [Signature.rename, params, params, Ty.renameAll_eq_map]

theorem Signature.ret_rename (s : Signature) : (s.rename π).ret = s.ret.rename π := by
  cases s with
  | mk ps r => rw [Signature.rename, ret, ret]

theorem Ty.isAny_rename (t : Ty) : (t.rename π).isAny = t.isAny := by
  cases t with
  | primitive p => rw [Ty.rename]
  | _ => simp [Ty.rename, Ty.isAny]

/-! Names -/

mutual
theorem Ty.names_rename (t : Ty) : (t.rename π).names = t.names.map π := by
  cases t with
  | primitive p => rw [Ty.rename, Ty.names, List.map_nil]
  | function s => rw [Ty.rename, Ty.names, Ty.names, Signature.names_rename s]
  | overloaded ss => rw [Ty.rename, Ty.names, Ty.names, Signature.namesAll_rename ss]
  | param x => rw [Ty.rename, Ty.names, Ty.names, List.map_singleton]
  | variant head args => rw [Ty.rename, Ty.names, Ty.names, Ty.namesAll_rename args]
  | array t => rw [Ty.rename, Ty.names, Ty.names, Ty.names_rename t]
theorem Ty.namesAll_rename (ts : List Ty) :
    Ty.namesAll (Ty.renameAll π ts) = (Ty.namesAll ts).map π := by
  cases ts with
  | nil => rw [Ty.renameAll, Ty.namesAll, List.map_nil]
  | cons t ts =>
    rw [Ty.renameAll, Ty.namesAll, Ty.namesAll, List.map_append, Ty.names_rename t,
      Ty.namesAll_rename ts]
theorem Signature.names_rename (s : Signature) : (s.rename π).names = s.names.map π := by
  cases s with
  | mk ps r =>
    rw [Signature.rename, Signature.names, Signature.names, List.map_append, Ty.namesAll_rename ps,
      Ty.names_rename r]
theorem Signature.namesAll_rename (ss : List Signature) :
    Signature.namesAll (Signature.renameAll π ss) = (Signature.namesAll ss).map π := by
  cases ss with
  | nil => rw [Signature.renameAll, Signature.namesAll, List.map_nil]
  | cons s ss =>
    rw [Signature.renameAll, Signature.namesAll, Signature.namesAll, List.map_append,
      Signature.names_rename s, Signature.namesAll_rename ss]
end

mutual
theorem Ty.rename_congr (t : Ty) (h : ∀ x ∈ t.names, π x = τ x) : t.rename π = t.rename τ := by
  cases t with
  | primitive p => rw [Ty.rename, Ty.rename]
  | function s =>
    rw [Ty.rename, Ty.rename, Signature.rename_congr s (by simpa only [Ty.names] using h)]
  | overloaded ss =>
    rw [Ty.rename, Ty.rename, Signature.renameAll_congr ss (by simpa only [Ty.names] using h)]
  | param x => rw [Ty.rename, Ty.rename, h x (by rw [Ty.names, List.mem_singleton])]
  | variant head args =>
    rw [Ty.rename, Ty.rename, Ty.renameAll_congr args (by simpa only [Ty.names] using h)]
  | array t => rw [Ty.rename, Ty.rename, Ty.rename_congr t (by simpa only [Ty.names] using h)]
theorem Ty.renameAll_congr (ts : List Ty) (h : ∀ x ∈ Ty.namesAll ts, π x = τ x) :
    Ty.renameAll π ts = Ty.renameAll τ ts := by
  cases ts with
  | nil => rw [Ty.renameAll, Ty.renameAll]
  | cons t ts =>
    rw [Ty.namesAll, List.forall_mem_append] at h
    rw [Ty.renameAll, Ty.renameAll, Ty.rename_congr t h.1, Ty.renameAll_congr ts h.2]
theorem Signature.rename_congr (s : Signature) (h : ∀ x ∈ s.names, π x = τ x) :
    s.rename π = s.rename τ := by
  cases s with
  | mk ps r =>
    rw [Signature.names, List.forall_mem_append] at h
    rw [Signature.rename, Signature.rename, Ty.renameAll_congr ps h.1, Ty.rename_congr r h.2]
theorem Signature.renameAll_congr (ss : List Signature)
    (h : ∀ x ∈ Signature.namesAll ss, π x = τ x) :
    Signature.renameAll π ss = Signature.renameAll τ ss := by
  cases ss with
  | nil => rw [Signature.renameAll, Signature.renameAll]
  | cons s ss =>
    rw [Signature.namesAll, List.forall_mem_append] at h
    rw [Signature.renameAll, Signature.renameAll, Signature.rename_congr s h.1,
      Signature.renameAll_congr ss h.2]
end

mutual
theorem Ty.rename_id (t : Ty) : t.rename id = t := by
  cases t with
  | primitive p => rw [Ty.rename]
  | function s => rw [Ty.rename, Signature.rename_id s]
  | overloaded ss => rw [Ty.rename, Signature.renameAll_id ss]
  | param x => rw [Ty.rename, id]
  | variant head args => rw [Ty.rename, Ty.renameAll_id args]
  | array t => rw [Ty.rename, Ty.rename_id t]
theorem Ty.renameAll_id (ts : List Ty) : Ty.renameAll id ts = ts := by
  cases ts with
  | nil => rw [Ty.renameAll]
  | cons t ts => rw [Ty.renameAll, Ty.rename_id t, Ty.renameAll_id ts]
theorem Signature.rename_id (s : Signature) : s.rename id = s := by
  cases s with
  | mk ps r => rw [Signature.rename, Ty.renameAll_id ps, Ty.rename_id r]
theorem Signature.renameAll_id (ss : List Signature) : Signature.renameAll id ss = ss := by
  cases ss with
  | nil => rw [Signature.renameAll]
  | cons s ss => rw [Signature.renameAll, Signature.rename_id s, Signature.renameAll_id ss]
end

theorem Ty.rename_eq_self {t : Ty} (h : ∀ x ∈ t.names, π x = x) : t.rename π = t :=
  (Ty.rename_congr t h).trans t.rename_id

theorem Signature.renameAll_eq_self {ss : List Signature}
    (h : ∀ x ∈ Signature.namesAll ss, π x = x) :
    Signature.renameAll π ss = ss :=
  (Signature.renameAll_congr ss h).trans (Signature.renameAll_id ss)

theorem Ty.paramCount_rename (t : Ty) : (t.rename π).paramCount = t.paramCount := by
  rw [← Ty.length_names, ← Ty.length_names, Ty.names_rename, List.length_map]

theorem Ty.paramCounts_rename (ts : List Ty) :
    Ty.paramCounts (ts.map (Ty.rename π)) = Ty.paramCounts ts := by
  rw [← Ty.length_namesAll, ← Ty.length_namesAll, ← Ty.renameAll_eq_map, Ty.namesAll_rename,
    List.length_map]

mutual
theorem Ty.hasParams_iff (t : Ty) : t.hasParams = true ↔ t.names ≠ [] := by
  cases t with
  | primitive p => simp [Ty.hasParams, Ty.names]
  | function s => rw [Ty.hasParams, Ty.names, Signature.hasParams_iff s]
  | overloaded ss => rw [Ty.hasParams, Ty.names, Signature.anyHasParams_iff ss]
  | param x => simp [Ty.hasParams, Ty.names]
  | variant head args => rw [Ty.hasParams, Ty.names, Ty.anyHasParams_iff args]
  | array t => rw [Ty.hasParams, Ty.names, Ty.hasParams_iff t]
theorem Ty.anyHasParams_iff (ts : List Ty) : Ty.anyHasParams ts = true ↔ Ty.namesAll ts ≠ [] := by
  cases ts with
  | nil => simp [Ty.anyHasParams, Ty.namesAll]
  | cons t ts =>
    rw [Ty.anyHasParams, Ty.namesAll, Bool.or_eq_true, Ty.hasParams_iff t, Ty.anyHasParams_iff ts,
      ne_eq, ne_eq, ne_eq, List.append_eq_nil_iff, not_and_or]
theorem Signature.hasParams_iff (s : Signature) : s.hasParams = true ↔ s.names ≠ [] := by
  cases s with
  | mk ps r =>
    rw [Signature.hasParams, Signature.names, Bool.or_eq_true, Ty.anyHasParams_iff ps,
      Ty.hasParams_iff r, ne_eq, ne_eq, ne_eq, List.append_eq_nil_iff, not_and_or]
theorem Signature.anyHasParams_iff (ss : List Signature) :
    Signature.anyHasParams ss = true ↔ Signature.namesAll ss ≠ [] := by
  cases ss with
  | nil => simp [Signature.anyHasParams, Signature.namesAll]
  | cons s ss =>
    rw [Signature.anyHasParams, Signature.namesAll, Bool.or_eq_true, Signature.hasParams_iff s,
      Signature.anyHasParams_iff ss, ne_eq, ne_eq, ne_eq, List.append_eq_nil_iff, not_and_or]
end

theorem Ty.hasParams_rename (t : Ty) : (t.rename π).hasParams = t.hasParams := by
  rw [Bool.eq_iff_iff, Ty.hasParams_iff, Ty.hasParams_iff, Ty.names_rename, ne_eq,
    List.map_eq_nil_iff]

theorem Ty.any_if_hasParams_rename (t : Ty) :
    (if (t.rename π).hasParams then .any else t.rename π) = if t.hasParams then .any else t := by
  rw [Ty.hasParams_rename]
  split
  · rfl
  · rename_i hnone
    rw [Ty.hasParams_iff, not_not] at hnone
    exact Ty.rename_eq_self (by simp [hnone])

/-! Names that are kept apart -/

mutual
theorem Ty.equals_rename (hπ : π.Injective) (turned : Bool) (a b : Ty) :
    (a.rename π).equals turned (b.rename π) = a.equals turned b := by
  cases a with
  | primitive p => cases b <;> simp [Ty.rename, Ty.equals]
  | function s =>
    cases b with
    | function t =>
      rw [Ty.rename, Ty.rename, Ty.equals, Ty.equals, Signature.equals_rename hπ turned s t]
    | _ => simp [Ty.rename, Ty.equals]
  | overloaded ss =>
    cases b with
    | overloaded ts =>
      have hmet (t : Signature) := Signature.isMet_rename hπ ss t
      have hall := Signature.areMet_rename hπ ss ts
      rw [Ty.rename, Ty.rename, Ty.equals, Ty.equals, hall, Signature.renameAll_eq_map ts,
        List.all_map, List.length_map, Signature.renameAll_eq_map ss, List.length_map,
        ← Signature.renameAll_eq_map ss]
      congr 3
      exact funext hmet
    | _ => simp [Ty.rename, Ty.equals]
  | param x =>
    cases b with
    | param y =>
      rw [Ty.rename, Ty.rename, Ty.equals, Ty.equals, Bool.eq_iff_iff, beq_iff_eq, beq_iff_eq,
        hπ.eq_iff]
    | _ => simp [Ty.rename, Ty.equals]
  | variant h as =>
    cases b with
    | variant k bs =>
      rw [Ty.rename, Ty.rename, Ty.equals, Ty.equals, Ty.allEqual_rename hπ turned as bs]
    | _ => simp [Ty.rename, Ty.equals]
  | array a =>
    cases b with
    | array b => rw [Ty.rename, Ty.rename, Ty.equals, Ty.equals, Ty.equals_rename hπ turned a b]
    | _ => simp [Ty.rename, Ty.equals]
termination_by structural a
theorem Ty.allEqual_rename (hπ : π.Injective) (turned : Bool) (as bs : List Ty) :
    Ty.allEqual turned (Ty.renameAll π as) (Ty.renameAll π bs) = Ty.allEqual turned as bs := by
  cases as with
  | nil => cases bs <;> simp [Ty.renameAll, Ty.allEqual]
  | cons a as =>
    cases bs with
    | nil => simp [Ty.renameAll, Ty.allEqual]
    | cons b bs =>
      rw [Ty.renameAll, Ty.renameAll, Ty.allEqual, Ty.allEqual, Ty.equals_rename hπ turned a b,
        Ty.allEqual_rename hπ turned as bs]
termination_by structural as
theorem Signature.equals_rename (hπ : π.Injective) (turned : Bool) (s t : Signature) :
    (s.rename π).equals turned (t.rename π) = s.equals turned t := by
  cases s with
  | mk ps r =>
    cases t with
    | mk qs q =>
      rw [Signature.rename, Signature.rename, Signature.equals, Signature.equals,
        Ty.allEqual_rename hπ turned ps qs, Ty.equals_rename hπ turned r q]
termination_by structural s
theorem Signature.isMet_rename (hπ : π.Injective) (ss : List Signature) (t : Signature) :
    Signature.isMet (Signature.renameAll π ss) (t.rename π) = Signature.isMet ss t := by
  cases ss with
  | nil => rw [Signature.renameAll, Signature.isMet, Signature.isMet]
  | cons s ss =>
    rw [Signature.renameAll, Signature.isMet, Signature.isMet, Signature.equals_rename hπ false s t,
      Signature.isMet_rename hπ ss t]
termination_by structural ss
theorem Signature.areMet_rename (hπ : π.Injective) (ss ts : List Signature) :
    Signature.areMet (Signature.renameAll π ss) (Signature.renameAll π ts) =
      Signature.areMet ss ts := by
  cases ss with
  | nil => rw [Signature.renameAll, Signature.areMet, Signature.areMet]
  | cons s ss =>
    have hs (t : Signature) := Signature.equals_rename hπ true s t
    rw [Signature.renameAll, Signature.areMet, Signature.areMet, Signature.areMet_rename hπ ss ts,
      Signature.renameAll_eq_map ts, List.any_map]
    congr 2
    exact funext hs
termination_by structural ss
end

section

variable (hπ : π.Injective)
include hπ

theorem Ty.mentions_rename (t : Ty) (x : String) : (t.rename π).mentions (π x) = t.mentions x := by
  rw [Bool.eq_iff_iff, ← Ty.mem_names, ← Ty.mem_names, Ty.names_rename,
    List.mem_map_of_injective hπ]

theorem Ty.beq_rename (a b : Ty) : (a.rename π == b.rename π) = (a == b) :=
  Ty.equals_rename hπ false a b

theorem Ty.beq_map_rename (as bs : List Ty) :
    (as.map (Ty.rename π) == bs.map (Ty.rename π)) = (as == bs) := by
  induction as generalizing bs with
  | nil => cases bs <;> rfl
  | cons a as ih =>
    cases bs with
    | nil => rfl
    | cons b bs =>
      rw [List.map_cons, List.map_cons, List.cons_beq_cons, List.cons_beq_cons,
        Ty.beq_rename hπ, ih]

theorem Overload.insert_rename (s : Signature) (ss : List Signature) :
    insert (s.rename π) (ss.map (Signature.rename π)) = (insert s ss).map (Signature.rename π) := by
  induction ss with
  | nil => rfl
  | cons t ss ih =>
    rw [List.map_cons, insert, insert, Signature.params_rename, Signature.params_rename,
      Ty.beq_map_rename hπ, ih]
    split
    · rfl
    · rfl

theorem Overload.extend_rename (ss more : List Signature) :
    extend (ss.map (Signature.rename π)) (more.map (Signature.rename π)) =
      (extend ss more).map (Signature.rename π) := by
  induction more generalizing ss with
  | nil => rfl
  | cons s more ih =>
    have hinsert := ih (insert s ss)
    rw [← insert_rename hπ] at hinsert
    exact hinsert

theorem Overload.ofList_rename (ss : List Signature) :
    ofList (ss.map (Signature.rename π)) = (ofList ss).map (Signature.rename π) :=
  extend_rename hπ [] ss

end

/-! Replacement -/

def Bindings.rename (π : String → String) (b : Bindings) : Bindings :=
  b.map fun p => (π p.1, p.2.rename π)

theorem Bindings.lookup_rename (hπ : π.Injective) (b : Bindings) (x : String) :
    (b.rename π).lookup (π x) = (b.lookup x).map (Ty.rename π) := by
  induction b with
  | nil => rfl
  | cons p b ih =>
    have hsame : (π x == π p.1) = (x == p.1) := by
      rw [Bool.eq_iff_iff, beq_iff_eq, beq_iff_eq, hπ.eq_iff]
    rw [rename, List.map_cons, List.lookup_cons, List.lookup_cons, hsame, ← rename, ih]
    cases x == p.1 <;> rfl

section

variable {b : Bindings}

mutual
theorem Ty.replace_rename (hπ : π.Injective) (t : Ty) :
    (t.rename π).replace (b.rename π) = (t.replace b).rename π := by
  cases t with
  | primitive p => rw [Ty.rename, Ty.replace, Ty.replace, Ty.rename]
  | function s =>
    rw [Ty.rename, Ty.replace, Ty.replace, Ty.rename, Signature.replace_rename hπ s]
  | overloaded ss =>
    rw [Ty.rename, Ty.replace, Ty.replace, Ty.rename, Signature.replaceAll_rename hπ ss,
      Signature.renameAll_eq_map, Signature.renameAll_eq_map, Overload.ofList_rename hπ]
  | param x =>
    rw [Ty.rename, Ty.replace, Ty.replace, Bindings.lookup_rename hπ]
    cases b.lookup x with
    | none => rw [Option.map_none, Option.getD_none, Option.getD_none, Ty.rename]
    | some t => rw [Option.map_some, Option.getD_some, Option.getD_some]
  | variant head args =>
    rw [Ty.rename, Ty.replace, Ty.replace, Ty.rename, Ty.replaceAll_rename hπ args]
  | array t => rw [Ty.rename, Ty.replace, Ty.replace, Ty.rename, Ty.replace_rename hπ t]
theorem Ty.replaceAll_rename (hπ : π.Injective) (ts : List Ty) :
    Ty.replaceAll (b.rename π) (Ty.renameAll π ts) = Ty.renameAll π (Ty.replaceAll b ts) := by
  cases ts with
  | nil => rw [Ty.renameAll, Ty.replaceAll, Ty.replaceAll, Ty.renameAll]
  | cons t ts =>
    rw [Ty.renameAll, Ty.replaceAll, Ty.replaceAll, Ty.renameAll, Ty.replace_rename hπ t,
      Ty.replaceAll_rename hπ ts]
theorem Signature.replace_rename (hπ : π.Injective) (s : Signature) :
    (s.rename π).replace (b.rename π) = (s.replace b).rename π := by
  cases s with
  | mk ps r =>
    rw [Signature.rename, Signature.replace, Signature.replace, Signature.rename,
      Ty.replaceAll_rename hπ ps, Ty.replace_rename hπ r]
theorem Signature.replaceAll_rename (hπ : π.Injective) (ss : List Signature) :
    Signature.replaceAll (b.rename π) (Signature.renameAll π ss) =
      Signature.renameAll π (Signature.replaceAll b ss) := by
  cases ss with
  | nil => rw [Signature.renameAll, Signature.replaceAll, Signature.replaceAll, Signature.renameAll]
  | cons s ss =>
    rw [Signature.renameAll, Signature.replaceAll, Signature.replaceAll, Signature.renameAll,
      Signature.replace_rename hπ s, Signature.replaceAll_rename hπ ss]
end

theorem Ty.substitute_rename (hπ : π.Injective) (t : Ty) :
    (t.rename π).substitute (b.rename π) = (t.substitute b).rename π := by
  have hempty : (b.rename π).isEmpty = b.isEmpty := by rw [Bindings.rename, List.isEmpty_map]
  rw [Ty.substitute, Ty.substitute, hempty, Ty.replace_rename hπ]
  split
  · rfl
  · rfl

end

/-! Erasure -/

section

variable {inScope : List String}

mutual
/-- Names that are in scope keep their names, and no other gets the name of one of them. -/
theorem Ty.erase_rename (t : Ty) (h : ∀ x ∈ t.names, π x = x ∨ x ∉ inScope ∧ π x ∉ inScope) :
    (t.rename π).erase inScope = t.erase inScope := by
  cases t with
  | primitive p => rw [Ty.rename]
  | function s =>
    rw [Ty.rename, Ty.erase, Ty.erase, Signature.erase_rename s (by simpa only [Ty.names] using h)]
  | overloaded ss =>
    have hall := Signature.eraseAll_rename ss (by simpa only [Ty.names] using h)
    rw [Ty.rename, Ty.erase, Ty.erase, hall]
    cases hss : Signature.anyHasParams ss with
    | false =>
      have hnone : Signature.namesAll ss = [] := by
        by_contra hne
        exact Bool.eq_false_iff.mp hss ((Signature.anyHasParams_iff ss).mpr hne)
      rw [Signature.renameAll_eq_self (by simp [hnone]), hss]
    | true =>
      have hsome : Signature.anyHasParams (Signature.renameAll π ss) = true := by
        rw [Signature.anyHasParams_iff, Signature.namesAll_rename, ne_eq, List.map_eq_nil_iff]
        exact (Signature.anyHasParams_iff ss).mp hss
      rw [hsome, if_pos rfl, if_pos rfl]
  | param x =>
    rcases h x (by rw [Ty.names, List.mem_singleton]) with hx | ⟨hx, hx'⟩
    · rw [Ty.rename, hx]
    · rw [Ty.rename, Ty.erase, Ty.erase, if_neg (by simpa using hx'), if_neg (by simpa using hx)]
  | variant head args =>
    rw [Ty.rename, Ty.erase, Ty.erase, Ty.eraseAll_rename args (by simpa only [Ty.names] using h)]
  | array t =>
    rw [Ty.rename, Ty.erase, Ty.erase, Ty.erase_rename t (by simpa only [Ty.names] using h)]
theorem Ty.eraseAll_rename (ts : List Ty)
    (h : ∀ x ∈ Ty.namesAll ts, π x = x ∨ x ∉ inScope ∧ π x ∉ inScope) :
    Ty.eraseAll inScope (Ty.renameAll π ts) = Ty.eraseAll inScope ts := by
  cases ts with
  | nil => rw [Ty.renameAll]
  | cons t ts =>
    rw [Ty.namesAll, List.forall_mem_append] at h
    rw [Ty.renameAll, Ty.eraseAll, Ty.eraseAll, Ty.erase_rename t h.1, Ty.eraseAll_rename ts h.2]
theorem Signature.erase_rename (s : Signature)
    (h : ∀ x ∈ s.names, π x = x ∨ x ∉ inScope ∧ π x ∉ inScope) :
    (s.rename π).erase inScope = s.erase inScope := by
  cases s with
  | mk ps r =>
    rw [Signature.names, List.forall_mem_append] at h
    rw [Signature.rename, Signature.erase, Signature.erase, Ty.eraseAll_rename ps h.1,
      Ty.erase_rename r h.2]
theorem Signature.eraseAll_rename (ss : List Signature)
    (h : ∀ x ∈ Signature.namesAll ss, π x = x ∨ x ∉ inScope ∧ π x ∉ inScope) :
    Signature.eraseAll inScope (Signature.renameAll π ss) = Signature.eraseAll inScope ss := by
  cases ss with
  | nil => rw [Signature.renameAll]
  | cons s ss =>
    rw [Signature.namesAll, List.forall_mem_append] at h
    rw [Signature.renameAll, Signature.eraseAll, Signature.eraseAll, Signature.erase_rename s h.1,
      Signature.eraseAll_rename ss h.2]
end

end

end Tern
