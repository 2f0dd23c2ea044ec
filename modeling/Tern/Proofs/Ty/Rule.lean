import Tern.Ty.Resolve
import Tern.Ty.Unify

/-!
What is asked of every part of a type. A rule speaks about the references to variant types and about
the sets of signatures inside; a type obeys it if they do, at any depth. If a rule is stable, nothing
that is done with types leads out of it: declaring a name again, erasing, replacing and binding
parameters, and reading a written type.
-/

set_option autoImplicit false

namespace Tern

/-! Types by their parts -/

section Parts

variable {motive : Ty → Prop} (primitive : ∀ p, motive (.primitive p))
  (function : ∀ s, (∀ t ∈ s.params, motive t) → motive s.ret → motive (.function s))
  (overloaded : ∀ ss, (∀ s ∈ ss, (∀ t ∈ s.params, motive t) ∧ motive s.ret) → motive (.overloaded ss))
  (param : ∀ x, motive (.param x))
  (variant : ∀ head args, (∀ t ∈ args, motive t) → motive (.variant head args))
  (array : ∀ t, motive t → motive (.array t))
include primitive function overloaded param variant array

/-- A property of types is proved from the types that are parts, the members of sets included. -/
@[elab_as_elim] theorem Ty.byParts (t : Ty) : motive t := by
  refine Ty.rec (motive_1 := motive)
    (motive_2 := fun s => (∀ t ∈ s.params, motive t) ∧ motive s.ret)
    (motive_3 := fun ss => ∀ s ∈ ss, (∀ t ∈ s.params, motive t) ∧ motive s.ret)
    (motive_4 := fun ts => ∀ t ∈ ts, motive t) primitive (fun s hs => function s hs.1 hs.2)
    overloaded param variant array (fun ps r hps hr => ⟨hps, hr⟩) ?_ ?_ ?_ ?_ t
  · simp
  · exact fun s ss hs hss => List.forall_mem_cons.mpr ⟨hs, hss⟩
  · simp
  · exact fun t ts ht hts => List.forall_mem_cons.mpr ⟨ht, hts⟩

end Parts

theorem Ty.eraseAll_eq_map (names : List String) (ts : List Ty) :
    Ty.eraseAll names ts = ts.map (Ty.erase names) := by
  induction ts with
  | nil => rfl
  | cons t ts ih => rw [Ty.eraseAll, ih, List.map_cons]

theorem Signature.eraseAll_eq_map (names : List String) (ss : List Signature) :
    Signature.eraseAll names ss = ss.map (Signature.erase names) := by
  induction ss with
  | nil => rfl
  | cons s ss ih => rw [Signature.eraseAll, ih, List.map_cons]

theorem Ty.replaceAll_eq_map (bindings : Bindings) (ts : List Ty) :
    Ty.replaceAll bindings ts = ts.map (Ty.replace bindings) := by
  induction ts with
  | nil => rfl
  | cons t ts ih => rw [Ty.replaceAll, ih, List.map_cons]

theorem Signature.replaceAll_eq_map (bindings : Bindings) (ss : List Signature) :
    Signature.replaceAll bindings ss = ss.map (Signature.replace bindings) := by
  induction ss with
  | nil => rfl
  | cons s ss ih => rw [Signature.replaceAll, ih, List.map_cons]

theorem Signature.erase_eq {names : List String} (s : Signature) :
    s.erase names = .mk (s.params.map (Ty.erase names)) (s.ret.erase names) := by
  cases s with
  | mk ps r => rw [Signature.erase, Ty.eraseAll_eq_map, params, ret]

theorem Signature.replace_eq {bindings : Bindings} (s : Signature) :
    s.replace bindings = .mk (s.params.map (Ty.replace bindings)) (s.ret.replace bindings) := by
  cases s with
  | mk ps r => rw [Signature.replace, Ty.replaceAll_eq_map, params, ret]

structure TypeRule where
  /-- Asked of a reference to a variant type with its arguments. -/
  variant : VariantHead → List Ty → Prop
  /-- Asked of a set of signatures. -/
  set : List Signature → Prop

mutual
/-- The rule holds at every place inside the type. -/
def Ty.Obeys (rule : TypeRule) : Ty → Prop
  | .primitive _ => True
  | .function s => s.Obeys rule
  | .overloaded ss => rule.set ss ∧ Signature.AllObey rule ss
  | .param _ => True
  | .variant head args => rule.variant head args ∧ Ty.AllObey rule args
  | .array t => t.Obeys rule
def Ty.AllObey (rule : TypeRule) : List Ty → Prop
  | [] => True
  | t :: ts => t.Obeys rule ∧ Ty.AllObey rule ts
def Signature.Obeys (rule : TypeRule) : Signature → Prop
  | .mk params ret => Ty.AllObey rule params ∧ ret.Obeys rule
def Signature.AllObey (rule : TypeRule) : List Signature → Prop
  | [] => True
  | s :: ss => s.Obeys rule ∧ Signature.AllObey rule ss
end

/-- The rule is kept by every operation on types: a reference may get other arguments, as many as it
had or as the type has parameters, and another case, and a signature may be inserted into a set. -/
structure TypeRule.Stable (rule : TypeRule) : Prop where
  args : ∀ head as bs, bs.length = as.length → rule.variant head as → rule.variant head bs
  applied : ∀ head as bs, bs.length = head.typeParams.length → rule.variant head as →
    rule.variant head bs
  case : ∀ head args case, rule.variant head args → rule.variant { head with case } args
  empty : rule.set []
  insert : ∀ s ss, s.Obeys rule → (∀ t ∈ ss, t.Obeys rule) → rule.set ss →
    rule.set (Overload.insert s ss)

section

variable {rule : TypeRule}

theorem Ty.allObey_iff {ts : List Ty} : Ty.AllObey rule ts ↔ ∀ t ∈ ts, t.Obeys rule := by
  induction ts with
  | nil => simp [Ty.AllObey]
  | cons t ts ih => simp [Ty.AllObey, ih]

theorem Signature.allObey_iff {ss : List Signature} :
    Signature.AllObey rule ss ↔ ∀ s ∈ ss, s.Obeys rule := by
  induction ss with
  | nil => simp [Signature.AllObey]
  | cons s ss ih => simp [Signature.AllObey, ih]

theorem Signature.obeys_iff {s : Signature} :
    s.Obeys rule ↔ (∀ t ∈ s.params, t.Obeys rule) ∧ s.ret.Obeys rule := by
  cases s with
  | mk ps r => rw [Signature.Obeys, Ty.allObey_iff, Signature.params, Signature.ret]

theorem Signature.obeys_map {f : Ty → Ty} {s : Signature} (h : s.Obeys rule)
    (hp : ∀ t ∈ s.params, t.Obeys rule → (f t).Obeys rule)
    (hr : s.ret.Obeys rule → (f s.ret).Obeys rule) :
    (Signature.mk (s.params.map f) (f s.ret)).Obeys rule := by
  rw [Signature.obeys_iff] at h ⊢
  exact ⟨List.forall_mem_map.mpr fun t ht => hp t ht (h.1 t ht), hr h.2⟩

theorem Ty.obeys_function {s : Signature} : (Ty.function s).Obeys rule ↔ s.Obeys rule := by
  rw [Ty.Obeys]

theorem Ty.obeys_overloaded {ss : List Signature} :
    (Ty.overloaded ss).Obeys rule ↔ rule.set ss ∧ ∀ s ∈ ss, s.Obeys rule := by
  rw [Ty.Obeys, Signature.allObey_iff]

theorem Ty.obeys_variant {head : VariantHead} {args : List Ty} :
    (Ty.variant head args).Obeys rule ↔ rule.variant head args ∧ ∀ t ∈ args, t.Obeys rule := by
  rw [Ty.Obeys, Ty.allObey_iff]

theorem Ty.obeys_array {t : Ty} : (Ty.array t).Obeys rule ↔ t.Obeys rule := by rw [Ty.Obeys]

@[simp] theorem Ty.obeys_primitive (p : Primitive) : (Ty.primitive p).Obeys rule := by
  simp [Ty.Obeys]

@[simp] theorem Ty.obeys_param (x : String) : (Ty.param x).Obeys rule := by simp [Ty.Obeys]

/-- The generic type of a definition has only parameters for arguments. -/
theorem Ty.obeys_generic {path : PackagePath} {name : String} {typeParams : List String}
    (h : rule.variant ⟨path, name, typeParams, none⟩ (typeParams.map .param)) :
    (Ty.generic path name typeParams).Obeys rule := by
  rw [Ty.generic, Ty.obeys_variant]
  refine ⟨h, ?_⟩
  intro t ht
  obtain ⟨x, _, rfl⟩ := List.mem_map.mp ht
  exact Ty.obeys_param x

theorem Ty.Obeys.mono {weak : TypeRule}
    (hv : ∀ head args, rule.variant head args → weak.variant head args)
    (hs : ∀ ss, rule.set ss → weak.set ss) {t : Ty} (h : t.Obeys rule) : t.Obeys weak := by
  induction t using Ty.byParts with
  | primitive p => exact Ty.obeys_primitive p
  | function s ihp ihr =>
    rw [Ty.obeys_function, Signature.obeys_iff] at h ⊢
    exact ⟨fun t ht => ihp t ht (h.1 t ht), ihr h.2⟩
  | overloaded ss ih =>
    rw [Ty.obeys_overloaded] at h ⊢
    refine ⟨hs ss h.1, ?_⟩
    intro s hmem
    have hobeys := Signature.obeys_iff.mp (h.2 s hmem)
    exact Signature.obeys_iff.mpr
      ⟨fun t ht => (ih s hmem).1 t ht (hobeys.1 t ht), (ih s hmem).2 hobeys.2⟩
  | param x => exact Ty.obeys_param x
  | variant head args ih =>
    rw [Ty.obeys_variant] at h ⊢
    exact ⟨hv head args h.1, fun t ht => ih t ht (h.2 t ht)⟩
  | array t ih =>
    rw [Ty.obeys_array] at h ⊢
    exact ih h

/-! Sets of signatures -/

theorem Overload.mem_insert {s t : Signature} {ss : List Signature} (h : t ∈ insert s ss) :
    t = s ∨ t ∈ ss := by
  induction ss with
  | nil => exact Or.inl (List.mem_singleton.mp h)
  | cons u ss ih =>
    rw [insert] at h
    split at h
    · rcases List.mem_cons.mp h with h | h
      · exact Or.inl h
      · exact Or.inr (List.mem_cons_of_mem u h)
    · rcases List.mem_cons.mp h with h | h
      · exact Or.inr (h ▸ List.mem_cons_self)
      · exact (ih h).imp_right (List.mem_cons_of_mem u)

namespace TypeRule.Stable

variable (hr : rule.Stable)
include hr

theorem obeys_insert {s : Signature} {ss : List Signature} (hs : s.Obeys rule)
    (h : (Ty.overloaded ss).Obeys rule) : (Ty.overloaded (Overload.insert s ss)).Obeys rule := by
  rw [Ty.obeys_overloaded] at h ⊢
  refine ⟨hr.insert s ss hs h.2 h.1, ?_⟩
  intro t ht
  rcases Overload.mem_insert ht with rfl | ht
  · exact hs
  · exact h.2 t ht

theorem obeys_extend {more : List Signature} (hm : ∀ s ∈ more, s.Obeys rule) {ss : List Signature}
    (h : (Ty.overloaded ss).Obeys rule) : (Ty.overloaded (Overload.extend ss more)).Obeys rule := by
  induction more generalizing ss with
  | nil => exact h
  | cons s more ih =>
    exact ih (fun t ht => hm t (List.mem_cons_of_mem s ht))
      (hr.obeys_insert (hm s List.mem_cons_self) h)

theorem obeys_ofList {ss : List Signature} (h : ∀ s ∈ ss, s.Obeys rule) :
    (Ty.overloaded (Overload.ofList ss)).Obeys rule :=
  hr.obeys_extend h (Ty.obeys_overloaded.mpr ⟨hr.empty, by simp⟩)

/-- The type of a name that is declared again. -/
theorem redeclare {old new : Ty} (ho : old.Obeys rule) (hn : new.Obeys rule) :
    (old.redeclare new).Obeys rule := by
  unfold Ty.redeclare
  split
  · rename_i s t
    rw [Ty.obeys_function] at ho hn
    split
    · exact Ty.obeys_function.mpr hn
    · apply hr.obeys_ofList
      simpa using ⟨ho, hn⟩
  · exact hr.obeys_insert (Ty.obeys_function.mp hn) ho
  · rename_i s ss
    have hs : (Ty.overloaded (Overload.ofList [s])).Obeys rule :=
      hr.obeys_ofList (by simpa using Ty.obeys_function.mp ho)
    exact hr.obeys_extend (Ty.obeys_overloaded.mp hn).2 hs
  · exact hr.obeys_extend (Ty.obeys_overloaded.mp hn).2 ho
  · exact hn

/-! Erasing and replacing parameters -/

theorem obeys_map_variant {f : Ty → Ty} {head : VariantHead} {args : List Ty}
    (h : (Ty.variant head args).Obeys rule) (hf : ∀ t ∈ args, t.Obeys rule → (f t).Obeys rule) :
    (Ty.variant head (args.map f)).Obeys rule := by
  rw [Ty.obeys_variant] at h ⊢
  refine ⟨hr.args head args _ (List.length_map f) h.1, ?_⟩
  intro t ht
  obtain ⟨a, ha, rfl⟩ := List.mem_map.mp ht
  exact hf a ha (h.2 a ha)

theorem erase (names : List String) {t : Ty} (h : t.Obeys rule) : (t.erase names).Obeys rule := by
  induction t using Ty.byParts with
  | primitive p => simp [Ty.erase]
  | function s ihp ihr =>
    rw [Ty.erase, Ty.obeys_function, Signature.erase_eq]
    exact Signature.obeys_map (Ty.obeys_function.mp h) ihp ihr
  | overloaded ss ih =>
    rw [Ty.erase]
    split
    · rw [Signature.eraseAll_eq_map]
      apply hr.obeys_ofList
      intro s hs
      obtain ⟨a, ha, rfl⟩ := List.mem_map.mp hs
      rw [Signature.erase_eq]
      exact Signature.obeys_map ((Ty.obeys_overloaded.mp h).2 a ha) (ih a ha).1 (ih a ha).2
    · exact h
  | param x =>
    rw [Ty.erase]
    split <;> simp
  | variant head args ih =>
    rw [Ty.erase, Ty.eraseAll_eq_map]
    exact hr.obeys_map_variant h ih
  | array t ih =>
    rw [Ty.erase, Ty.obeys_array]
    exact ih (Ty.obeys_array.mp h)

theorem replace {bindings : Bindings} (hb : ∀ x t, bindings.lookup x = some t → t.Obeys rule) {t : Ty}
    (h : t.Obeys rule) : (t.replace bindings).Obeys rule := by
  induction t using Ty.byParts with
  | primitive p => simp [Ty.replace]
  | function s ihp ihr =>
    rw [Ty.replace, Ty.obeys_function, Signature.replace_eq]
    exact Signature.obeys_map (Ty.obeys_function.mp h) ihp ihr
  | overloaded ss ih =>
    rw [Ty.replace, Signature.replaceAll_eq_map]
    apply hr.obeys_ofList
    intro s hs
    obtain ⟨a, ha, rfl⟩ := List.mem_map.mp hs
    rw [Signature.replace_eq]
    exact Signature.obeys_map ((Ty.obeys_overloaded.mp h).2 a ha) (ih a ha).1 (ih a ha).2
  | param x =>
    rw [Ty.replace]
    cases hx : bindings.lookup x with
    | none => exact Ty.obeys_param x
    | some bound => exact hb x bound hx
  | variant head args ih =>
    rw [Ty.replace, Ty.replaceAll_eq_map]
    exact hr.obeys_map_variant h ih
  | array t ih =>
    rw [Ty.replace, Ty.obeys_array]
    exact ih (Ty.obeys_array.mp h)

theorem substitute {bindings : Bindings} (hb : ∀ x t, bindings.lookup x = some t → t.Obeys rule)
    {t : Ty} (h : t.Obeys rule) : (t.substitute bindings).Obeys rule := by
  unfold Ty.substitute
  split
  · exact h
  · exact hr.replace hb h

end TypeRule.Stable

/-! Bindings -/

/-- The types that stand for parameters obey the rule. -/
def Unifier.Obeys (rule : TypeRule) (u : Unifier) : Prop :=
  ∀ x t, u.bindings.lookup x = some t → t.Obeys rule

namespace Unifier

theorem obeys_empty : Unifier.Obeys rule {} := by simp [Obeys]

variable {u : Unifier}

/-- The bindings are applied by replacing parameters once, and then until nothing changes. -/
theorem apply_of_substitute {P : Ty → Prop} (hP : ∀ t, P t → P (t.substitute u.bindings)) {t : Ty}
    (h : P (t.substitute u.bindings)) : P (u.apply t) := by
  have hsettle (n : Nat) {t : Ty} (ht : P t) : P (settle u.bindings n t) := by
    induction n generalizing t with
    | zero => exact ht
    | succ n ih =>
      rw [settle]
      split
      · exact ht
      · exact ih (hP t ht)
  exact hsettle _ h

variable (hr : rule.Stable)
include hr

theorem Obeys.apply (hu : u.Obeys rule) {t : Ty} (h : t.Obeys rule) : (u.apply t).Obeys rule :=
  apply_of_substitute (P := Ty.Obeys rule) (fun _ => hr.substitute hu) (hr.substitute hu h)

theorem Obeys.bind (hu : u.Obeys rule) (name : String) {t : Ty} (h : t.Obeys rule) :
    (u.bind name t).1.Obeys rule := by
  intro x bound hx
  rcases lookup_bind hx with hx | ⟨_, rfl⟩
  · exact hu x bound hx
  · exact hu.apply hr h

end Unifier

/-! Written types -/

namespace TypeScope

variable {scope : TypeScope}

theorem obeys_of_name? (hl : ∀ x t, scope.lookup x = some t → t.Obeys rule) {x : String} {t : Ty}
    (h : scope.name? x = some t) : t.Obeys rule := by
  unfold name? at h
  split at h
  · cases h
    exact Ty.obeys_param x
  · split at h
    · rename_i u hu
      cases h
      exact hl x _ hu
    · obtain ⟨p, _, rfl⟩ := Option.map_eq_some_iff.mp h
      exact Ty.obeys_primitive p

mutual

/-- A written type stands for one that obeys the rule if the types that are known do. -/
theorem obeys_of_resolve (hr : rule.Stable) (hl : ∀ x t, scope.lookup x = some t → t.Obeys rule)
    (r : TypeRef) {t : Ty} (h : scope.resolve r = .ok t) : t.Obeys rule := by
  cases r with
  | named name span =>
    rw [resolve] at h
    split at h
    · rename_i u hu
      cases h
      exact obeys_of_name? hl hu
    · cases h
  | function params ret span =>
    rw [resolve] at h
    split at h
    · cases h
    · rename_i ps hps
      split at h
      · cases h
      · rename_i r hret
        cases h
        rw [Ty.obeys_function, Signature.obeys_iff]
        exact ⟨obeys_of_resolveAll hr hl params hps, obeys_of_resolve hr hl ret hret⟩
  | applied base args span =>
    rw [resolve] at h
    split at h
    · cases h
    · rename_i as has
      have hargs := obeys_of_resolveAll hr hl args has
      split at h
      · unfold applyArray at h
        split at h
        · cases h
          exact Ty.obeys_array.mpr (hargs _ List.mem_cons_self)
        · cases h
      · split at h
        · cases h
        · rename_i b hb
          unfold applyBase at h
          split at h
          · rename_i head bs
            split at h
            · rename_i hlength
              cases h
              have hbase := Ty.obeys_variant.mp (obeys_of_resolve hr hl base hb)
              exact Ty.obeys_variant.mpr ⟨hr.applied head bs as hlength.symm hbase.1, hargs⟩
            · cases h
          · cases h
  | selected base case span =>
    rw [resolve] at h
    split at h
    · cases h
    · rename_i head as hbase
      split at h
      · cases h
        have hvariant := Ty.obeys_variant.mp (obeys_of_resolve hr hl base hbase)
        exact Ty.obeys_variant.mpr ⟨hr.case head as (some case) hvariant.1, hvariant.2⟩
      · cases h
    · cases h
termination_by structural r

theorem obeys_of_resolveAll (hr : rule.Stable) (hl : ∀ x t, scope.lookup x = some t → t.Obeys rule)
    (rs : List TypeRef) {ts : List Ty} (h : scope.resolveAll rs = .ok ts) :
    ∀ t ∈ ts, t.Obeys rule := by
  cases rs with
  | nil =>
    cases h
    simp
  | cons r rs =>
    rw [resolveAll] at h
    split at h
    · cases h
    · rename_i t ht
      split at h
      · cases h
      · rename_i ts' hts
        cases h
        exact List.forall_mem_cons.mpr ⟨obeys_of_resolve hr hl r ht, obeys_of_resolveAll hr hl rs hts⟩
termination_by structural rs

end

end TypeScope

end

end Tern
