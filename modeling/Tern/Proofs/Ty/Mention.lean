import Tern.Proofs.Ty.Proper

/-!
Which type parameters a type mentions. Equal types mention the same ones; replacing parameters
brings in only what their types mention, and does nothing to a proper type that mentions none of
them.
-/

set_option autoImplicit false

namespace Tern

variable {x : String}

theorem Ty.anyMentions_iff {ts : List Ty} :
    Ty.anyMentions x ts = true ↔ ∃ t ∈ ts, t.mentions x = true := by
  induction ts with
  | nil => simp [Ty.anyMentions]
  | cons t ts ih => simp [Ty.anyMentions, ih]

theorem Signature.mentions_iff {s : Signature} :
    s.mentions x = true ↔ (∃ t ∈ s.params, t.mentions x = true) ∨ s.ret.mentions x = true := by
  cases s with
  | mk ps r => rw [Signature.mentions, Bool.or_eq_true, Ty.anyMentions_iff, params, ret]

theorem Signature.anyMentions_iff {ss : List Signature} :
    Signature.anyMentions x ss = true ↔ ∃ s ∈ ss, s.mentions x = true := by
  induction ss with
  | nil => simp [Signature.anyMentions]
  | cons s ss ih => simp [Signature.anyMentions, ih]

namespace Ty

@[simp] theorem mentions_primitive (p : Primitive) : (Ty.primitive p).mentions x = false := by
  rw [mentions]

@[simp] theorem mentions_param {y : String} : (Ty.param y).mentions x = true ↔ y = x := by
  rw [mentions, beq_iff_eq]

@[simp] theorem mentions_function {s : Signature} :
    (Ty.function s).mentions x = s.mentions x := by rw [mentions]

theorem mentions_overloaded {ss : List Signature} :
    (Ty.overloaded ss).mentions x = true ↔ ∃ s ∈ ss, s.mentions x = true := by
  rw [mentions, Signature.anyMentions_iff]

theorem mentions_variant {head : VariantHead} {args : List Ty} :
    (Ty.variant head args).mentions x = true ↔ ∃ t ∈ args, t.mentions x = true := by
  rw [mentions, anyMentions_iff]

@[simp] theorem mentions_array {t : Ty} : (Ty.array t).mentions x = t.mentions x := by rw [mentions]

end Ty

/-! Names -/

mutual
/-- The parameters that a type mentions, as often as it does. -/
def Ty.names : Ty → List String
  | .primitive _ => []
  | .function s => s.names
  | .overloaded ss => Signature.namesAll ss
  | .param x => [x]
  | .variant _ args => Ty.namesAll args
  | .array t => t.names
def Ty.namesAll : List Ty → List String
  | [] => []
  | t :: ts => t.names ++ Ty.namesAll ts
def Signature.names : Signature → List String
  | .mk params ret => Ty.namesAll params ++ ret.names
def Signature.namesAll : List Signature → List String
  | [] => []
  | s :: ss => s.names ++ Signature.namesAll ss
end

mutual
theorem Ty.mem_names (t : Ty) : x ∈ t.names ↔ t.mentions x = true := by
  cases t with
  | primitive p => simp [Ty.names]
  | function s => rw [Ty.names, Ty.mentions, Signature.mem_names s]
  | overloaded ss => rw [Ty.names, Ty.mentions, Signature.mem_namesAll ss]
  | param y => rw [Ty.names, List.mem_singleton, Ty.mentions_param, eq_comm]
  | variant head args => rw [Ty.names, Ty.mentions, Ty.mem_namesAll args]
  | array t => rw [Ty.names, Ty.mentions, Ty.mem_names t]
theorem Ty.mem_namesAll (ts : List Ty) : x ∈ Ty.namesAll ts ↔ Ty.anyMentions x ts = true := by
  cases ts with
  | nil => simp [Ty.namesAll, Ty.anyMentions]
  | cons t ts =>
    rw [Ty.namesAll, Ty.anyMentions, List.mem_append, Bool.or_eq_true, Ty.mem_names t,
      Ty.mem_namesAll ts]
theorem Signature.mem_names (s : Signature) : x ∈ s.names ↔ s.mentions x = true := by
  cases s with
  | mk ps r =>
    rw [Signature.names, Signature.mentions, List.mem_append, Bool.or_eq_true, Ty.mem_namesAll ps,
      Ty.mem_names r]
theorem Signature.mem_namesAll (ss : List Signature) :
    x ∈ Signature.namesAll ss ↔ Signature.anyMentions x ss = true := by
  cases ss with
  | nil => simp [Signature.namesAll, Signature.anyMentions]
  | cons s ss =>
    rw [Signature.namesAll, Signature.anyMentions, List.mem_append, Bool.or_eq_true,
      Signature.mem_names s, Signature.mem_namesAll ss]
end

mutual
theorem Ty.length_names (t : Ty) : t.names.length = t.paramCount := by
  cases t with
  | primitive p => rw [Ty.names, Ty.paramCount, List.length_nil]
  | function s => rw [Ty.names, Ty.paramCount, Signature.length_names s]
  | overloaded ss => rw [Ty.names, Ty.paramCount, Signature.length_namesAll ss]
  | param y => rw [Ty.names, Ty.paramCount, List.length_singleton]
  | variant head args => rw [Ty.names, Ty.paramCount, Ty.length_namesAll args]
  | array t => rw [Ty.names, Ty.paramCount, Ty.length_names t]
theorem Ty.length_namesAll (ts : List Ty) : (Ty.namesAll ts).length = Ty.paramCounts ts := by
  cases ts with
  | nil => rw [Ty.namesAll, Ty.paramCounts, List.length_nil]
  | cons t ts =>
    rw [Ty.namesAll, Ty.paramCounts, List.length_append, Ty.length_names t, Ty.length_namesAll ts]
theorem Signature.length_names (s : Signature) : s.names.length = s.paramCount := by
  cases s with
  | mk ps r =>
    rw [Signature.names, Signature.paramCount, List.length_append, Ty.length_namesAll ps,
      Ty.length_names r]
theorem Signature.length_namesAll (ss : List Signature) :
    (Signature.namesAll ss).length = Signature.paramCounts ss := by
  cases ss with
  | nil => rw [Signature.namesAll, Signature.paramCounts, List.length_nil]
  | cons s ss =>
    rw [Signature.namesAll, Signature.paramCounts, List.length_append, Signature.length_names s,
      Signature.length_namesAll ss]
end

/-! Equality -/

/-- Equal lists have the same length, and each member equals the one at its place. -/
theorem Ty.exists_beq_of_mem {as bs : List Ty} (h : (as == bs) = true) {a : Ty} (ha : a ∈ as) :
    ∃ b ∈ bs, (a == b) = true := by
  induction as generalizing bs with
  | nil => cases ha
  | cons a' as ih =>
    cases bs with
    | nil => cases h
    | cons b bs =>
      rw [List.cons_beq_cons, Bool.and_eq_true] at h
      rcases List.mem_cons.mp ha with rfl | ha
      · exact ⟨b, List.mem_cons_self, h.1⟩
      · obtain ⟨b', hb', hab⟩ := ih h.2 ha
        exact ⟨b', List.mem_cons_of_mem b hb', hab⟩

theorem Signature.mentions_of_beq {s t : Signature}
    (hp : ∀ a ∈ s.params, ∀ b : Ty, b.Proper → (a == b) = true → a.mentions x = true →
      b.mentions x = true)
    (hr : ∀ b : Ty, b.Proper → (s.ret == b) = true → s.ret.mentions x = true → b.mentions x = true)
    (ht : t.Proper) (h : (s == t) = true) (hx : s.mentions x = true) : t.mentions x = true := by
  rw [Signature.beq_iff] at h
  rw [Signature.mentions_iff] at hx ⊢
  have htp := Signature.obeys_iff.mp ht
  rcases hx with ⟨a, ha, hx⟩ | hx
  · obtain ⟨b, hb, hab⟩ := Ty.exists_beq_of_mem h.1 ha
    exact Or.inl ⟨b, hb, hp a ha b (htp.1 b hb) hab hx⟩
  · exact Or.inr (hr t.ret htp.2 h.2 hx)

theorem Signature.Proper.symm {s t : Signature} (hs : s.Proper) (ht : t.Proper)
    (h : (s == t) = true) : (t == s) = true :=
  Ty.regular_proper.signature_symm (Signature.obeys_iff.mp hs) (Signature.obeys_iff.mp ht) h

/-- The members of a set are asked, but on proper types that makes no difference. -/
theorem Ty.mentions_of_beq {a b : Ty} (ha : a.Proper) (hb : b.Proper) (h : (a == b) = true)
    (hx : a.mentions x = true) : b.mentions x = true := by
  induction a using Ty.byParts generalizing b with
  | function s ihp ihr =>
    cases b with
    | function t =>
      rw [Ty.function_beq] at h
      rw [Ty.mentions_function] at hx ⊢
      have hs := Signature.obeys_iff.mp (Ty.obeys_function.mp ha)
      exact Signature.mentions_of_beq (fun u hu v hv => ihp u hu (hs.1 u hu) hv)
        (fun v hv => ihr hs.2 hv) (Ty.obeys_function.mp hb) h hx
    | _ => cases h
  | overloaded ss ih =>
    cases b with
    | overloaded ts =>
      rw [Ty.mentions_overloaded] at hx ⊢
      obtain ⟨s, hs, hx⟩ := hx
      obtain ⟨t, ht, hts⟩ := (Ty.overloaded_beq_iff.mp h).2 s hs
      have hsp := (Ty.obeys_overloaded.mp ha).2 s hs
      have htp := (Ty.obeys_overloaded.mp hb).2 t ht
      have hparts := Signature.obeys_iff.mp hsp
      exact ⟨t, ht, Signature.mentions_of_beq (fun u hu v hv => (ih s hs).1 u hu (hparts.1 u hu) hv)
        (fun v hv => (ih s hs).2 hparts.2 hv) htp (Signature.Proper.symm htp hsp hts) hx⟩
    | _ => cases h
  | variant head as ih =>
    cases b with
    | variant head' bs =>
      rw [Ty.mentions_variant] at hx ⊢
      obtain ⟨u, hu, hx⟩ := hx
      obtain ⟨v, hv, huv⟩ := Ty.exists_beq_of_mem (Ty.variant_beq_iff.mp h).2 hu
      have hup := (Ty.obeys_variant.mp ha).2 u hu
      have hvp := (Ty.obeys_variant.mp hb).2 v hv
      exact ⟨v, hv, ih u hu hup hvp huv hx⟩
    | _ => cases h
  | array t ih =>
    cases b with
    | array u =>
      rw [Ty.array_beq] at h
      rw [Ty.mentions_array] at hx ⊢
      exact ih (Ty.obeys_array.mp ha) (Ty.obeys_array.mp hb) h hx
    | _ => cases h
  | primitive p => simp at hx
  | param y =>
    rcases Ty.cases_of_beq h with rfl | ⟨_, _, h, _⟩ | ⟨_, _, h, _⟩ | ⟨_, _, _, h, _⟩ | ⟨_, _, h, _⟩
    · exact hx
    all_goals cases h

/-! Replacement -/

theorem Overload.mem_extend {more : List Signature} {ss : List Signature} {t : Signature}
    (h : t ∈ extend ss more) : t ∈ ss ∨ t ∈ more := by
  induction more generalizing ss with
  | nil => exact Or.inl h
  | cons s more ih =>
    rcases ih h with h | h
    · rcases mem_insert h with rfl | h
      · exact Or.inr List.mem_cons_self
      · exact Or.inl h
    · exact Or.inr (List.mem_cons_of_mem s h)

theorem Overload.mem_ofList {ss : List Signature} {t : Signature} (h : t ∈ ofList ss) : t ∈ ss :=
  (mem_extend h).resolve_left (by simp)

theorem Overload.insert_new {s : Signature} {ss : List Signature}
    (h : ∀ t ∈ ss, ¬ (t.params == s.params) = true) : insert s ss = ss ++ [s] := by
  induction ss with
  | nil => rfl
  | cons t ss ih =>
    rw [List.forall_mem_cons] at h
    rw [insert, if_neg h.1, ih h.2, List.cons_append]

theorem Overload.extend_new {ss more : List Signature} (h : Distinct (ss ++ more)) :
    extend ss more = ss ++ more := by
  induction more generalizing ss with
  | nil => rw [List.append_nil]; rfl
  | cons s more ih =>
    have hnew := (List.pairwise_append.mp h).2.2
    have hinsert := insert_new fun t ht => hnew t ht s List.mem_cons_self
    rw [List.append_cons] at h ⊢
    rw [← ih h, ← hinsert]
    rfl

theorem Overload.ofList_eq_self {ss : List Signature} (h : Distinct ss) : ofList ss = ss :=
  extend_new h

section Replacement

variable {bindings : Bindings}

/-- Where a parameter of a replaced type comes from: it was there and stands for nothing, or the
type of another one mentions it. -/
def Ty.Brought (bindings : Bindings) (x : String) (mentions : String → Prop) : Prop :=
  (mentions x ∧ bindings.lookup x = none) ∨
    ∃ y t, mentions y ∧ bindings.lookup y = some t ∧ t.mentions x = true

theorem Ty.Brought.mono {p q : String → Prop} (h : Ty.Brought bindings x p) (hpq : ∀ y, p y → q y) :
    Ty.Brought bindings x q :=
  h.imp (And.imp_left (hpq x)) fun ⟨y, t, hy, ht⟩ => ⟨y, t, hpq y hy, ht⟩

theorem Signature.brought_of_mentions_replace {s : Signature}
    (hp : ∀ t ∈ s.params, (t.replace bindings).mentions x = true →
      Ty.Brought bindings x fun y => t.mentions y = true)
    (hr : (s.ret.replace bindings).mentions x = true →
      Ty.Brought bindings x fun y => s.ret.mentions y = true)
    (hx : (s.replace bindings).mentions x = true) :
    Ty.Brought bindings x fun y => s.mentions y = true := by
  rw [Signature.replace_eq, Signature.mentions_iff] at hx
  rcases hx with ⟨_, hmem, hx⟩ | hx
  · obtain ⟨t, ht, rfl⟩ := List.mem_map.mp hmem
    exact (hp t ht hx).mono fun y hy => Signature.mentions_iff.mpr (Or.inl ⟨t, ht, hy⟩)
  · exact (hr hx).mono fun y hy => Signature.mentions_iff.mpr (Or.inr hy)

theorem Ty.brought_of_mentions_replace {t : Ty} (hx : (t.replace bindings).mentions x = true) :
    Ty.Brought bindings x fun y => t.mentions y = true := by
  induction t using Ty.byParts with
  | primitive p => simp [Ty.replace] at hx
  | function s ihp ihr =>
    rw [Ty.replace, Ty.mentions_function] at hx
    simpa only [Ty.mentions_function] using Signature.brought_of_mentions_replace ihp ihr hx
  | overloaded ss ih =>
    rw [Ty.replace, Ty.mentions_overloaded, Signature.replaceAll_eq_map] at hx
    obtain ⟨_, hmem, hx⟩ := hx
    obtain ⟨s, hs, rfl⟩ := List.mem_map.mp (Overload.mem_ofList hmem)
    exact (Signature.brought_of_mentions_replace (ih s hs).1 (ih s hs).2 hx).mono fun y hy =>
      Ty.mentions_overloaded.mpr ⟨s, hs, hy⟩
  | param y =>
    rw [Ty.replace] at hx
    cases hy : bindings.lookup y with
    | none =>
      rw [hy, Option.getD_none, Ty.mentions_param] at hx
      exact hx ▸ Or.inl ⟨Ty.mentions_param.mpr rfl, hy⟩
    | some t =>
      rw [hy, Option.getD_some] at hx
      exact Or.inr ⟨y, t, Ty.mentions_param.mpr rfl, hy, hx⟩
  | variant head args ih =>
    rw [Ty.replace, Ty.mentions_variant, Ty.replaceAll_eq_map] at hx
    obtain ⟨_, hmem, hx⟩ := hx
    obtain ⟨t, ht, rfl⟩ := List.mem_map.mp hmem
    exact (ih t ht hx).mono fun y hy => Ty.mentions_variant.mpr ⟨t, ht, hy⟩
  | array t ih =>
    rw [Ty.replace, Ty.mentions_array] at hx
    simpa only [Ty.mentions_array] using ih hx

theorem Signature.replace_eq_self {s : Signature}
    (hp : ∀ t ∈ s.params, t.Proper → (∀ x, t.mentions x = true → bindings.lookup x = none) →
      t.replace bindings = t)
    (hr : s.ret.Proper → (∀ x, s.ret.mentions x = true → bindings.lookup x = none) →
      s.ret.replace bindings = s.ret)
    (hs : s.Proper) (h : ∀ x, s.mentions x = true → bindings.lookup x = none) :
    s.replace bindings = s := by
  have hparts := Signature.obeys_iff.mp hs
  simp only [Signature.mentions_iff] at h
  have hmap : s.params.map (Ty.replace bindings) = s.params.map id :=
    List.map_congr_left fun t ht => hp t ht (hparts.1 t ht) fun x hx => h x (Or.inl ⟨t, ht, hx⟩)
  rw [Signature.replace_eq, hmap, List.map_id, hr hparts.2 fun x hx => h x (Or.inr hx)]
  cases s
  rfl

/-- Replacement builds every set anew, which leaves it as it is if it has no repetition. -/
theorem Ty.replace_eq_self {t : Ty} (ht : t.Proper)
    (h : ∀ x, t.mentions x = true → bindings.lookup x = none) : t.replace bindings = t := by
  induction t using Ty.byParts with
  | primitive p => rw [Ty.replace]
  | function s ihp ihr =>
    simp only [Ty.mentions_function] at h
    rw [Ty.replace, Signature.replace_eq_self ihp ihr (Ty.obeys_function.mp ht) h]
  | overloaded ss ih =>
    simp only [Ty.mentions_overloaded] at h
    obtain ⟨hset, hmembers⟩ := Ty.obeys_overloaded.mp ht
    have hmap : ss.map (Signature.replace bindings) = ss.map id :=
      List.map_congr_left fun s hs => Signature.replace_eq_self (ih s hs).1 (ih s hs).2
        (hmembers s hs) fun x hx => h x ⟨s, hs, hx⟩
    rw [Ty.replace, Signature.replaceAll_eq_map, hmap, List.map_id, Overload.ofList_eq_self hset]
  | param y => rw [Ty.replace, h y (Ty.mentions_param.mpr rfl), Option.getD_none]
  | variant head args ih =>
    simp only [Ty.mentions_variant] at h
    have hmap : args.map (Ty.replace bindings) = args.map id :=
      List.map_congr_left fun t hmem => ih t hmem ((Ty.obeys_variant.mp ht).2 t hmem)
        fun x hx => h x ⟨t, hmem, hx⟩
    rw [Ty.replace, Ty.replaceAll_eq_map, hmap, List.map_id]
  | array t ih =>
    simp only [Ty.mentions_array] at h
    rw [Ty.replace, ih (Ty.obeys_array.mp ht) h]

end Replacement

end Tern
