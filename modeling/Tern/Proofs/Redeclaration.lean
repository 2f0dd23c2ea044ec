import Mathlib.Data.List.DropRight
import Tern.Proofs.ScopeTree
import Tern.Proofs.Ty.Proper

/-!
What a name stands for after it was declared many times. Its flags are those of the last declaration.
Its type is decided by the callable types at the end of the history: for each list of parameters that
occurs among them it has the signature that was declared last.
-/

set_option autoImplicit false

namespace Tern

/-- The signatures that a name of this type can be called with. -/
def Ty.signatures : Ty → List Signature
  | .function s => [s]
  | .overloaded ss => ss
  | _ => []

/-- The signature that was declared last for the parameters. -/
def Overload.last? (params : List Ty) (declared : List Signature) : Option Signature :=
  declared.reverse.find? fun s => s.params == params

/-- The set holds, for each list of parameters that was declared, the signature that was declared
with it last. -/
structure Overload.Sums (set declared : List Signature) : Prop where
  distinct : Distinct set
  proper : ∀ s ∈ declared, s.Proper
  last : ∀ s, s ∈ set ↔ last? s.params declared = some s
  covers : ∀ s ∈ declared, ∃ t ∈ set, (t.params == s.params) = true

namespace Overload

variable {s : Signature} {set declared : List Signature}

theorem last?_snoc (params : List Ty) (declared : List Signature) (s : Signature) :
    last? params (declared ++ [s]) =
      if (s.params == params) = true then some s else last? params declared := by
  rw [last?, List.reverse_append, List.reverse_singleton, List.singleton_append, List.find?_cons]
  split <;> simp_all [last?]

theorem mem_of_last? {params : List Ty} (h : last? params declared = some s) :
    s ∈ declared ∧ (s.params == params) = true :=
  ⟨List.mem_reverse.mp (List.mem_of_find?_eq_some h), by simpa using List.find?_some h⟩

theorem Sums.mem (h : Sums set declared) (hs : s ∈ set) : s ∈ declared :=
  (mem_of_last? ((h.last s).mp hs)).1

theorem Sums.obeys (h : Sums set declared) : ∀ s ∈ set, s.Proper :=
  fun s hs => h.proper s (h.mem hs)

theorem Sums.insert (h : Sums set declared) (hs : s.Proper) :
    Sums (insert s set) (declared ++ [s]) := by
  have hmem {t : Signature} :
      t ∈ Overload.insert s set ↔ t = s ∨ (t ∈ set ∧ ¬ (t.params == s.params) = true) :=
    mem_insert_iff hs h.obeys h.distinct
  refine ⟨distinct_insert hs h.obeys h.distinct, ?_, ?_, ?_⟩
  · rw [List.forall_mem_append, List.forall_mem_singleton]
    exact ⟨h.proper, hs⟩
  · intro t
    rw [hmem, last?_snoc]
    constructor
    · rintro (rfl | ⟨ht, hne⟩)
      · exact if_pos BEq.rfl
      · have hst : ¬ (s.params == t.params) = true :=
          fun hst => hne (hs.params_symm (h.obeys t ht) hst)
        rw [if_neg hst]
        exact (h.last t).mp ht
    · intro ht
      split at ht
      · exact Or.inl (Option.some.inj ht).symm
      · rename_i hst
        have hset := (h.last t).mpr ht
        exact Or.inr ⟨hset, fun hts => hst ((h.obeys t hset).params_symm hs hts)⟩
  · rw [List.forall_mem_append, List.forall_mem_singleton]
    refine ⟨?_, s, hmem.mpr (Or.inl rfl), BEq.rfl⟩
    intro o ho
    obtain ⟨t, ht, hto⟩ := h.covers o ho
    by_cases hts : (t.params == s.params) = true
    · have hst := (h.obeys t ht).params_symm hs hts
      exact ⟨s, hmem.mpr (Or.inl rfl), hs.params_trans (h.obeys t ht) (h.proper o ho) hst hto⟩
    · exact ⟨t, hmem.mpr (Or.inr ⟨ht, hts⟩), hto⟩

theorem Sums.extend (h : Sums set declared) {more : List Signature} (hm : ∀ s ∈ more, s.Proper) :
    Sums (extend set more) (declared ++ more) := by
  induction more generalizing set declared with
  | nil => simpa [Overload.extend] using h
  | cons s more ih =>
    rw [List.forall_mem_cons] at hm
    rw [List.append_cons]
    exact ih (h.insert hm.1) hm.2

/-- A set without repetition holds what was declared with it. -/
theorem sums_self (hd : Distinct set) (hp : ∀ s ∈ set, s.Proper) : Sums set set := by
  refine ⟨hd, hp, fun s => ⟨?_, fun h => (mem_of_last? h).1⟩, fun s hs => ⟨s, hs, BEq.rfl⟩⟩
  intro hs
  have hsome : (last? s.params set).isSome := by
    rw [last?, List.find?_isSome]
    exact ⟨s, List.mem_reverse.mpr hs, BEq.rfl⟩
  obtain ⟨t, ht⟩ := Option.isSome_iff_exists.mp hsome
  obtain ⟨hmem, hts⟩ := mem_of_last? ht
  rw [ht, hd.eq hp hmem hs hts]

end Overload

/-! One more declaration -/

namespace Ty

variable {old new : Ty}

theorem redeclare_of_not_callable (h : new.isCallable = false) (old : Ty) :
    old.redeclare new = new := by
  cases new with
  | function s => cases h
  | overloaded ss => cases h
  | _ => cases old <;> rfl

theorem redeclare_not_callable (h : old.isCallable = false) (new : Ty) : old.redeclare new = new := by
  cases old with
  | function s => cases h
  | overloaded ss => cases h
  | _ => rfl

theorem signatures_redeclare (ho : old.isCallable = true) (hn : new.isCallable = true) :
    (old.redeclare new).signatures = Overload.extend old.signatures new.signatures := by
  cases old with
  | function s =>
    cases new with
    | function t =>
      rw [redeclare]
      split
      · rename_i h
        simp [signatures, Overload.extend, Overload.insert, h]
      · rfl
    | overloaded ts => rfl
    | _ => cases hn
  | overloaded ss =>
    cases new with
    | function t => rfl
    | overloaded ts => rfl
    | _ => cases hn
  | _ => cases ho

theorem isCallable_redeclare (ho : old.isCallable = true) (hn : new.isCallable = true) :
    (old.redeclare new).isCallable = true := by
  cases old with
  | function s =>
    cases new with
    | function t =>
      rw [redeclare]
      split <;> rfl
    | overloaded ts => rfl
    | _ => cases hn
  | overloaded ss =>
    cases new with
    | function t => rfl
    | overloaded ts => rfl
    | _ => cases hn
  | _ => cases ho

/-- Two declarations give a single function only if both are, with the same parameters. -/
theorem redeclare_eq_function_iff (ho : old.isCallable = true) (hn : new.isCallable = true) :
    (∃ s, old.redeclare new = .function s) ↔
      ∃ s t, old = .function s ∧ new = .function t ∧ (s.params == t.params) = true := by
  cases old with
  | function s =>
    cases new with
    | function t =>
      rw [redeclare]
      split
      · rename_i h
        simp [h]
      · rename_i h
        simp [h]
    | overloaded ts => simp [redeclare]
    | _ => cases hn
  | overloaded ss =>
    cases new with
    | function t => simp [redeclare]
    | overloaded ts => simp [redeclare]
    | _ => cases hn
  | _ => cases ho

theorem Proper.signatures {t : Ty} (h : t.Proper) :
    Overload.Distinct t.signatures ∧ ∀ s ∈ t.signatures, s.Proper := by
  cases t with
  | function s =>
    refine ⟨List.pairwise_singleton _ s, ?_⟩
    intro t ht
    rw [List.mem_singleton.mp ht]
    exact obeys_function.mp h
  | overloaded ss => exact obeys_overloaded.mp h
  | _ => exact ⟨List.Pairwise.nil, by simp [Ty.signatures]⟩

end Ty

/-! Histories -/

/-- The type of a name after declarations with these types, none if there are none. -/
def Ty.ofHistory (types : List Ty) : Option Ty :=
  types.foldl (fun old? new => some ((old?.map fun old => old.redeclare new).getD new)) none

theorem Ty.ofHistory_snoc (types : List Ty) (t : Ty) : Ty.ofHistory (types ++ [t]) =
    some (((Ty.ofHistory types).map fun old => old.redeclare t).getD t) := by
  rw [Ty.ofHistory, List.foldl_append]
  rfl

/-- The callable types at the end of a history. -/
def Ty.calls (types : List Ty) : List Ty := types.rtakeWhile Ty.isCallable

theorem Ty.calls_snoc (types : List Ty) (t : Ty) :
    Ty.calls (types ++ [t]) = if t.isCallable = true then Ty.calls types ++ [t] else [] :=
  List.rtakeWhile_concat _ _ _

/-- All are single functions, with the same parameters. -/
structure Ty.IsOneFunction (types : List Ty) : Prop where
  functions : ∀ t ∈ types, ∃ s, t = .function s
  params : ∀ {s u}, Ty.function s ∈ types → Ty.function u ∈ types → (s.params == u.params) = true

/-- The callable type `t` is what the callable types `types`, one after the other, amount to. -/
structure Ty.Amounts (types : List Ty) (t : Ty) : Prop where
  callable : t.isCallable = true
  sums : Overload.Sums t.signatures (types.flatMap Ty.signatures)
  single : (∃ s, t = .function s) ↔ Ty.IsOneFunction types

namespace Ty

variable {types : List Ty} {t new : Ty}

theorem amounts_singleton (hc : t.isCallable = true) (hp : t.Proper) : Amounts [t] t := by
  refine ⟨hc, ?_, ?_⟩
  · simpa using Overload.sums_self hp.signatures.1 hp.signatures.2
  · constructor
    · rintro ⟨s, rfl⟩
      refine ⟨by simp, ?_⟩
      intro u v hu hv
      obtain rfl := Ty.function.inj (List.mem_singleton.mp hu)
      obtain rfl := Ty.function.inj (List.mem_singleton.mp hv)
      exact BEq.rfl
    · intro h
      exact h.functions t List.mem_cons_self

theorem IsOneFunction.mem {s : Signature} (h : IsOneFunction types)
    (hs : s ∈ types.flatMap Ty.signatures) : Ty.function s ∈ types := by
  obtain ⟨v, hv, hsv⟩ := List.mem_flatMap.mp hs
  obtain ⟨w, rfl⟩ := h.functions v hv
  obtain rfl := List.mem_singleton.mp hsv
  exact hv

theorem Amounts.redeclare (h : Amounts types t) (hc : new.isCallable = true) (hp : new.Proper) :
    Amounts (types ++ [new]) (t.redeclare new) := by
  have hsums : Overload.Sums (t.redeclare new).signatures ((types ++ [new]).flatMap Ty.signatures) := by
    rw [signatures_redeclare h.callable hc, List.flatMap_append, List.flatMap_singleton]
    exact h.sums.extend hp.signatures.2
  refine ⟨isCallable_redeclare h.callable hc, hsums, ?_⟩
  rw [redeclare_eq_function_iff h.callable hc]
  constructor
  · rintro ⟨s, u, rfl, rfl, hsu⟩
    have hone : IsOneFunction types := h.single.mp ⟨s, rfl⟩
    -- what is left is one of the earlier functions, so all have its parameters
    have hmem : Ty.function s ∈ types := hone.mem (h.sums.mem List.mem_cons_self)
    have hproper {w : Signature} (hw : Ty.function w ∈ types) : w.Proper :=
      h.sums.proper w (List.mem_flatMap.mpr ⟨_, hw, List.mem_cons_self⟩)
    have hu : u.Proper := obeys_function.mp hp
    have hlast {w : Signature} (hw : Ty.function w ∈ types) : (w.params == u.params) = true :=
      (hproper hw).params_trans (hproper hmem) hu (hone.params hw hmem) hsu
    refine ⟨?_, ?_⟩
    · refine List.forall_mem_append.mpr ⟨hone.functions, ?_⟩
      simp
    · intro v w hv hw
      rcases List.mem_append.mp hv with hold | hnew
      · rcases List.mem_append.mp hw with hold' | hnew'
        · exact hone.params hold hold'
        · rw [Ty.function.inj (List.mem_singleton.mp hnew')]
          exact hlast hold
      · rw [Ty.function.inj (List.mem_singleton.mp hnew)]
        rcases List.mem_append.mp hw with hold' | hnew'
        · exact (hproper hold').params_symm hu (hlast hold')
        · rw [Ty.function.inj (List.mem_singleton.mp hnew')]
          exact BEq.rfl
  · intro hall
    have hone : IsOneFunction types :=
      ⟨fun v hv => hall.functions v (List.mem_append_left _ hv),
        fun hv hw => hall.params (List.mem_append_left _ hv) (List.mem_append_left _ hw)⟩
    obtain ⟨u, rfl⟩ := hall.functions new List.mem_concat_self
    obtain ⟨s, rfl⟩ := h.single.mpr hone
    have hmem : Ty.function s ∈ types := hone.mem (h.sums.mem List.mem_cons_self)
    exact ⟨s, u, rfl, rfl, hall.params (List.mem_append_left _ hmem) List.mem_concat_self⟩

/-- What a history amounts to, once more is declared. -/
theorem exists_ofHistory (types : List Ty) (last : Ty) (hp : ∀ t ∈ types ++ [last], t.Proper) :
    ∃ t, ofHistory (types ++ [last]) = some t ∧ (last.isCallable = false → t = last) ∧
      (last.isCallable = true → Amounts (calls (types ++ [last])) t) := by
  -- from the end: the declaration before the last one is the last of a shorter history
  induction types using List.reverseRecOn generalizing last with
  | nil =>
    refine ⟨last, rfl, fun _ => rfl, ?_⟩
    intro hc
    rw [calls_snoc, if_pos hc]
    exact amounts_singleton hc (hp last List.mem_concat_self)
  | append_singleton types previous ih =>
    rw [List.forall_mem_append] at hp
    have hlast : last.Proper := hp.2 last List.mem_cons_self
    obtain ⟨t, ht, hother, hcall⟩ := ih previous hp.1
    rw [ofHistory_snoc, ht]
    refine ⟨t.redeclare last, rfl, fun hc => redeclare_of_not_callable hc t, ?_⟩
    intro hc
    rw [calls_snoc, if_pos hc]
    by_cases hprevious : previous.isCallable = true
    · exact (hcall hprevious).redeclare hc hlast
    · rw [calls_snoc, if_neg hprevious, List.nil_append]
      rw [Bool.not_eq_true] at hprevious
      rw [hother hprevious, redeclare_not_callable hprevious]
      exact amounts_singleton hc hlast

end Ty

namespace Symbol

/-- The declarations of a scope after more, one after the other. -/
def declareAll (calls symbols : List Symbol) : List Symbol :=
  calls.foldl (fun symbols new => new.declare symbols) symbols

/-- The declarations of one name among those of a scope. -/
def historyOf (name : String) (calls : List Symbol) : List Symbol :=
  calls.filter fun s => s.name == name

/-- What is declared for other names in between does not matter. -/
theorem find?_declareAll (name : String) (calls symbols : List Symbol) :
    find? name (declareAll calls symbols) =
      (historyOf name calls).foldl (fun old? new => some (new.over old?)) (find? name symbols) := by
  induction calls generalizing symbols with
  | nil => rfl
  | cons new calls ih =>
    rw [declareAll, List.foldl_cons]
    refine (ih (new.declare symbols)).trans ?_
    by_cases h : new.name = name
    · subst h
      rw [historyOf, historyOf, List.filter_cons_of_pos (by simp), List.foldl_cons, find?_declare_self]
    · rw [historyOf, historyOf, List.filter_cons_of_neg (by simpa using h),
        find?_declare_of_ne symbols (Ne.symm h)]

/-- The symbol of a history has the type of the history and the rest from the last declaration. -/
theorem foldl_over (history : List Symbol) (last : Symbol) :
    (history ++ [last]).foldl (fun old? new => some (new.over old?)) none =
      (Ty.ofHistory ((history ++ [last]).map Symbol.type)).map fun t => { last with type := t } := by
  induction history using List.reverseRecOn generalizing last with
  | nil => rfl
  | append_singleton history previous ih =>
    have hbefore := ih previous
    generalize history ++ [previous] = before at hbefore ⊢
    rw [List.foldl_append, hbefore, List.map_append, List.map_singleton, Ty.ofHistory_snoc]
    cases Ty.ofHistory (before.map Symbol.type) <;> rfl

/-- The history of a name decides what it stands for. The flags are those of the last declaration.
Where its type cannot be called the name has that type; otherwise the type is what the callable
types at the end of the history amount to. -/
theorem history_decides {calls symbols : List Symbol} {name : String} {last : Symbol}
    (hnew : find? name symbols = none) (hproper : ∀ s ∈ historyOf name calls, s.type.Proper)
    (hlast : (historyOf name calls).getLast? = some last) :
    ∃ r, find? name (declareAll calls symbols) = some r ∧
      r.name = name ∧ r.isPublic = last.isPublic ∧ r.isMutable = last.isMutable ∧
      (last.type.isCallable = false → r.type = last.type) ∧
      (last.type.isCallable = true →
        Ty.Amounts (Ty.calls ((historyOf name calls).map Symbol.type)) r.type) := by
  obtain ⟨history, hhistory⟩ := List.getLast?_eq_some_iff.mp hlast
  have hname : last.name = name := by
    have hmem : last ∈ historyOf name calls := hhistory ▸ List.mem_concat_self
    simpa using (List.mem_filter.mp hmem).2
  have hp : ∀ t ∈ history.map Symbol.type ++ [last.type], t.Proper := by
    rw [hhistory, List.forall_mem_append, List.forall_mem_singleton] at hproper
    rw [List.forall_mem_append, List.forall_mem_map, List.forall_mem_singleton]
    exact hproper
  obtain ⟨t, ht, hother, hcall⟩ := Ty.exists_ofHistory (history.map Symbol.type) last.type hp
  rw [find?_declareAll, hnew, hhistory, foldl_over, List.map_append, List.map_singleton, ht]
  exact ⟨{ last with type := t }, rfl, hname, rfl, rfl, hother, hcall⟩

/-- A function, then a value, then an overloaded function of which one signature is declared twice. -/
theorem history_decides_after_value :
    let f (param ret : Ty) : Symbol := ⟨"f", .function (.mk [param] ret), true, false⟩
    let calls := [f .bool .bool, ⟨"f", .int, false, true⟩, f .int .int, ⟨"x", .string, false, true⟩,
      f .string .int, f .int .bool]
    (∀ s ∈ historyOf "f" calls, s.type.Proper) ∧
      ∃ r, find? "f" (declareAll calls []) = some r ∧
        r.type = .overloaded [.mk [.int] .bool, .mk [.string] .int] ∧
        Ty.Amounts (Ty.calls ((historyOf "f" calls).map Symbol.type)) r.type := by
  intro f calls
  have hproper : ∀ s ∈ historyOf "f" calls, s.type.Proper := by
    simp [historyOf, calls, f, Ty.Proper, Ty.obeys_function, Signature.obeys_iff, Signature.params,
      Signature.ret]
  obtain ⟨r, hr, -, -, -, -, hcall⟩ :=
    @history_decides calls [] "f" (f .int .bool) rfl hproper rfl
  have hfound : find? "f" (declareAll calls []) =
      some ⟨"f", .overloaded [.mk [.int] .bool, .mk [.string] .int], true, false⟩ := by rfl
  have htype := Option.some.inj (hr.symm.trans hfound)
  exact ⟨hproper, r, hr, congrArg Symbol.type htype, hcall rfl⟩

end Symbol

end Tern
