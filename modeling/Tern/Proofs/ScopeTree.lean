import Tern.Storage

/-!
Scopes and those around them, in trees that grow. A tree grows by new scopes, and by new symbols in
the one scope where declarations are made; what was there keeps its parent, kind and parameters, so
the way outwards from a scope never changes.
-/

set_option autoImplicit false

namespace Tern

namespace Scope

/-- The scope declares the name. -/
def Declares (s : Scope) (name : String) : Prop := (Symbol.find? name s.symbols).isSome

/-- A scope after more declarations. -/
structure Grows (s s' : Scope) : Prop where
  parent : s'.parent = s.parent
  kind : s'.kind = s.kind
  parameters : s'.parameters = s.parameters
  declares : ∀ name, s.Declares name → s'.Declares name

theorem Grows.refl (s : Scope) : s.Grows s := ⟨rfl, rfl, rfl, fun _ h => h⟩

theorem Grows.trans {s t u : Scope} (h : s.Grows t) (k : t.Grows u) : s.Grows u where
  parent := k.parent.trans h.parent
  kind := k.kind.trans h.kind
  parameters := k.parameters.trans h.parameters
  declares := fun name hn => k.declares name (h.declares name hn)

end Scope

/-- What is there once `new` is declared in the place of `old?`. -/
def Symbol.over (new : Symbol) (old? : Option Symbol) : Symbol :=
  (old?.map fun old => old.redeclare new).getD new

namespace Symbol

theorem find?_declare_self (new : Symbol) (symbols : List Symbol) :
    find? new.name (new.declare symbols) = some (new.over (find? new.name symbols)) := by
  rw [find?, declare, Table.find?_put_self]
  · rw [find?]
    cases Table.find? Symbol.name new.name symbols <;> rfl
  · intro x? _
    cases x? <;> rfl

theorem find?_declare_of_ne {new : Symbol} {name : String} (symbols : List Symbol)
    (h : name ≠ new.name) : find? name (new.declare symbols) = find? name symbols := by
  rw [find?, declare, Table.find?_put_of_ne _ _ _ _ h]
  · rfl
  · intro x? _
    cases x? <;> rfl

theorem find?_declare_iff (new : Symbol) (name : String) (symbols : List Symbol) :
    (find? name (new.declare symbols)).isSome ↔ name = new.name ∨ (find? name symbols).isSome := by
  by_cases h : name = new.name
  · subst h
    simp [find?_declare_self]
  · simp [find?_declare_of_ne symbols h, h]

end Symbol

namespace ScopeTree

theorem scopeIn?_eq_none {scopes : List Scope} {id : Nat} :
    scopeIn? scopes id = none ↔ scopes.length ≤ id := by
  induction scopes with
  | nil => simp [scopeIn?]
  | cons s older ih =>
    by_cases h : id = older.length
    · simp [scopeIn?, h]
    · simp only [scopeIn?, h, if_false, ih, List.length_cons]
      omega

theorem scope?_eq_none {t : ScopeTree} {id : Nat} : t.scope? id = none ↔ t.size ≤ id :=
  scopeIn?_eq_none

theorem lt_size_of_scope? {t : ScopeTree} {id : Nat} {s : Scope} (h : t.scope? id = some s) :
    id < t.size := by
  refine Nat.lt_of_not_le fun hge => ?_
  rw [scope?_eq_none.mpr hge] at h
  simp at h

theorem exists_scope? {t : ScopeTree} {id : Nat} (h : id < t.size) : ∃ s, t.scope? id = some s := by
  cases hs : t.scope? id with
  | some s => exact ⟨s, rfl⟩
  | none =>
    rw [scope?_eq_none] at hs
    omega

@[simp] theorem size_createChild (t : ScopeTree) (parent : Nat) (kind : ScopeKind) :
    (t.createChild parent kind).size = t.size + 1 := rfl

theorem scope?_createChild_self (t : ScopeTree) (parent : Nat) (kind : ScopeKind) :
    (t.createChild parent kind).scope? t.size = some ⟨some parent, kind, [], []⟩ := by
  simp [createChild, scope?, scopeIn?, size]

theorem scope?_createChild_of_lt {t : ScopeTree} {id : Nat} (h : id < t.size) (parent : Nat)
    (kind : ScopeKind) : (t.createChild parent kind).scope? id = t.scope? id := by
  have hne : id ≠ t.scopes.length := Nat.ne_of_lt h
  simp [createChild, scope?, scopeIn?, hne]

theorem length_modifyIn (f : Scope → Scope) (scopes : List Scope) (id : Nat) :
    (modifyIn f scopes id).length = scopes.length := by
  induction scopes with
  | nil => rfl
  | cons s older ih =>
    by_cases h : id = older.length
    · simp [modifyIn, h]
    · simp [modifyIn, h, ih]

@[simp] theorem size_modify (t : ScopeTree) (id : Nat) (f : Scope → Scope) :
    (t.modify id f).size = t.size := length_modifyIn f t.scopes id

theorem scope?_modify_self (t : ScopeTree) (id : Nat) (f : Scope → Scope) :
    (t.modify id f).scope? id = (t.scope? id).map f := by
  obtain ⟨scopes⟩ := t
  induction scopes with
  | nil => rfl
  | cons s older ih =>
    by_cases h : id = older.length
    · simp [modify, scope?, modifyIn, scopeIn?, h]
    · simpa [modify, scope?, modifyIn, scopeIn?, h, length_modifyIn] using ih

theorem scope?_modify_of_ne (t : ScopeTree) {id other : Nat} (f : Scope → Scope)
    (hne : other ≠ id) : (t.modify id f).scope? other = t.scope? other := by
  obtain ⟨scopes⟩ := t
  induction scopes with
  | nil => rfl
  | cons s older ih =>
    by_cases h : id = older.length
    · have ho : other ≠ older.length := h ▸ hne
      simp [modify, scope?, modifyIn, scopeIn?, h, ho]
    · by_cases ho : other = older.length
      · simp [modify, scope?, modifyIn, scopeIn?, h, ho, length_modifyIn]
      · simpa [modify, scope?, modifyIn, scopeIn?, h, ho, length_modifyIn] using ih

/-! The way outwards -/

theorem ancestorsIn_of_le {scopes : List Scope} {id : Nat} (h : scopes.length ≤ id) :
    ancestorsIn scopes id = [] := by
  induction scopes with
  | nil => rfl
  | cons s older ih =>
    simp only [List.length_cons] at h
    rw [ancestorsIn, if_neg (by omega)]
    exact ih (by omega)

/-- The scope itself comes first, and then what is around its parent. -/
theorem ancestors_eq (t : ScopeTree) {id : Nat} {s : Scope} (h : t.scope? id = some s) :
    t.ancestors id = id :: match s.parent with
      | some p => if p < id then t.ancestors p else []
      | none => [] := by
  obtain ⟨scopes⟩ := t
  simp only [scope?, ancestors] at *
  induction scopes with
  | nil => simp [scopeIn?] at h
  | cons u older ih =>
    have hinner : ∀ p, p < older.length → ancestorsIn (u :: older) p = ancestorsIn older p := by
      intro p hp
      rw [ancestorsIn, if_neg (by omega)]
    by_cases hid : id = older.length
    · subst hid
      obtain rfl : u = s := by simpa [scopeIn?] using h
      rw [ancestorsIn, if_pos rfl]
      cases u.parent with
      | none => rfl
      | some p =>
        by_cases hp : p < older.length
        · simp [hp, hinner p hp]
        · simp [hp, ancestorsIn_of_le (Nat.le_of_not_lt hp)]
    · have hold : scopeIn? older id = some s := by simpa [scopeIn?, hid] using h
      have hlt : id < older.length := lt_size_of_scope? (t := ⟨older⟩) hold
      rw [hinner id hlt, ih hold]
      cases s.parent with
      | none => rfl
      | some p =>
        by_cases hp : p < id
        · simp [hp, hinner p (by omega)]
        · simp [hp]

theorem ancestors_of_le {t : ScopeTree} {id : Nat} (h : t.size ≤ id) : t.ancestors id = [] :=
  ancestorsIn_of_le h

theorem lt_size_of_mem_ancestors {t : ScopeTree} {id a : Nat} (h : a ∈ t.ancestors id) :
    id < t.size := by
  refine Nat.lt_of_not_le fun hge => ?_
  rw [ancestors_of_le hge] at h
  simp at h

theorem le_of_mem_ancestors {t : ScopeTree} {id a : Nat} (h : a ∈ t.ancestors id) : a ≤ id := by
  induction id using Nat.strongRecOn with
  | ind id ih =>
    cases hs : t.scope? id with
    | none => simp [ancestors_of_le (scope?_eq_none.mp hs)] at h
    | some s =>
      rw [ancestors_eq t hs, List.mem_cons] at h
      rcases h with rfl | h
      · exact Nat.le_refl _
      · split at h
        · rename_i p _
          split at h
          · rename_i hp
            exact Nat.le_trans (ih p hp h) (Nat.le_of_lt hp)
          · simp at h
        · simp at h

theorem mem_ancestors_self {t : ScopeTree} {id : Nat} (h : id < t.size) : id ∈ t.ancestors id := by
  obtain ⟨s, hs⟩ := exists_scope? h
  rw [ancestors_eq t hs]
  exact List.mem_cons_self

theorem mem_ancestors_trans {t : ScopeTree} {a b c : Nat} (hab : a ∈ t.ancestors b)
    (hbc : b ∈ t.ancestors c) : a ∈ t.ancestors c := by
  induction c using Nat.strongRecOn with
  | ind c ih =>
    cases hs : t.scope? c with
    | none => simp [ancestors_of_le (scope?_eq_none.mp hs)] at hbc
    | some s =>
      rw [ancestors_eq t hs, List.mem_cons] at hbc
      rcases hbc with rfl | hbc
      · exact hab
      · rw [ancestors_eq t hs, List.mem_cons]
        right
        split at hbc
        · rename_i p hp
          split at hbc
          · rename_i hlt
            rw [if_pos hlt]
            exact ih p hlt hbc
          · simp at hbc
        · simp at hbc

/-- Further out are smaller numbers. -/
theorem ancestors_sorted (t : ScopeTree) (id : Nat) : (t.ancestors id).Pairwise (· > ·) := by
  induction id using Nat.strongRecOn with
  | ind id ih =>
    cases hs : t.scope? id with
    | none => simp [ancestors_of_le (scope?_eq_none.mp hs)]
    | some s =>
      rw [ancestors_eq t hs, List.pairwise_cons]
      split
      · rename_i p _
        split
        · rename_i hlt
          exact ⟨fun a ha => Nat.lt_of_le_of_lt (le_of_mem_ancestors ha) hlt, ih p hlt⟩
        · exact ⟨by simp, .nil⟩
      · exact ⟨by simp, .nil⟩

/-- Of two scopes around a third, the smaller is around the other. -/
theorem mem_ancestors_of_lt {t : ScopeTree} {a b c : Nat} (ha : a ∈ t.ancestors c)
    (hb : b ∈ t.ancestors c) (hlt : a < b) : a ∈ t.ancestors b := by
  induction c using Nat.strongRecOn with
  | ind c ih =>
    obtain ⟨s, hs⟩ := exists_scope? (lt_size_of_mem_ancestors ha)
    have hne : a ≠ c := by
      have := le_of_mem_ancestors hb
      omega
    by_cases hbc : b = c
    · exact hbc ▸ ha
    · rw [ancestors_eq t hs, List.mem_cons] at ha hb
      have ha' := ha.resolve_left hne
      have hb' := hb.resolve_left hbc
      split at ha'
      · rename_i p hp
        rw [hp] at hb'
        simp only at hb'
        split at ha'
        · rename_i hpc
          rw [if_pos hpc] at hb'
          exact ih p hpc ha' hb'
        · simp at ha'
      · simp at ha'

/-! Parameters -/

theorem getElem?_lastIndexOf? {name : String} {xs : List String} {i : Nat}
    (h : lastIndexOf? name xs = some i) : xs[i]? = some name := by
  induction xs generalizing i with
  | nil => simp [lastIndexOf?] at h
  | cons x xs ih =>
    rw [lastIndexOf?] at h
    split at h
    · rename_i j hj
      cases h
      simpa using ih hj
    · split at h
      · rename_i hx
        cases h
        simpa using hx
      · simp at h

theorem exists_lastIndexOf? {name : String} {xs : List String} (h : name ∈ xs) :
    ∃ i, lastIndexOf? name xs = some i := by
  induction xs with
  | nil => simp at h
  | cons x xs ih =>
    rw [lastIndexOf?]
    cases hi : lastIndexOf? name xs with
    | some i => exact ⟨i + 1, rfl⟩
    | none =>
      have hne : name ∉ xs := fun hm => by simp [hi] at ih; exact ih hm
      exact ⟨0, by simp [(List.mem_cons.mp h).resolve_right hne]⟩

/-! Trees that grow -/

/-- All scopes are as they were. -/
def Extends (t t' : ScopeTree) : Prop := ∀ id s, t.scope? id = some s → t'.scope? id = some s

/-- All scopes are there, perhaps with more symbols. -/
def Refines (t t' : ScopeTree) : Prop :=
  ∀ id s, t.scope? id = some s → ∃ s', t'.scope? id = some s' ∧ s.Grows s'

/-- All scopes are as they were, except for new symbols in the scope `current`. -/
def Grows (t : ScopeTree) (current : Nat) (t' : ScopeTree) : Prop :=
  ∀ id s, t.scope? id = some s →
    ∃ s', t'.scope? id = some s' ∧ s.Grows s' ∧ (id ≠ current → s' = s)

section Growth

variable {t t' u : ScopeTree} {current id : Nat}

theorem Extends.refl (t : ScopeTree) : t.Extends t := fun _ _ h => h

theorem Extends.trans (h : t.Extends t') (k : t'.Extends u) : t.Extends u :=
  fun id s hs => k id s (h id s hs)

theorem Extends.grows (h : t.Extends t') (current : Nat) : t.Grows current t' :=
  fun id s hs => ⟨s, h id s hs, .refl s, fun _ => rfl⟩

theorem Refines.refl (t : ScopeTree) : t.Refines t := fun _ s h => ⟨s, h, .refl s⟩

theorem Refines.trans (h : t.Refines t') (k : t'.Refines u) : t.Refines u := by
  intro id s hs
  obtain ⟨s', hs', hg⟩ := h id s hs
  obtain ⟨s'', hs'', hg'⟩ := k id s' hs'
  exact ⟨s'', hs'', hg.trans hg'⟩

theorem Extends.refines (h : t.Extends t') : t.Refines t' := fun id s hs => ⟨s, h id s hs, .refl s⟩

theorem Grows.refines (h : t.Grows current t') : t.Refines t' := by
  intro id s hs
  obtain ⟨s', hs', hg, _⟩ := h id s hs
  exact ⟨s', hs', hg⟩

theorem Grows.refl (t : ScopeTree) (current : Nat) : t.Grows current t :=
  (Extends.refl t).grows current

theorem Grows.trans (h : t.Grows current t') (k : t'.Grows current u) : t.Grows current u := by
  intro id s hs
  obtain ⟨s', hs', hg, he⟩ := h id s hs
  obtain ⟨s'', hs'', hg', he'⟩ := k id s' hs'
  exact ⟨s'', hs'', hg.trans hg', fun hne => (he' hne).trans (he hne)⟩

/-- What happens in a new scope leaves the older ones as they were. -/
theorem Extends.trans_grows (h : t.Extends t') (k : t'.Grows current u) (hc : t.size ≤ current) :
    t.Extends u := by
  intro id s hs
  have hlt := lt_size_of_scope? hs
  obtain ⟨s', hs', _, he⟩ := k id s (h id s hs)
  rw [hs', he (by omega)]

theorem Refines.size_le (h : t.Refines t') : t.size ≤ t'.size := by
  refine Nat.le_of_not_lt fun hlt => ?_
  obtain ⟨s, hs⟩ := exists_scope? hlt
  obtain ⟨s', hs', _⟩ := h _ s hs
  exact Nat.lt_irrefl _ (lt_size_of_scope? hs')

theorem extends_createChild (t : ScopeTree) (parent : Nat) (kind : ScopeKind) :
    t.Extends (t.createChild parent kind) := by
  intro id s hs
  rw [scope?_createChild_of_lt (lt_size_of_scope? hs)]
  exact hs

theorem grows_addSymbol (t : ScopeTree) (current : Nat) (sym : Symbol) :
    t.Grows current (t.addSymbol current sym) := by
  intro id s hs
  by_cases h : id = current
  · subst h
    refine ⟨{ s with symbols := sym.declare s.symbols }, ?_, ⟨rfl, rfl, rfl, ?_⟩, by simp⟩
    · rw [addSymbol, scope?_modify_self, hs]
      rfl
    · intro name hn
      exact (Symbol.find?_declare_iff sym name s.symbols).mpr (Or.inr hn)
  · refine ⟨s, ?_, .refl s, fun _ => rfl⟩
    rw [addSymbol, scope?_modify_of_ne t _ h]
    exact hs

/-- The way outwards depends on the parents only. -/
theorem ancestors_congr
    (h : ∀ id s, t.scope? id = some s → ∃ s', t'.scope? id = some s' ∧ s'.parent = s.parent)
    (hid : id < t.size) : t'.ancestors id = t.ancestors id := by
  induction id using Nat.strongRecOn with
  | ind id ih =>
    obtain ⟨s, hs⟩ := exists_scope? hid
    obtain ⟨s', hs', hparent⟩ := h id s hs
    rw [ScopeTree.ancestors_eq t hs, ScopeTree.ancestors_eq t' hs', hparent]
    cases s.parent with
    | none => rfl
    | some p =>
      by_cases hp : p < id
      · simp only [hp, if_true, ih p hp (by omega)]
      · simp only [hp, if_false]

theorem Refines.ancestors_eq (h : t.Refines t') (hid : id < t.size) :
    t'.ancestors id = t.ancestors id := by
  refine ancestors_congr (fun id s hs => ?_) hid
  obtain ⟨s', hs', hg⟩ := h id s hs
  exact ⟨s', hs', hg.parent⟩

theorem Refines.kind?_eq (h : t.Refines t') (hid : id < t.size) : t'.kind? id = t.kind? id := by
  obtain ⟨s, hs⟩ := exists_scope? hid
  obtain ⟨s', hs', hg⟩ := h id s hs
  simp [kind?, hs, hs', hg.kind]

theorem Refines.isFunction_eq (h : t.Refines t') (hid : id < t.size) :
    t'.isFunction id = t.isFunction id := by
  simp only [isFunction, h.kind?_eq hid]

theorem Refines.parameterIndex?_eq (h : t.Refines t') (hid : id < t.size) (name : String) :
    t'.parameterIndex? id name = t.parameterIndex? id name := by
  obtain ⟨s, hs⟩ := exists_scope? hid
  obtain ⟨s', hs', hg⟩ := h id s hs
  simp [parameterIndex?, hs, hs', hg.parameters]

end Growth

/-! Looking names up -/

def Declares (t : ScopeTree) (id : Nat) (name : String) : Prop :=
  ∃ s, t.scope? id = some s ∧ s.Declares name

/-- Seen from the function scope `function`, the name is found in the scope `declaring` outside of
it. -/
structure Captures (t : ScopeTree) (function declaring : Nat) (name : String) : Prop where
  mem : declaring ∈ t.ancestors function
  lt : declaring < function
  declares : t.Declares declaring name
  nearest : ∀ a ∈ t.ancestors function, declaring < a → a < function → ¬ t.Declares a name

section Lookup

variable {t t' : ScopeTree} {current id : Nat} {name : String}

theorem Refines.declares (h : t.Refines t') (hd : t.Declares id name) : t'.Declares id name := by
  obtain ⟨s, hs, hn⟩ := hd
  obtain ⟨s', hs', hg⟩ := h id s hs
  exact ⟨s', hs', hg.declares name hn⟩

theorem Grows.declares_iff_of_ne (h : t.Grows current t') (hid : id < t.size) (hne : id ≠ current) :
    t'.Declares id name ↔ t.Declares id name := by
  obtain ⟨s, hs⟩ := exists_scope? hid
  obtain ⟨s', hs', _, he⟩ := h id s hs
  obtain rfl := he hne
  simp [Declares, hs, hs']

theorem declares_addSymbol {sym : Symbol} (hid : id < t.size) :
    (t.addSymbol id sym).Declares id sym.name := by
  obtain ⟨s, hs⟩ := exists_scope? hid
  refine ⟨{ s with symbols := sym.declare s.symbols }, ?_, ?_⟩
  · rw [addSymbol, scope?_modify_self, hs]
    rfl
  · exact (Symbol.find?_declare_iff sym sym.name s.symbols).mpr (Or.inl rfl)

/-- The entry of a scope for a name, as `lookup` asks for it. -/
theorem exists_entry_iff (t : ScopeTree) (a : Nat) (name : String) :
    (∃ r, ((t.scope? a).bind fun scope => (Symbol.find? name scope.symbols).map (a, ·)) = some r) ↔
      t.Declares a name := by
  simp only [Declares, Scope.Declares]
  cases t.scope? a with
  | none => simp
  | some s => cases h : Symbol.find? name s.symbols <;> simp [h]

theorem lookup_isSome_iff : (t.lookup id name).isSome ↔ ∃ a ∈ t.ancestors id, t.Declares a name := by
  rw [lookup, List.findSome?_isSome_iff]
  simp only [Option.isSome_iff_exists, exists_entry_iff]

/-- A name is found in the nearest scope that declares it. -/
theorem lookup_eq_some {d : Nat} {sym : Symbol} (h : t.lookup id name = some (d, sym)) :
    d ∈ t.ancestors id ∧ t.Declares d name ∧
      ∀ a ∈ t.ancestors id, d < a → ¬ t.Declares a name := by
  obtain ⟨before, a, after, hl, hf, hb⟩ := List.findSome?_eq_some_iff.mp h
  have hd := (exists_entry_iff t a name).mp ⟨_, hf⟩
  obtain rfl : a = d := by
    obtain ⟨s, hs, _⟩ := hd
    rw [hs, Option.bind_some, Option.map_eq_some_iff] at hf
    obtain ⟨_, _, heq⟩ := hf
    exact congrArg Prod.fst heq
  refine ⟨by simp [hl], hd, ?_⟩
  intro b hb' hlt hdec
  obtain ⟨r, hr⟩ := (exists_entry_iff t b name).mpr hdec
  have hsorted := t.ancestors_sorted id
  rw [hl] at hb' hsorted
  rcases List.mem_append.mp hb' with hm | hm
  · rw [hb b hm] at hr
    simp at hr
  · rcases List.mem_cons.mp hm with rfl | hm
    · exact Nat.lt_irrefl _ hlt
    · have := (List.pairwise_cons.mp (List.pairwise_append.mp hsorted).2.1).1 b hm
      omega

theorem Refines.lookup_isSome (h : t.Refines t') (hs : (t.lookup id name).isSome) :
    (t'.lookup id name).isSome := by
  rw [lookup_isSome_iff] at hs ⊢
  obtain ⟨a, ha, hd⟩ := hs
  exact ⟨a, h.ancestors_eq (lt_size_of_mem_ancestors ha) ▸ ha, h.declares hd⟩

/-- There is at most one such scope. -/
theorem Captures.unique {function d e : Nat} (h : t.Captures function d name)
    (k : t.Captures function e name) : d = e := by
  rcases Nat.lt_trichotomy d e with hlt | heq | hlt
  · exact absurd k.declares (h.nearest e k.mem hlt k.lt)
  · exact heq
  · exact absurd h.declares (k.nearest d h.mem hlt h.lt)

/-- Declarations inside the function do not matter. -/
theorem Grows.captures {function d : Nat} (h : t.Grows current t') (hc : function ≤ current)
    (k : t.Captures function d name) : t'.Captures function d name := by
  have hsize := lt_size_of_mem_ancestors k.mem
  refine ⟨h.refines.ancestors_eq hsize ▸ k.mem, k.lt, h.refines.declares k.declares, ?_⟩
  intro a ha hlt hlt'
  rw [h.refines.ancestors_eq hsize] at ha
  rw [h.declares_iff_of_ne (by omega) (by omega)]
  exact k.nearest a ha hlt hlt'

/-- A use in the scope `scope` of the name that the scope `declaring` declares: nothing between the
function around the use and the declaration has the same name. -/
structure Sees (t : ScopeTree) (scope declaring : Nat) (name : String) : Prop where
  mem : declaring ∈ t.ancestors scope
  declares : t.Declares declaring name
  captures : ∀ f, t.enclosing? scope .function = some f → declaring < f →
    t.Captures f declaring name

theorem Refines.enclosing?_eq (h : t.Refines t') (hid : id < t.size) (kind : ScopeKind) :
    t'.enclosing? id kind = t.enclosing? id kind := by
  rw [enclosing?, enclosing?, h.ancestors_eq hid]
  have hkind : ∀ a ∈ t.ancestors id, t'.kind? a = t.kind? a :=
    fun a ha => h.kind?_eq (Nat.lt_of_le_of_lt (le_of_mem_ancestors ha) hid)
  generalize t.ancestors id = chain at hkind ⊢
  induction chain with
  | nil => rfl
  | cons a rest ih =>
    rw [List.find?_cons, List.find?_cons, hkind a List.mem_cons_self,
      ih fun b hb => hkind b (List.mem_cons_of_mem a hb)]

theorem mem_ancestors_of_enclosing? {kind : ScopeKind} {f : Nat}
    (h : t.enclosing? id kind = some f) : f ∈ t.ancestors id := List.mem_of_find?_eq_some h

theorem sees_of_lookup {d : Nat} {sym : Symbol} (h : t.lookup id name = some (d, sym)) :
    t.Sees id d name := by
  obtain ⟨hm, hd, hnear⟩ := lookup_eq_some h
  refine ⟨hm, hd, ?_⟩
  intro f hf hlt
  have hfm := mem_ancestors_of_enclosing? hf
  refine ⟨?_, hlt, hd, ?_⟩
  · exact mem_ancestors_of_lt hm hfm hlt
  · intro a ha hda _
    exact hnear a (mem_ancestors_trans ha hfm) hda

theorem Grows.sees {d : Nat} (h : t.Grows id t') (k : t.Sees id d name) : t'.Sees id d name := by
  have hid := lt_size_of_mem_ancestors k.mem
  refine ⟨h.refines.ancestors_eq hid ▸ k.mem, h.refines.declares k.declares, ?_⟩
  intro f hf hlt
  rw [h.refines.enclosing?_eq hid] at hf
  exact h.captures (le_of_mem_ancestors (mem_ancestors_of_enclosing? hf)) (k.captures f hf hlt)

end Lookup

/-! What is seen from a scope -/

/-- The symbols of a scope. -/
def symbols (t : ScopeTree) (id : Nat) : List Symbol := ((t.scope? id).map Scope.symbols).getD []

/-- The symbols of the scope and of those around it, from the inside out. -/
def tables (t : ScopeTree) (id : Nat) : List (List Symbol) := (t.ancestors id).map t.symbols

section Tables

variable {t t' : ScopeTree} {id : Nat}

/-- Which symbol is found does not depend on the numbers of the scopes. -/
theorem map_lookup (t : ScopeTree) (id : Nat) (name : String) :
    (t.lookup id name).map Prod.snd = (t.tables id).findSome? (Symbol.find? name) := by
  rw [lookup, tables, List.map_findSome?, List.findSome?_map]
  congr 1
  funext a
  cases h : t.scope? a with
  | none => simp [symbols, h, Symbol.find?]
  | some s => simp [symbols, h, Function.comp_def]

theorem Extends.tables_eq (h : t.Extends t') (hid : id < t.size) : t'.tables id = t.tables id := by
  rw [tables, tables, h.refines.ancestors_eq hid]
  refine List.map_congr_left fun a ha => ?_
  obtain ⟨s, hs⟩ := exists_scope? (Nat.lt_of_le_of_lt (le_of_mem_ancestors ha) hid)
  simp [symbols, hs, h a s hs]

theorem tables_createChild {parent : Nat} (hp : parent < t.size) (kind : ScopeKind) :
    (t.createChild parent kind).tables t.size = [] :: t.tables parent := by
  have hself := t.scope?_createChild_self parent kind
  rw [tables, ancestors_eq _ hself]
  simp only [hp, if_true, List.map_cons]
  refine List.cons_eq_cons.mpr ⟨by simp [symbols, hself], ?_⟩
  exact (t.extends_createChild parent kind).tables_eq hp

/-- A change of the symbols of a scope is seen from that scope. -/
theorem tables_modify {f : Scope → Scope} {g : List Symbol → List Symbol}
    (hparent : ∀ s, (f s).parent = s.parent) (hsymbols : ∀ s, (f s).symbols = g s.symbols)
    (hid : id < t.size) : (t.modify id f).tables id = (t.tables id).modifyHead g := by
  have hancestors : (t.modify id f).ancestors id = t.ancestors id := by
    refine ancestors_congr (fun a s hs => ?_) hid
    by_cases ha : a = id
    · subst ha
      exact ⟨f s, by rw [scope?_modify_self, hs]; rfl, hparent s⟩
    · exact ⟨s, by rw [scope?_modify_of_ne t f ha, hs], rfl⟩
  obtain ⟨s, hs⟩ := exists_scope? hid
  have hsorted := t.ancestors_sorted id
  rw [tables, tables, hancestors]
  rw [ancestors_eq t hs, List.pairwise_cons] at hsorted
  rw [ancestors_eq t hs, List.map_cons, List.map_cons, List.modifyHead_cons]
  refine List.cons_eq_cons.mpr ⟨?_, List.map_congr_left fun a ha => ?_⟩
  · simp [symbols, scope?_modify_self, hs, hsymbols]
  · have hne : a ≠ id := Nat.ne_of_lt (hsorted.1 a ha)
    simp only [symbols, scope?_modify_of_ne t f hne]

theorem tables_addSymbol (s : Symbol) (hid : id < t.size) :
    (t.addSymbol id s).tables id = (t.tables id).modifyHead s.declare :=
  tables_modify (fun _ => rfl) (fun _ => rfl) hid

theorem tables_addParameter (name : String) (type : Ty) (hid : id < t.size) :
    (t.addParameter id name type).tables id =
      (t.tables id).modifyHead (Symbol.declare ⟨name, type, false, false⟩) :=
  tables_modify (fun _ => rfl) (fun _ => rfl) hid

end Tables

end ScopeTree

end Tern
