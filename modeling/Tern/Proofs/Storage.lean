import Tern.Proofs.Check.Arena

/-!
Which uses of variables share their storage. Captured variables and parameters never do: all uses in
one function that say the same see the same declaration. Two local variables of one function do if
they have the same name and different blocks declare them.
-/

set_option autoImplicit false

namespace Tern

namespace ScopeTree

variable {t : ScopeTree}

/-! Functions between a use and its declaration -/

/-- The first element with a property, in a list that decreases, is the greatest one. -/
theorem find?_of_sorted {p : Nat → Bool} {l : List Nat} (hl : l.Pairwise (· > ·)) {f : Nat} :
    l.find? p = some f ↔ f ∈ l ∧ p f ∧ ∀ a ∈ l, f < a → p a = false := by
  induction l with
  | nil => simp
  | cons x l ih =>
    obtain ⟨hx, hl⟩ := List.pairwise_cons.mp hl
    rw [List.find?_cons]
    cases hp : p x with
    | true =>
      simp only [Option.some.injEq, List.mem_cons]
      constructor
      · rintro rfl
        refine ⟨Or.inl rfl, hp, ?_⟩
        rintro a (rfl | ha) hlt
        · omega
        · have := hx a ha
          omega
      · rintro ⟨rfl | hf, _, hmax⟩
        · rfl
        · have := hmax x (Or.inl rfl) (hx f hf)
          simp [hp] at this
    | false =>
      rw [ih hl]
      simp only [List.mem_cons, forall_eq_or_imp, hp, implies_true, true_and]
      constructor
      · exact fun ⟨hf, h⟩ => ⟨Or.inr hf, h⟩
      · rintro ⟨rfl | hf, hpf, hmax⟩
        · simp [hp] at hpf
        · exact ⟨hf, hpf, hmax⟩

theorem enclosing?_function_eq_some {s f : Nat} :
    t.enclosing? s .function = some f ↔
      f ∈ t.ancestors s ∧ t.isFunction f ∧ ∀ a ∈ t.ancestors s, f < a → t.isFunction a = false :=
  find?_of_sorted (t.ancestors_sorted s)

/-- No function is left on the way to a scope if there is none further in. -/
theorem boundaries?_eq_zero {d : Nat} {l : List Nat} (hl : l.Pairwise (· > ·)) (hd : d ∈ l) :
    t.boundaries? d l = some 0 ↔ ∀ a ∈ l, d < a → t.isFunction a = false := by
  induction l with
  | nil => simp at hd
  | cons x l ih =>
    obtain ⟨hx, hl⟩ := List.pairwise_cons.mp hl
    rw [boundaries?]
    by_cases hxd : x = d
    · subst hxd
      simp only [if_true, true_iff, List.mem_cons, forall_eq_or_imp, Nat.lt_irrefl, false_imp_iff,
        true_and]
      intro a ha hlt
      have := hx a ha
      omega
    · have hd' := (List.mem_cons.mp hd).resolve_left (Ne.symm hxd)
      rw [if_neg hxd, List.forall_mem_cons, ← ih hl hd']
      obtain ⟨n, hn⟩ := t.exists_boundaries? hd'
      have hlt : d < x := hx d hd'
      cases hf : t.isFunction x <;> simp [hn, hlt]

/-- The scope `declaring` is a block of the innermost function around `scope`, or both are outside
of all functions. -/
def LocalIn (t : ScopeTree) (declaring scope : Nat) : Prop :=
  t.isFunction declaring = false ∧ t.enclosing? declaring .function = t.enclosing? scope .function

theorem localIn_iff {d s : Nat} (hd : d ∈ t.ancestors s) :
    t.LocalIn d s ↔ ∀ a ∈ t.ancestors s, d ≤ a → t.isFunction a = false := by
  constructor
  · rintro ⟨hdf, heq⟩ a ha hle
    rcases Nat.eq_or_lt_of_le hle with rfl | hlt
    · exact hdf
    · refine Bool.eq_false_iff.mpr fun haf => ?_
      -- a function further in would be around `s` and not around `d`
      obtain ⟨f, hf⟩ : ∃ f, t.enclosing? s .function = some f := by
        rw [← Option.isSome_iff_exists, enclosing?, List.find?_isSome]
        exact ⟨a, ha, haf⟩
      have hmax := (enclosing?_function_eq_some.mp hf).2.2 a ha
      have hfd := le_of_mem_ancestors (enclosing?_function_eq_some.mp (heq ▸ hf)).1
      have hfa : ¬ f < a := fun hlt => by simp [hmax hlt] at haf
      omega
  · intro h
    refine ⟨h d hd (Nat.le_refl d), Option.ext fun f => ?_⟩
    rw [enclosing?_function_eq_some, enclosing?_function_eq_some]
    constructor
    · rintro ⟨hf, hfun, hmax⟩
      refine ⟨mem_ancestors_trans hf hd, hfun, fun a ha hlt => ?_⟩
      rcases Nat.lt_or_ge a d with had | had
      · exact hmax a (mem_ancestors_of_lt ha hd had) hlt
      · exact h a ha had
    · rintro ⟨hf, hfun, hmax⟩
      have hlt : f < d := Nat.lt_of_not_le fun hle => by simp [h f hf hle] at hfun
      exact ⟨mem_ancestors_of_lt hf hd hlt, hfun, fun a ha => hmax a (mem_ancestors_trans ha hd)⟩

/-- A variable is captured, a parameter of the function around, or local in it. -/
theorem captured_or_parameter_or_local {d s : Nat} (hd : d ∈ t.ancestors s) :
    (∃ f, t.enclosing? s .function = some f ∧ d < f) ∨ t.enclosing? s .function = some d ∨
      t.LocalIn d s := by
  rw [localIn_iff hd]
  cases hf : t.enclosing? s .function with
  | none =>
    refine Or.inr (Or.inr fun a ha _ => ?_)
    simpa [isFunction] using List.find?_eq_none.mp hf a ha
  | some f =>
    obtain ⟨_, _, hmax⟩ := enclosing?_function_eq_some.mp hf
    rcases Nat.lt_trichotomy d f with hlt | rfl | hlt
    · exact Or.inl ⟨f, rfl, hlt⟩
    · exact Or.inr (Or.inl rfl)
    · exact Or.inr (Or.inr fun a ha hle => hmax a ha (Nat.lt_of_lt_of_le hlt hle))

end ScopeTree

namespace Storage

open ScopeTree

variable {t : ScopeTree} {a : Access} {d : Nat} {name : String}

theorem classify_captured {f : Nat} (ht : a.target = .nested d name) (hd : d ∈ t.ancestors a.scope)
    (hf : t.enclosing? a.scope .function = some f) (hlt : d < f) :
    ∃ n, classify t a = .ok (.outer name (n + 1)) := by
  obtain ⟨n, hn⟩ := t.exists_boundaries? hd
  obtain ⟨hmem, hfun, _⟩ := enclosing?_function_eq_some.mp hf
  cases n with
  | zero =>
    have := (boundaries?_eq_zero (t.ancestors_sorted _) hd).mp hn f hmem hlt
    simp [this] at hfun
  | succ n => exact ⟨n, by simp [classify, ht, hn]⟩

theorem classify_parameter {i : Nat} (ht : a.target = .nested d name)
    (hf : t.enclosing? a.scope .function = some d) (hi : t.parameterIndex? d name = some i) :
    classify t a = .ok (.argument i) := by
  obtain ⟨hd, hfun, hmax⟩ := enclosing?_function_eq_some.mp hf
  have hn := (boundaries?_eq_zero (t.ancestors_sorted _) hd).mpr hmax
  simp [classify, ht, hn, hfun, hi]

theorem classify_local (ht : a.target = .nested d name) (hd : d ∈ t.ancestors a.scope)
    (hl : t.LocalIn d a.scope) : classify t a = .ok (.frame name) := by
  have hmax := (localIn_iff hd).mp hl
  have hn := (boundaries?_eq_zero (t.ancestors_sorted _) hd).mpr fun b hb hlt =>
    hmax b hb (Nat.le_of_lt hlt)
  simp [classify, ht, hn, hl.1]

end Storage

/-! All uses of a unit -/

/-- A use in the function `f` of a name that the scope `d` outside of it declares. -/
structure ScopeTree.CapturedUse (t : ScopeTree) (a : Access) (f d : Nat) (name : String) : Prop where
  target : a.target = .nested d name
  function : t.enclosing? a.scope .function = some f
  lt : d < f

namespace Context

/-- A function declares nothing but its parameters in its own scope. -/
def OnlyParameters (t : ScopeTree) : Prop :=
  ∀ id s, t.scope? id = some s → s.kind = .function → ∀ x, s.Declares x → x ∈ s.parameters

/-- What the uses of variables so far see. As long as a function is open, its uses captured what a
new use would capture; so its uses agree. -/
structure Consistent (c : Context) : Prop where
  parameters : OnlyParameters c.program.scopes
  declares : ∀ a ∈ c.program.accesses, ∀ d name, a.target = .nested d name →
    d ∈ c.program.scopes.ancestors a.scope ∧ c.program.scopes.Declares d name
  captures : ∀ a ∈ c.program.accesses, ∀ f d name, c.program.scopes.CapturedUse a f d name →
    f ∈ c.program.scopes.ancestors c.scope → c.program.scopes.Captures f d name
  agree : ∀ a ∈ c.program.accesses, ∀ b ∈ c.program.accesses, ∀ f d e name,
    c.program.scopes.CapturedUse a f d name → c.program.scopes.CapturedUse b f e name → d = e

variable {c : Context}

theorem Consistent.lt_size (h : c.Consistent) {a : Access} (ha : a ∈ c.program.accesses) {d : Nat}
    {name : String} (ht : a.target = .nested d name) : a.scope < c.program.scopes.size :=
  ScopeTree.lt_size_of_mem_ancestors (h.declares a ha d name ht).1

theorem Consistent.capturedUse {t : ScopeTree} (h : c.Consistent)
    (ht : c.program.scopes.Grows c.scope t) {a : Access} (ha : a ∈ c.program.accesses) {f d : Nat}
    {name : String} (hu : t.CapturedUse a f d name) : c.program.scopes.CapturedUse a f d name := by
  have hlt := h.lt_size ha hu.target
  exact ⟨hu.target, ht.refines.enclosing?_eq hlt _ ▸ hu.function, hu.lt⟩

/-- New declarations in the current scope, and new scopes. -/
theorem Consistent.regrow {t : ScopeTree} (h : c.Consistent) (hc : c.scope < c.program.scopes.size)
    (ht : c.program.scopes.Grows c.scope t) (hp : OnlyParameters t) :
    Consistent { c with program := { c.program with scopes := t } } where
  parameters := hp
  declares := by
    intro a ha d name hta
    obtain ⟨hd, hdecl⟩ := h.declares a ha d name hta
    exact ⟨ht.refines.ancestors_eq (ScopeTree.lt_size_of_mem_ancestors hd) ▸ hd, ht.refines.declares hdecl⟩
  captures := by
    intro a ha f d name hu hf
    have hf' : f ∈ c.program.scopes.ancestors c.scope := ht.refines.ancestors_eq hc ▸ hf
    have hcap := h.captures a ha f d name (h.capturedUse ht ha hu) hf'
    exact ht.captures (ScopeTree.le_of_mem_ancestors hf') hcap
  agree := by
    intro a ha b hb f d e name hu hv
    exact h.agree a ha b hb f d e name (h.capturedUse ht ha hu) (h.capturedUse ht hb hv)

theorem Consistent.rescope (h : c.Consistent) (scope : Nat) (returnTypes : List Ty)
    (hsub : ∀ a ∈ c.program.accesses, ∀ f d name, c.program.scopes.CapturedUse a f d name →
      f ∈ c.program.scopes.ancestors scope → f ∈ c.program.scopes.ancestors c.scope) :
    Consistent { c with scope, returnTypes } where
  parameters := h.parameters
  declares := h.declares
  captures := fun a ha f d name hu hf => h.captures a ha f d name hu (hsub a ha f d name hu hf)
  agree := h.agree

/-- A new use sees what the open functions around it captured. -/
theorem Consistent.alloc {permit : Permit} {e : Expr} (h : c.Consistent) (t : Ty)
    (he : c.Admits permit e) :
    (c.alloc e t).Consistent := by
  have hnew {a : Access} (ha : a ∈ (c.alloc e t).program.accesses) :
      a ∈ c.program.accesses ∨ c.Sees a := by
    rw [accesses_alloc, List.mem_append, Option.mem_toList] at ha
    exact ha.imp_right (he.access a)
  -- what a use in an open function captured, whether it is a new use or not
  have hcap {a : Access} {f d : Nat} {name : String} (ha : a ∈ (c.alloc e t).program.accesses)
      (hu : c.program.scopes.CapturedUse a f d name)
      (hf : f ∈ c.program.scopes.ancestors c.scope) : c.program.scopes.Captures f d name := by
    rcases hnew ha with ha | ha
    · exact h.captures a ha f d name hu hf
    · exact (ha.nested hu.target).captures f (ha.scope ▸ hu.function) hu.lt
  refine ⟨h.parameters, ?_, fun a ha f d name hu hf => hcap ha hu hf, ?_⟩
  · intro a ha d name hta
    rcases hnew ha with ha | ha
    · exact h.declares a ha d name hta
    · have hs := ha.nested hta
      exact ⟨ha.scope ▸ hs.mem, hs.declares⟩
  · intro a ha b hb f d f' name hu hv
    rcases hnew ha with ha' | ha'
    · rcases hnew hb with hb' | hb'
      · exact h.agree a ha' b hb' f d f' name hu hv
      · have hf := hb'.scope ▸ ScopeTree.mem_ancestors_of_enclosing? hv.function
        exact (hcap ha hu hf).unique (hcap hb hv hf)
    · have hf := ha'.scope ▸ ScopeTree.mem_ancestors_of_enclosing? hu.function
      exact (hcap ha hu hf).unique (hcap hb hv hf)

theorem onlyParameters_addSymbol {t : ScopeTree} {id : Nat} (h : OnlyParameters t)
    (hid : t.isFunction id = false) (s : Symbol) : OnlyParameters (t.addSymbol id s) := by
  intro id' s' hs' hk x hx
  have hlt : id' < t.size := by simpa [ScopeTree.addSymbol] using ScopeTree.lt_size_of_scope? hs'
  obtain ⟨r, hr⟩ := ScopeTree.exists_scope? hlt
  obtain ⟨r', hr', hg, heq⟩ := ScopeTree.grows_addSymbol t id s id' r hr
  obtain rfl : r' = s' := Option.some.inj (hr'.symm.trans hs')
  by_cases hne : id' = id
  · simp [ScopeTree.isFunction, ScopeTree.kind?, ← hne, hr, ← hg.kind, hk] at hid
  · obtain rfl := heq hne
    exact h id' r' hr hk x hx

theorem onlyParameters_opens {t t' : ScopeTree} {parent : Nat} (h : OnlyParameters t)
    (ho : t.Opens parent t') : OnlyParameters t' := by
  intro id s hs hk x hx
  have hlt := ScopeTree.lt_size_of_scope? hs
  rw [ho.size] at hlt
  rcases Nat.lt_succ_iff_lt_or_eq.mp hlt with hlt | rfl
  · obtain ⟨r, hr⟩ := ScopeTree.exists_scope? hlt
    obtain rfl : r = s := Option.some.inj ((ho.older id r hr).symm.trans hs)
    exact h id r hr hk x hx
  · obtain ⟨r, hr, _, hown⟩ := ho.scope
    obtain rfl : r = s := Option.some.inj (hr.symm.trans hs)
    exact hown x hx

theorem kept_consistent {permit : Permit} : Kept permit Consistent where
  later ds h _ := ⟨h.parameters, h.declares, h.captures, h.agree⟩
  alloc t h he := h.alloc t he
  declareLocal s h hin :=
    h.regrow hin.placed (ScopeTree.grows_addSymbol _ _ s) (onlyParameters_addSymbol h.parameters hin.kind s)
  inside {c t} rs h ho := by
    have h' := h.regrow ho.placed (ho.older.grows _) (onlyParameters_opens h.parameters ho)
    refine h'.rescope c.program.scopes.size rs fun a ha f d name hu hf => ?_
    -- no use was made in the new scope yet
    have hle := ScopeTree.le_of_mem_ancestors (ScopeTree.mem_ancestors_of_enclosing? hu.function)
    have hlt := h.lt_size ha hu.target
    rw [ho.ancestors_eq, List.mem_cons] at hf
    have hf' := hf.resolve_left (by omega)
    exact (ho.older.refines.ancestors_eq ho.placed).symm ▸ hf'
  leave {c c' t} rs _ ho hg h := by
    refine h.rescope c.scope c.returnTypes fun a ha f d name _ hf => ?_
    have hsize : c.program.scopes.size < t.size := ho.size ▸ Nat.lt_succ_self _
    have hout : c'.program.scopes.ancestors c.scope = c.program.scopes.ancestors c.scope :=
      (hg.scopes.refines.ancestors_eq (Nat.lt_trans ho.placed hsize)).trans
        (ho.older.refines.ancestors_eq ho.placed)
    have hin : c'.program.scopes.ancestors c'.scope =
        c.program.scopes.size :: c.program.scopes.ancestors c.scope := by
      rw [hg.scope]
      exact (hg.scopes.refines.ancestors_eq hsize).trans ho.ancestors_eq
    rw [hin, ← hout]
    exact List.mem_cons_of_mem _ hf
  generics names h := ⟨h.parameters, h.declares, h.captures, h.agree⟩

/-- What the storage of a use says about the variable. -/
theorem Consistent.classify_cases (h : c.Consistent) {a : Access} (ha : a ∈ c.program.accesses)
    {d : Nat} {x : String} (ht : a.target = .nested d x) :
    (∃ f n, c.program.scopes.CapturedUse a f d x ∧
      Storage.classify c.program.scopes a = .ok (.outer x (n + 1))) ∨
    (c.program.scopes.enclosing? a.scope .function = some d ∧
      ∃ i, c.program.scopes.parameterIndex? d x = some i ∧
        Storage.classify c.program.scopes a = .ok (.argument i)) ∨
    (c.program.scopes.LocalIn d a.scope ∧
      Storage.classify c.program.scopes a = .ok (.frame x)) := by
  obtain ⟨hd, s, hs, hdecl⟩ := h.declares a ha d x ht
  rcases ScopeTree.captured_or_parameter_or_local hd with ⟨f, hf, hlt⟩ | hf | hl
  · obtain ⟨n, hn⟩ := Storage.classify_captured ht hd hf hlt
    exact Or.inl ⟨f, n, ⟨ht, hf, hlt⟩, hn⟩
  · have hk : s.kind = .function := by
      simpa [ScopeTree.isFunction, ScopeTree.kind?, hs] using
        (ScopeTree.enclosing?_function_eq_some.mp hf).2.1
    obtain ⟨i, hi⟩ := ScopeTree.exists_lastIndexOf? (h.parameters d s hs hk x hdecl)
    have hi' : c.program.scopes.parameterIndex? d x = some i := by
      simpa [ScopeTree.parameterIndex?, hs] using hi
    exact Or.inr (Or.inl ⟨hf, i, hi', Storage.classify_parameter ht hf hi'⟩)
  · exact Or.inr (Or.inr ⟨hl, Storage.classify_local ht hd hl⟩)

end Context

theorem ScopeTree.parameterIndex?_inj {t : ScopeTree} {d i : Nat} {x y : String}
    (hx : t.parameterIndex? d x = some i) (hy : t.parameterIndex? d y = some i) : x = y := by
  obtain ⟨s, hs, hi⟩ := Option.bind_eq_some_iff.mp hx
  obtain ⟨s', hs', hj⟩ := Option.bind_eq_some_iff.mp hy
  obtain rfl : s = s' := Option.some.inj (hs.symm.trans hs')
  exact Option.some.inj ((getElem?_lastIndexOf? hi).symm.trans (getElem?_lastIndexOf? hj))

/-- Equal storage means equal variables, but for local variables. -/
theorem Context.Consistent.eq_or_local {c : Context} (h : c.Consistent) {a b : Access}
    (ha : a ∈ c.program.accesses) (hb : b ∈ c.program.accesses) {d e : Nat} {x y : String}
    (hta : a.target = .nested d x) (htb : b.target = .nested e y)
    (hf : c.program.scopes.enclosing? a.scope .function =
      c.program.scopes.enclosing? b.scope .function)
    (heq : Storage.classify c.program.scopes a = Storage.classify c.program.scopes b) :
    x = y ∧ (d = e ∨ c.program.scopes.LocalIn d a.scope ∧ c.program.scopes.LocalIn e b.scope) := by
  rcases h.classify_cases ha hta with ⟨f, n, hu, hca⟩ | ⟨hda, i, hi, hca⟩ | ⟨hla, hca⟩ <;>
    rcases h.classify_cases hb htb with ⟨g, m, hv, hcb⟩ | ⟨heb, j, hj, hcb⟩ | ⟨hlb, hcb⟩ <;>
    simp only [hca, hcb, Except.ok.injEq, Storage.outer.injEq, Storage.argument.injEq,
      Storage.frame.injEq, reduceCtorEq] at heq
  · obtain ⟨rfl, _⟩ := heq
    have hfg : f = g := Option.some.inj (hu.function.symm.trans (hf.trans hv.function))
    subst hfg
    exact ⟨rfl, Or.inl (h.agree a ha b hb f d e x hu hv)⟩
  · obtain rfl : d = e := Option.some.inj (hda.symm.trans (hf.trans heb))
    subst heq
    exact ⟨ScopeTree.parameterIndex?_inj hi hj, Or.inl rfl⟩
  · exact ⟨heq, Or.inr ⟨hla, hlb⟩⟩

theorem SourceUnit.consistent_check (u : SourceUnit) (ns : Namespace) (default : PackagePath) :
    (u.check ns default).2.Consistent := by
  refine (u.check_invariant false (by simp) ?_ ?_).2
  · intro c hc _
    have hacc : c.program.accesses = [] := by simp [hc.program, Program.init, Program.accesses]
    refine ⟨?_, by simp [hacc], by simp [hacc], by simp [hacc]⟩
    intro id s hs hk
    rw [hc.program, Program.init, ScopeTree.init, ScopeTree.scope?, ScopeTree.scopeIn?,
      ScopeTree.scopeIn?] at hs
    split at hs
    · cases hs
      simp at hk
    · simp at hs
  · intro c id c' _ hin hc hb
    have hc' := hb.keeps Context.kept_consistent hin hc
    exact ⟨hc'.parameters, hc'.declares, hc'.captures, hc'.agree⟩

/-- Two uses in one function share their storage without meaning the same variable exactly if their
variables have one name and are declared in different blocks of that function. -/
theorem SourceUnit.shared_storage_iff (u : SourceUnit) (ns : Namespace) (default : PackagePath)
    {a b : Access} {d e : Nat} {x y : String}
    (ha : a ∈ (u.check ns default).2.program.accesses)
    (hb : b ∈ (u.check ns default).2.program.accesses)
    (hta : a.target = .nested d x) (htb : b.target = .nested e y)
    (hf : (u.check ns default).2.program.scopes.enclosing? a.scope .function =
      (u.check ns default).2.program.scopes.enclosing? b.scope .function) :
    (Storage.classify (u.check ns default).2.program.scopes a =
        Storage.classify (u.check ns default).2.program.scopes b ∧ a.target ≠ b.target) ↔
      x = y ∧ d ≠ e ∧ (u.check ns default).2.program.scopes.LocalIn d a.scope ∧
        (u.check ns default).2.program.scopes.LocalIn e b.scope := by
  have h := u.consistent_check ns default
  constructor
  · rintro ⟨heq, hne⟩
    obtain ⟨rfl, hd⟩ := h.eq_or_local ha hb hta htb hf heq
    have hde : d ≠ e := by
      rintro rfl
      exact hne (hta.trans htb.symm)
    exact ⟨rfl, hde, hd.resolve_left hde⟩
  · rintro ⟨rfl, hde, hla, hlb⟩
    rw [Storage.classify_local hta (h.declares a ha d x hta).1 hla,
      Storage.classify_local htb (h.declares b hb e x htb).1 hlb]
    refine ⟨rfl, ?_⟩
    rw [hta, htb]
    simpa using hde

/-- The function

    fn f(): int {
      val x = 1
      val y = {
        val x = 2
        x
      }
      x + y
    }
-/
def shadowing : SourceUnit where
  package := none
  imports := []
  items :=
    [.function ⟨"f", false, [], [], some (.named "int" ⟨8, 11⟩)⟩
      [.define ⟨"x", false, false, none⟩ (.literal (.int 1) ⟨24, 25⟩) ⟨16, 25⟩,
       .define ⟨"y", false, false, none⟩
        (.block
          [.define ⟨"x", false, false, none⟩ (.literal (.int 2) ⟨50, 51⟩) ⟨42, 51⟩,
           .name "x" ⟨56, 57⟩]
          ⟨36, 61⟩)
        ⟨28, 61⟩,
       .binary .add (.name "x" ⟨64, 65⟩) (.name "y" ⟨68, 69⟩) ⟨64, 69⟩]
      ⟨0, 71⟩]

/-- The context after the function is checked. -/
def shadowed : Context := (shadowing.check .withPrelude ⟨"user", "default"⟩).2

theorem accesses_shadowed : shadowed.program.accesses =
    [⟨.nested 3 "x", 3, ⟨56, 57⟩⟩, ⟨.nested 2 "x", 2, ⟨64, 65⟩⟩, ⟨.nested 2 "y", 2, ⟨68, 69⟩⟩] := by
  cbv

theorem mem_accesses_inner : ⟨.nested 3 "x", 3, ⟨56, 57⟩⟩ ∈ shadowed.program.accesses := by
  simp [accesses_shadowed]

theorem mem_accesses_outer : ⟨.nested 2 "x", 2, ⟨64, 65⟩⟩ ∈ shadowed.program.accesses := by
  simp [accesses_shadowed]

theorem shadowed_shares_storage :
    Storage.classify shadowed.program.scopes ⟨.nested 3 "x", 3, ⟨56, 57⟩⟩ =
        Storage.classify shadowed.program.scopes ⟨.nested 2 "x", 2, ⟨64, 65⟩⟩ ∧
      (.nested 3 "x" : Target) ≠ .nested 2 "x" :=
  (shadowing.shared_storage_iff .withPrelude ⟨"user", "default"⟩ mem_accesses_inner
    mem_accesses_outer rfl rfl (by cbv)).mpr
    ⟨rfl, by decide, ⟨by cbv, by cbv⟩, ⟨by cbv, by cbv⟩⟩

/-- The two variables `x` have the same storage, and nothing is reported. -/
theorem storage_identifies_no_variable :
    ¬ ∀ (u : SourceUnit) (ns : Namespace) (default : PackagePath),
      (u.check ns default).2.diagnostics = [] →
      ∀ a ∈ (u.check ns default).2.program.accesses, ∀ b ∈ (u.check ns default).2.program.accesses,
      ∀ d e x y, a.target = .nested d x → b.target = .nested e y →
      (u.check ns default).2.program.scopes.enclosing? a.scope .function =
        (u.check ns default).2.program.scopes.enclosing? b.scope .function →
      Storage.classify (u.check ns default).2.program.scopes a =
        Storage.classify (u.check ns default).2.program.scopes b → a.target = b.target := by
  intro h
  have hd : shadowed.diagnostics = [] := by cbv
  have hne := h shadowing .withPrelude ⟨"user", "default"⟩ hd _ mem_accesses_inner _
    mem_accesses_outer 3 2 "x" "x" rfl rfl (by cbv) (by cbv)
  simp at hne

end Tern
