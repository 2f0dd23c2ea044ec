import Tern.Proofs.Check.Built

/-!
What names refer to while a context grows: a name that refers to something goes on to do so, and
what a use refers to stays in reach.
-/

set_option autoImplicit false

namespace Tern

theorem Symbol.name_eq_of_find? {name : String} {symbols : List Symbol} {s : Symbol}
    (h : Symbol.find? name symbols = some s) : s.name = name := by
  simpa using List.find?_some h

namespace Context

/-- The name refers to something. -/
def Resolves (c : Context) (name : String) : Prop := (c.resolveName name).isSome

/-- The context is in a scope of its tree, and certain names resolve in it. -/
structure Ready (c : Context) (known : String → Prop) : Prop where
  placed : c.scope < c.program.scopes.size
  resolves : ∀ name, known name → c.Resolves name

variable {c c' : Context} {name : String} {known : String → Prop}

theorem packageSymbol?_isSome (path : PackagePath) :
    (c.packageSymbol? path name).isSome ↔ (c.ns.symbol? path name).isSome := by
  simp [packageSymbol?]

theorem resolves_iff : c.Resolves name ↔
    (c.program.scopes.lookup c.scope name).isSome ∨
    (∃ i, c.imports.name? name = some i ∧ (c.ns.symbol? i.path i.name).isSome) ∨
    (c.ns.symbol? c.path name).isSome ∨ (c.ns.symbol? Namespace.preludePath name).isSome := by
  simp only [Resolves, resolveName, resolveOutside, ← packageSymbol?_isSome]
  cases c.program.scopes.lookup c.scope name with
  | some x => simp
  | none =>
    cases c.packageSymbol? c.path name with
    | some r => cases c.imports.name? name with
      | none => simp
      | some i => cases h : c.packageSymbol? i.path i.name <;> simp [h]
    | none => cases c.imports.name? name with
      | none => simp
      | some i => cases h : c.packageSymbol? i.path i.name <;> simp [h]

theorem Grows.resolves (h : c.Grows c') (hr : c.Resolves name) : c'.Resolves name := by
  rw [resolves_iff] at hr ⊢
  rw [h.scope, h.imports, h.path]
  rcases hr with hr | ⟨i, hi, hr⟩ | hr | hr
  · exact Or.inl (h.scopes.refines.lookup_isSome hr)
  · exact Or.inr (Or.inl ⟨i, hi, h.ns.symbol _ _ hr⟩)
  · exact Or.inr (Or.inr (Or.inl (h.ns.symbol _ _ hr)))
  · exact Or.inr (Or.inr (Or.inr (h.ns.symbol _ _ hr)))

theorem Grows.ready (h : c.Grows c') (hc : c.Ready known) : c'.Ready known where
  placed := h.placed hc.placed
  resolves := fun name hn => h.resolves (hc.resolves name hn)

theorem Ready.mono {known' : String → Prop} (hc : c.Ready known) (h : ∀ x, known' x → known x) :
    c.Ready known' := ⟨hc.placed, fun name hn => hc.resolves name (h name hn)⟩

theorem Ready.insert (hc : c.Ready known) (h : c.Resolves name) :
    c.Ready fun x => x = name ∨ known x :=
  ⟨hc.placed, fun _ hx => hx.elim (fun he => he ▸ h) (hc.resolves _)⟩

/-- Type parameters are no names of values. -/
theorem Ready.generics (hc : c.Ready known) (names : List String) :
    Ready { c with generics := names } known := ⟨hc.placed, hc.resolves⟩

theorem resolves_declareLocal (s : Symbol) (hc : c.scope < c.program.scopes.size) :
    (c.declareLocal s).Resolves s.name := by
  refine resolves_iff.mpr (Or.inl (ScopeTree.lookup_isSome_iff.mpr ⟨c.scope, ?_, ?_⟩))
  · refine ScopeTree.mem_ancestors_self ?_
    simpa [declareLocal, ScopeTree.addSymbol] using hc
  · exact ScopeTree.declares_addSymbol hc

section Inside

variable {t : ScopeTree} {s : Scope} (hc : c.scope < c.program.scopes.size)
  (ht : c.program.scopes.Extends t) (hs : t.scope? c.program.scopes.size = some s)
  (hp : s.parent = some c.scope)
include hc ht hs hp

/-- What a scope has is also found from a new scope inside. -/
theorem lookup_inside (h : (c.program.scopes.lookup c.scope name).isSome) :
    (t.lookup c.program.scopes.size name).isSome := by
  obtain ⟨a, ha, hd⟩ := ScopeTree.lookup_isSome_iff.mp h
  refine ScopeTree.lookup_isSome_iff.mpr ⟨a, ?_, ht.refines.declares hd⟩
  rw [ht.ancestors_new hs hp hc]
  exact List.mem_cons_of_mem _ ha

/-- A name that resolves also does so in a new scope inside. -/
theorem Resolves.inside (h : c.Resolves name) (returnTypes : List Ty) :
    (c.inside t returnTypes).Resolves name := by
  rw [resolves_iff] at h ⊢
  exact h.imp_left fun h => lookup_inside hc ht hs hp h

end Inside

theorem Ready.enter (hc : c.Ready known) (kind : ScopeKind) : (c.enter kind).Ready known where
  placed := Nat.lt_succ_self _
  resolves := fun x hx => (hc.resolves x hx).inside hc.placed (ScopeTree.extends_createChild _ _ _)
    (ScopeTree.scope?_createChild_self _ _ _) rfl c.returnTypes

/-- The scope of a function has its parameters. -/
theorem lookup_parameter (c : Context) {ps : List TypedParam} (ret : Ty)
    (h : name ∈ ps.map TypedParam.name) :
    ((c.enterFunction ps ret).program.scopes.lookup c.program.scopes.size name).isSome := by
  obtain ⟨s, hs, _, _, _, hd⟩ := ScopeTree.scope?_addParameters_self ps
    (c.program.scopes.scope?_createChild_self c.scope .function)
  refine ScopeTree.lookup_isSome_iff.mpr ⟨c.program.scopes.size, ?_, s, hs, (hd name).mpr (Or.inl h)⟩
  exact ScopeTree.mem_ancestors_self (ScopeTree.lt_size_of_scope? hs)

/-- In the scope of a function its parameters resolve too. -/
theorem Ready.enterFunction (hc : c.Ready known) (ps : List TypedParam) (ret : Ty) :
    (c.enterFunction ps ret).Ready fun x => x ∈ ps.map TypedParam.name ∨ known x := by
  obtain ⟨s, hs, hp, _, _, _⟩ := ScopeTree.scope?_addParameters_self ps
    (c.program.scopes.scope?_createChild_self c.scope .function)
  have hext := c.program.scopes.extends_addParameters c.scope .function ps
  refine ⟨ScopeTree.lt_size_of_scope? hs, ?_⟩
  rintro x (hx | hx)
  · exact resolves_iff.mpr (Or.inl (c.lookup_parameter ret hx))
  · exact (hc.resolves x hx).inside hc.placed hext hs hp (ret :: c.returnTypes)

theorem resolves_of_symbol? (h : (c.ns.symbol? c.path name).isSome) : c.Resolves name :=
  resolves_iff.mpr (Or.inr (Or.inr (Or.inl h)))

theorem Grows.reaches {target : Target} (h : c.Grows c') (hr : c.Reaches target) :
    c'.Reaches target := by
  cases target with
  | package path name =>
    obtain ⟨s, hs, hshows⟩ := hr
    by_cases hp : path = c.path
    · obtain ⟨s', hs'⟩ := Option.isSome_iff_exists.mp (h.ns.symbol path name (by simp [hs]))
      exact ⟨s', hs', Or.inl (by rw [hp, h.path])⟩
    · refine ⟨s, by rw [h.ns.symbol?_eq hp, hs], ?_⟩
      simpa only [Shows, h.path, h.imports] using hshows
  | nested declaring name =>
    simp only [Reaches] at hr ⊢
    rw [h.scope]
    exact h.scopes.sees hr

theorem eq_of_packageSymbol? {path : PackagePath} {r : Resolved}
    (h : c.packageSymbol? path name = some r) :
    c.ns.symbol? path name = some r.symbol ∧ r.target = .package path name := by
  obtain ⟨s, hs, rfl⟩ := Option.map_eq_some_iff.mp h
  obtain ⟨p, _, hf⟩ := Option.bind_eq_some_iff.mp hs
  exact ⟨hs, by rw [Symbol.name_eq_of_find? hf]⟩

theorem reaches_of_packageSymbol? {path : PackagePath} {r : Resolved}
    (h : c.packageSymbol? path name = some r) (hshows : c.Shows path name r.symbol) :
    c.Reaches r.target := by
  obtain ⟨hs, ht⟩ := eq_of_packageSymbol? h
  rw [ht]
  exact ⟨r.symbol, hs, hshows⟩

theorem reaches_of_resolveName {r : Resolved} (h : c.resolveName name = some r) :
    c.Reaches r.target := by
  unfold resolveName at h
  split at h
  · rename_i d s hs
    cases h
    exact ScopeTree.sees_of_lookup hs
  · unfold resolveOutside at h
    split at h
    · rename_i r' hr
      cases h
      obtain ⟨i, hi, hr⟩ := Option.bind_eq_some_iff.mp hr
      exact reaches_of_packageSymbol? hr (Or.inr (Or.inr (Or.inr ⟨name, hi⟩)))
    · split at h
      · rename_i r' hr
        cases h
        exact reaches_of_packageSymbol? hr (Or.inl rfl)
      · exact reaches_of_packageSymbol? h (Or.inr (Or.inl rfl))

theorem reaches_of_resolveIn {path : PackagePath} {r : Resolved}
    (h : c.resolveIn path name = some r) : c.Reaches r.target := by
  obtain ⟨r', hr, hif⟩ := Option.bind_eq_some_iff.mp h
  split at hif
  · rename_i hvisible
    cases hif
    apply reaches_of_packageSymbol? hr
    simp only [Bool.or_eq_true, beq_iff_eq] at hvisible
    rcases hvisible with (rfl | hpublic) | hmodule
    · exact Or.inl rfl
    · exact Or.inr (Or.inr (Or.inl hpublic))
    · exact Or.inl hmodule
  · simp at hif

theorem reaches_of_resolveQualified {package : String} {r : Resolved}
    (h : c.resolveQualified package name = some r) : c.Reaches r.target := by
  obtain ⟨path, _, hp⟩ := Option.bind_eq_some_iff.mp h
  exact reaches_of_resolveIn hp

end Context

end Tern
