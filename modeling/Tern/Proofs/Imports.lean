import Tern.Imports
import Tern.Proofs.Blame

/-!
What the imports of a unit bind, name by name: whatever holds of the entries that can be seen holds of
the names that are bound.
-/

set_option autoImplicit false

namespace Tern.Imports

variable {ns : Namespace} {module : String} {P : String → ImportedName → Prop}

theorem forall_names_addDecl {o : Outcome} {decl : ImportDecl}
    (h : ∀ package, ns.package? decl.path = some package → ∀ e ∈ decl.entries,
      isVisible package (decl.path.module == module) e.name → P e.localName ⟨decl.path, e.name⟩)
    (ho : ∀ p ∈ o.1.names, P p.1 p.2) : ∀ p ∈ (addDecl ns module o decl).1.names, P p.1 p.2 := by
  unfold addDecl
  split
  · exact ho
  · rename_i package hp
    refine List.foldlRecOn decl.entries _
      (motive := fun o : Outcome => ∀ p ∈ o.1.names, P p.1 p.2) ho ?_
    intro o ho entry hentry
    unfold addEntry
    split
    · rename_i hvisible
      intro p hmem
      rcases List.mem_cons.mp hmem with rfl | hmem
      · exact h package hp entry hentry hvisible
      · exact ho p hmem
    · exact ho

theorem forall_name?_ofDecls {decls : List ImportDecl} {x : String} {i : ImportedName}
    (h : ∀ decl ∈ decls, ∀ package, ns.package? decl.path = some package → ∀ e ∈ decl.entries,
      isVisible package (decl.path.module == module) e.name → P e.localName ⟨decl.path, e.name⟩)
    (hx : (ofDecls ns module decls).1.name? x = some i) : P x i := by
  have hall : ∀ p ∈ (ofDecls ns module decls).1.names, P p.1 p.2 := by
    refine List.foldlRecOn decls _
      (motive := fun o : Outcome => ∀ p ∈ o.1.names, P p.1 p.2) (by simp) ?_
    exact fun o ho decl hdecl => forall_names_addDecl (h decl hdecl) ho
  obtain ⟨before, after, heq, _⟩ := List.lookup_eq_some_iff.mp hx
  exact hall (x, i) (by simp [heq])

/-- A name that is bound comes from an entry of an import. -/
theorem exists_of_name?_ofDecls {decls : List ImportDecl} {x : String} {i : ImportedName}
    (hx : (ofDecls ns module decls).1.name? x = some i) :
    ∃ decl ∈ decls, decl.path = i.path ∧ ∃ e ∈ decl.entries, e.localName = x ∧ e.name = i.name :=
  forall_name?_ofDecls (P := fun x i => ∃ decl ∈ decls, decl.path = i.path ∧
    ∃ e ∈ decl.entries, e.localName = x ∧ e.name = i.name)
    (fun decl hdecl _ _ e he _ => ⟨decl, hdecl, rfl, e, he, rfl, rfl⟩) hx

/-- Single names are added to the names only. -/
theorem packages_foldl_addEntry (package : Package) (path : PackagePath) (sameModule : Bool)
    (es : List ImportEntry) (o : Outcome) :
    (es.foldl (addEntry package path sameModule) o).1.packages = o.1.packages := by
  induction es generalizing o with
  | nil => rfl
  | cons e es ih =>
    rw [List.foldl_cons, ih, addEntry]
    split <;> rfl

theorem mem_packages_addDecl {o : Outcome} {decl : ImportDecl} {p : String × PackagePath}
    (hp : p ∈ (addDecl ns module o decl).1.packages) : p.2 = decl.path ∨ p ∈ o.1.packages := by
  unfold addDecl at hp
  split at hp
  · exact Or.inr hp
  · rename_i package _
    rw [packages_foldl_addEntry] at hp
    rcases List.mem_append.mp hp with hp | hp
    · obtain ⟨name, _, rfl⟩ := Option.map_eq_some_iff.mp (Option.mem_toList.mp hp)
      exact Or.inl rfl
    · exact Or.inr hp

/-- A name for a package comes from an import of the package. -/
theorem exists_of_package?_ofDecls {decls : List ImportDecl} {x : String} {path : PackagePath}
    (hx : (ofDecls ns module decls).1.package? x = some path) : ∃ decl ∈ decls, decl.path = path := by
  have hall : ∀ p ∈ (ofDecls ns module decls).1.packages, ∃ decl ∈ decls, decl.path = p.2 := by
    refine List.foldlRecOn decls _ (motive := fun o : Outcome =>
      ∀ p ∈ o.1.packages, ∃ decl ∈ decls, decl.path = p.2) (by simp) ?_
    intro o ho decl hdecl p hp
    rcases mem_packages_addDecl hp with hpath | hp
    · exact ⟨decl, hdecl, hpath.symm⟩
    · exact ho p hp
  obtain ⟨before, after, heq, _⟩ := List.lookup_eq_some_iff.mp hx
  exact hall (x, path) (by simp [heq])

/-- Imports are reported for their names only. -/
theorem sparesAny_ofDecls (decls : List ImportDecl) :
    ∀ d ∈ (ofDecls ns module decls).2, d.problem.SparesAny := by
  -- one more report, of a problem without types
  have hone {o : Outcome} {d : Diagnostic} (ho : ∀ d ∈ o.2, d.problem.SparesAny)
      (hd : d.problem.SparesAny) : ∀ d' ∈ o.2 ++ [d], d'.problem.SparesAny :=
    List.forall_mem_append.mpr ⟨ho, by simpa using hd⟩
  refine List.foldlRecOn decls _
    (motive := fun o : Outcome => ∀ d ∈ o.2, d.problem.SparesAny) (by simp) ?_
  intro o ho decl _
  unfold addDecl
  split
  · exact hone ho trivial
  · refine List.foldlRecOn decl.entries _
      (motive := fun o : Outcome => ∀ d ∈ o.2, d.problem.SparesAny) ho ?_
    intro o ho entry _
    unfold addEntry
    split
    · exact ho
    · exact hone ho trivial

end Tern.Imports
