import Tern.Proofs.Check.Arena
import Tern.Proofs.Imports

/-!
What a unit can use of other packages. Every use of a package's symbol was found in one of five
ways, and each of them asks whether the symbol may be seen: a name that is imported was asked for when
the imports were made, and the packages of other modules have not changed since.
-/

set_option autoImplicit false

namespace Tern

/-- The imported name is of the given module, or it is public if it is a symbol. -/
def Imports.Admitted (ns : Namespace) (module : String) (i : ImportedName) : Prop :=
  i.path.module = module ∨ ∀ s, ns.symbol? i.path i.name = some s → s.isPublic

/-- Whatever is imported is of the same module, or public. -/
theorem Imports.admitted_ofDecls {ns : Namespace} {module : String} {decls : List ImportDecl}
    {x : String} {i : ImportedName} (h : (ofDecls ns module decls).1.name? x = some i) :
    Admitted ns module i := by
  refine forall_name?_ofDecls (P := fun _ i => Admitted ns module i) ?_ h
  intro decl _ package hp entry _ hvisible
  by_cases hm : decl.path.module = module
  · exact Or.inl hm
  · refine Or.inr fun s hs => ?_
    have hfound : package.symbol? entry.name = some s := by simpa [Namespace.symbol?, hp] using hs
    simpa [isVisible, hfound, hm] using hvisible

/-! Uses -/

/-- Every symbol of a package that is used may be used. -/
def Context.Entitled (c : Context) : Prop :=
  ∀ a ∈ c.program.accesses, ∀ path name, a.target = .package path name →
    c.Reaches (.package path name)

theorem kept_entitled {permit : Permit} : Context.Kept permit Context.Entitled where
  later ds h hns := fun a ha path name ht =>
    (Context.grows_later hns ds).reaches (h a ha path name ht)
  alloc t h hadmits := by
    intro a ha path name ht
    rw [Context.accesses_alloc, List.mem_append, Option.mem_toList] at ha
    rcases ha with ha | ha
    · exact h a ha path name ht
    · have hr := (hadmits.access a ha).target
      rwa [ht] at hr
  declareLocal _ h _ := h
  inside _ h _ := h
  leave _ _ _ _ h := h
  generics _ h := h

theorem SourceUnit.entitled_check (u : SourceUnit) (ns : Namespace) (default : PackagePath) :
    (u.check ns default).2.Entitled ∧ (u.check ns default).2.Prepares u ns default := by
  refine ⟨(u.check_invariant (J := Context.Entitled) false (by simp) ?_ ?_).2,
    (u.prepares_check ns default).2⟩
  · intro c hc _
    simp [Context.Entitled, hc.program, Program.init, Program.accesses]
  · intro c id c' _ hin hc hb
    exact (hb.keeps kept_entitled hin hc : c'.Entitled)

/-- Where the built-in names are public, a unit uses no symbol of another module that is not, in
whatever way it names it. -/
theorem SourceUnit.foreign_access_public (u : SourceUnit) (ns : Namespace) (default : PackagePath)
    (hprelude : ∀ name s, ns.symbol? Namespace.preludePath name = some s → s.isPublic) :
    ∀ a ∈ (u.check ns default).2.program.accesses, ∀ path name, a.target = .package path name →
      path.module = (u.path default).module ∨
        ∃ s, (u.check ns default).2.ns.symbol? path name = some s ∧ s.isPublic := by
  intro a ha path name ht
  obtain ⟨hc, hp⟩ := u.entitled_check ns default
  obtain ⟨s, hs, hshows⟩ := hc a ha path name ht
  rw [Context.Shows, hp.path] at hshows
  by_cases hm : path.module = (u.path default).module
  · exact Or.inl hm
  · -- the package is as it was before the unit
    have hne : path ≠ u.path default := fun h => hm (by rw [h])
    have hbefore : (ns.ensurePackage (u.path default)).symbol? path name = some s := by
      rw [← hs, hp.ns.symbol?_eq hne]
    refine Or.inr ⟨s, hs, ?_⟩
    rcases hshows with h | rfl | h | ⟨x, hx⟩
    · exact absurd h hm
    · exact hprelude name s (by simpa using hbefore)
    · exact h
    · rw [hp.imports] at hx
      exact (Imports.admitted_ofDecls hx).resolve_left hm s hbefore

theorem Namespace.isPublic_withPrelude (name : String) (s : Symbol)
    (h : withPrelude.symbol? preludePath name = some s) : s.isPublic := by
  obtain ⟨p, hp, hs⟩ := Option.bind_eq_some_iff.mp h
  have hall : ∀ q, withPrelude.package? preludePath = some q → q.symbols.all Symbol.isPublic := by
    rintro _ ⟨⟩
    rfl
  exact List.all_eq_true.mp (hall p hp) s (List.mem_of_find?_eq_some hs)

/-- A package with a public symbol and another one. -/
def library : Namespace :=
  (Namespace.withPrelude.addSymbol ⟨"lib", "math"⟩ ⟨"shown", .int, true, false⟩).addSymbol
    ⟨"lib", "math"⟩ ⟨"hidden", .int, false, false⟩

/-- The unit that imports `lib/math.{shown as s, hidden}` and has the item

    val a = [s, hidden]
-/
def borrowing : SourceUnit where
  package := none
  imports :=
    [⟨⟨"lib", "math"⟩, none, [⟨"shown", some "s", ⟨17, 27⟩⟩, ⟨"hidden", none, ⟨29, 35⟩⟩], ⟨0, 36⟩⟩]
  items :=
    [.define ⟨"a", false, false, none⟩
      (.array [.name "s" ⟨46, 47⟩, .name "hidden" ⟨49, 55⟩] ⟨45, 56⟩) ⟨37, 56⟩]

theorem accesses_borrowing :
    (borrowing.check library ⟨"user", "default"⟩).2.program.accesses =
      [⟨.package ⟨"lib", "math"⟩ "shown", 0, ⟨46, 47⟩⟩] := by cbv

/-- Of the library only what is public is used, under its new name. -/
theorem borrowing_uses_public :
    (borrowing.check library ⟨"user", "default"⟩).2.program.accesses =
        [⟨.package ⟨"lib", "math"⟩ "shown", 0, ⟨46, 47⟩⟩] ∧
      ("lib" = "user" ∨
        ∃ s, (borrowing.check library ⟨"user", "default"⟩).2.ns.symbol? ⟨"lib", "math"⟩ "shown" =
          some s ∧ s.isPublic) := by
  refine ⟨accesses_borrowing, ?_⟩
  refine borrowing.foreign_access_public library ⟨"user", "default"⟩ ?_ _
    (by rw [accesses_borrowing]; exact List.mem_singleton.mpr rfl) _ _ rfl
  intro name s hs
  have hne : Namespace.preludePath ≠ ⟨"lib", "math"⟩ := by decide
  simp only [library, Namespace.symbol?_addSymbol, hne, false_and, if_false] at hs
  exact Namespace.isPublic_withPrelude name s hs

end Tern
