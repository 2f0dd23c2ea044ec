import Mathlib.Tactic.TFAE
import Tern.Proofs.Check.Balance
import Tern.Proofs.Check.Forward
import Tern.Proofs.Check.Visibility

/-!
The three ways to name a symbol of another package: under a name that is imported, under a name for
the package, and with the path of the package. The first is decided when the imports are made and the
others when the name is used, but at every point of checking a unit they agree.
-/

set_option autoImplicit false

namespace Tern

open Relation

namespace Imports

/-! What the imports bind -/

/-- All entries, each with the package from which it imports. -/
def entries (decls : List ImportDecl) : List (PackagePath × ImportEntry) :=
  decls.flatMap fun decl => decl.entries.map (Prod.mk decl.path)

/-- All names for packages. -/
def packageNames (decls : List ImportDecl) : List (String × PackagePath) :=
  decls.flatMap fun decl => ((packageName? decl).map fun name => (name, decl.path)).toList

/-- The package is there and lets the name be imported. -/
def accepts (ns : Namespace) (module : String) (p : PackagePath × ImportEntry) : Bool :=
  (ns.package? p.1).any fun package => isVisible package (p.1.module == module) p.2.name

/-- What an entry binds if it is accepted. -/
def binding (p : PackagePath × ImportEntry) : String × ImportedName :=
  (p.2.localName, ⟨p.1, p.2.name⟩)

/-- Of the entries that are accepted this one is the last that binds its name, if it is accepted. -/
def LastEntry (ns : Namespace) (module : String) (decls : List ImportDecl)
    (p : PackagePath × ImportEntry) : Prop :=
  ∃ before after, entries decls = before ++ p :: after ∧
    ∀ q ∈ after, q.2.localName = p.2.localName → accepts ns module q = false

/-- Of the packages that are there this one is the last that is bound to the name. -/
def LastPackage (ns : Namespace) (decls : List ImportDecl) (name : String) (path : PackagePath) :
    Prop :=
  (ns.package? path).isSome ∧ ∃ before after, packageNames decls = before ++ (name, path) :: after ∧
    ∀ q ∈ after, q.1 = name → ns.package? q.2 = none

section

variable {ns : Namespace} {module : String} {decls : List ImportDecl}

theorem names_foldl_addEntry {package : Package} {path : PackagePath}
    (hp : ns.package? path = some package) (es : List ImportEntry) (o : Outcome) :
    (es.foldl (addEntry package path (path.module == module)) o).1.names =
      (((es.map (Prod.mk path)).filter (accepts ns module)).map binding).reverse ++ o.1.names := by
  induction es generalizing o with
  | nil => rfl
  | cons e es ih =>
    have haccepts : accepts ns module (path, e) =
        isVisible package (path.module == module) e.name := by simp [accepts, hp]
    rw [List.foldl_cons, ih, addEntry, List.map_cons, List.filter_cons, haccepts]
    split
    · simp [binding]
    · rfl

/-- Reports are kept, and a name that cannot be seen is reported. -/
theorem reports_foldl_addEntry (package : Package) (path : PackagePath) (sameModule : Bool)
    (es : List ImportEntry) (o : Outcome) :
    o.2 ⊆ (es.foldl (addEntry package path sameModule) o).2 ∧
      ∀ e ∈ es, isVisible package sameModule e.name = false →
        ⟨.unrecognizedName e.name, e.span⟩ ∈ (es.foldl (addEntry package path sameModule) o).2 := by
  induction es generalizing o with
  | nil => exact ⟨fun _ h => h, by simp⟩
  | cons e es ih =>
    rw [List.foldl_cons]
    obtain ⟨hkept, hreported⟩ := ih (addEntry package path sameModule o e)
    have hstep : o.2 ⊆ (addEntry package path sameModule o e).2 := by
      rw [addEntry]
      split <;> simp
    refine ⟨fun _ h => hkept (hstep h), fun e' he' hv => ?_⟩
    rcases List.mem_cons.mp he' with rfl | he'
    · exact hkept (by simp [addEntry, hv])
    · exact hreported e' he' hv

theorem names_addDecl (o : Outcome) (decl : ImportDecl) :
    (addDecl ns module o decl).1.names =
      (((decl.entries.map (Prod.mk decl.path)).filter (accepts ns module)).map binding).reverse ++
        o.1.names := by
  unfold addDecl
  split
  · rename_i hnone
    have hrejected : (decl.entries.map (Prod.mk decl.path)).filter (accepts ns module) = [] := by
      simp [List.filter_eq_nil_iff, accepts, hnone]
    rw [hrejected]
    rfl
  · rename_i package hp
    exact names_foldl_addEntry hp decl.entries _

theorem packages_addDecl (o : Outcome) (decl : ImportDecl) :
    (addDecl ns module o decl).1.packages =
      (((packageName? decl).map fun name => (name, decl.path)).toList.filter
        fun q => (ns.package? q.2).isSome) ++ o.1.packages := by
  unfold addDecl
  split
  · rename_i hnone
    cases packageName? decl <;> simp [hnone]
  · rename_i package hp
    rw [packages_foldl_addEntry]
    cases packageName? decl <;> simp [hp]

theorem names_ofDecls (ns : Namespace) (module : String) (decls : List ImportDecl) :
    (ofDecls ns module decls).1.names =
      (((entries decls).filter (accepts ns module)).map binding).reverse := by
  have hfold (o : Outcome) : (decls.foldl (addDecl ns module) o).1.names =
      (((entries decls).filter (accepts ns module)).map binding).reverse ++ o.1.names := by
    induction decls generalizing o with
    | nil => rfl
    | cons decl decls ih =>
      rw [List.foldl_cons, ih, names_addDecl]
      simp [entries]
  rw [ofDecls, hfold]
  exact List.append_nil _

theorem packages_ofDecls (ns : Namespace) (module : String) (decls : List ImportDecl) :
    (ofDecls ns module decls).1.packages =
      ((packageNames decls).filter fun q => (ns.package? q.2).isSome).reverse := by
  have hfold (o : Outcome) : (decls.foldl (addDecl ns module) o).1.packages =
      ((packageNames decls).filter fun q => (ns.package? q.2).isSome).reverse ++ o.1.packages := by
    induction decls generalizing o with
    | nil => rfl
    | cons decl decls ih =>
      rw [List.foldl_cons, ih, packages_addDecl]
      -- an import binds at most one name for its package
      cases h : packageName? decl <;> simp [packageNames, h, List.filter_cons]
      split <;> simp
  rw [ofDecls, hfold]
  exact List.append_nil _

theorem reports_addDecl (ns : Namespace) (module : String) (o : Outcome) (decl : ImportDecl) :
    o.2 ⊆ (addDecl ns module o decl).2 ∧
      ∀ e ∈ decl.entries, (ns.package? decl.path).isSome →
        accepts ns module (decl.path, e) = false →
          ⟨.unrecognizedName e.name, e.span⟩ ∈ (addDecl ns module o decl).2 := by
  unfold addDecl
  split
  · rename_i hnone
    simp [hnone]
  · rename_i package hp
    obtain ⟨hkept, hreported⟩ := reports_foldl_addEntry package decl.path
      (decl.path.module == module) decl.entries
      ({ o.1 with packages := ((packageName? decl).map fun name => (name, decl.path)).toList ++
          o.1.packages }, o.2)
    refine ⟨hkept, fun e he _ hrejected => hreported e he ?_⟩
    simpa [accepts, hp] using hrejected

/-- A rejected entry of a package that is there is reported. -/
theorem reported_of_rejected {p : PackagePath × ImportEntry} (hpackage : (ns.package? p.1).isSome)
    (h : accepts ns module p = false) (hp : p ∈ entries decls) :
    ⟨.unrecognizedName p.2.name, p.2.span⟩ ∈ (ofDecls ns module decls).2 := by
  suffices hfold : ∀ o : Outcome, o.2 ⊆ (decls.foldl (addDecl ns module) o).2 ∧
      (p ∈ entries decls → ⟨.unrecognizedName p.2.name, p.2.span⟩ ∈
        (decls.foldl (addDecl ns module) o).2) from (hfold _).2 hp
  clear hp
  intro o
  induction decls generalizing o with
  | nil => exact ⟨fun _ h => h, fun hp => by simp [entries] at hp⟩
  | cons decl decls ih =>
    obtain ⟨hkept, hreported⟩ := reports_addDecl ns module o decl
    obtain ⟨hkept', hreported'⟩ := ih (addDecl ns module o decl)
    refine ⟨fun _ h => hkept' (hkept h), fun hmem => ?_⟩
    rcases List.mem_append.mp hmem with hmem | hmem
    · obtain ⟨e, he, rfl⟩ := List.mem_map.mp hmem
      exact hkept' (hreported e he hpackage h)
    · exact hreported' hmem

/-- What comes first in the list of bindings was bound last. -/
theorem lookup_reverse {α β : Type} [BEq α] [LawfulBEq α] {before after : List (α × β)} {k : α}
    {v : β} (h : ∀ q ∈ after, q.1 ≠ k) : (before ++ (k, v) :: after).reverse.lookup k = some v :=
  List.lookup_eq_some_iff.mpr ⟨after.reverse, before.reverse, by simp, fun q hq => by
    rw [bne_iff_ne]
    exact (h q (List.mem_reverse.mp hq)).symm⟩

/-- The name of the last entry is bound to what the entry imports, exactly if it is accepted. -/
theorem LastEntry.name?_iff {p : PackagePath × ImportEntry} (h : LastEntry ns module decls p) :
    (ofDecls ns module decls).1.name? p.2.localName = some ⟨p.1, p.2.name⟩ ↔
      accepts ns module p = true := by
  rw [name?, names_ofDecls]
  constructor
  · intro hlookup
    obtain ⟨_, _, heq, _⟩ := List.lookup_eq_some_iff.mp hlookup
    have hmem : (p.2.localName, ⟨p.1, p.2.name⟩) ∈
        ((entries decls).filter (accepts ns module)).map binding :=
      List.mem_reverse.mp (heq ▸ by simp)
    obtain ⟨q, hq, hbinding⟩ := List.mem_map.mp hmem
    -- what is accepted depends on the package and the name in it
    have hsame : accepts ns module q = accepts ns module p := by
      simp only [binding, Prod.mk.injEq, ImportedName.mk.injEq] at hbinding
      rw [accepts, accepts, hbinding.2.1, hbinding.2.2]
    rw [← hsame]
    exact (List.mem_filter.mp hq).2
  · intro haccepts
    obtain ⟨before, after, heq, hlast⟩ := h
    rw [heq, List.filter_append, List.filter_cons_of_pos haccepts, List.map_append, List.map_cons]
    refine lookup_reverse fun b hb => ?_
    obtain ⟨q, hq, rfl⟩ := List.mem_map.mp hb
    obtain ⟨hmem, hq⟩ := List.mem_filter.mp hq
    exact fun hname => absurd (hlast q hmem hname) (by simp [hq])

theorem LastPackage.package?_eq {name : String} {path : PackagePath}
    (h : LastPackage ns decls name path) (module : String) :
    (ofDecls ns module decls).1.package? name = some path := by
  obtain ⟨hpath, before, after, heq, hlast⟩ := h
  rw [package?, packages_ofDecls, heq, List.filter_append, List.filter_cons_of_pos (by exact hpath)]
  refine lookup_reverse fun q hq hname => ?_
  obtain ⟨hmem, hq⟩ := List.mem_filter.mp hq
  simp [hlast q hmem hname] at hq

end

end Imports

/-! The points of checking -/

theorem Namespace.Step.grows {path : PackagePath} {ns ns' : Namespace} (h : Step path ns ns') :
    ns.Grows path ns' := by
  cases h with
  | ensurePackage => exact grows_ensurePackage ns path
  | addSymbol s => exact grows_addSymbol ns path s
  | define d => exact grows_define ns path d

namespace Context

/-- One change while a unit is checked: one more report, something in the program, other
surroundings, or a declaration in the package of the unit. -/
inductive Moves : Context → Context → Prop
  | report (c : Context) (d : Diagnostic) :
      Moves c { c with diagnostics := c.diagnostics ++ [d] }
  | make {c : Context} {p : Program} (h : c.program.scopes.size ≤ p.scopes.size) :
      Moves c { c with program := p }
  | surround {c : Context} {scope : Nat} (returnTypes : List Ty) (generics : List String)
      (h : scope < c.program.scopes.size) : Moves c { c with scope, returnTypes, generics }
  | publish {c : Context} {ns : Namespace} (h : c.ns.Step c.path ns) : Moves c { c with ns }

/-- What no change takes away. -/
structure Retains (c c' : Context) : Prop where
  path : c'.path = c.path
  imports : c'.imports = c.imports
  ns : c.ns.Grows c.path c'.ns
  diagnostics : c.diagnostics <+: c'.diagnostics
  placed : c.scope < c.program.scopes.size → c'.scope < c'.program.scopes.size

variable {c c' : Context}

theorem Moves.retains (h : c.Moves c') : c.Retains c' := by
  cases h with
  | report d => exact ⟨rfl, rfl, .refl _ _, List.prefix_append _ _, id⟩
  | make hsize => exact ⟨rfl, rfl, .refl _ _, List.prefix_rfl, fun h => Nat.lt_of_lt_of_le h hsize⟩
  | surround _ _ hscope => exact ⟨rfl, rfl, .refl _ _, List.prefix_rfl, fun _ => hscope⟩
  | publish hns => exact ⟨rfl, rfl, hns.grows, List.prefix_rfl, id⟩

theorem retains_of_moves (h : ReflTransGen Moves c c') : c.Retains c' := by
  induction h with
  | refl => exact ⟨rfl, rfl, .refl _ _, List.prefix_rfl, id⟩
  | tail _ hstep ih =>
    have k := hstep.retains
    exact ⟨k.path.trans ih.path, k.imports.trans ih.imports, ih.ns.trans (ih.path ▸ k.ns),
      ih.diagnostics.trans k.diagnostics, fun hc => k.placed (ih.placed hc)⟩

theorem moves_reports (c : Context) (ds : List Diagnostic) :
    ReflTransGen Moves c { c with diagnostics := c.diagnostics ++ ds } := by
  induction ds generalizing c with
  | nil => rw [List.append_nil]
  | cons d ds ih =>
    have hrest := ih { c with diagnostics := c.diagnostics ++ [d] }
    rw [List.append_assoc] at hrest
    exact hrest.head (.report c d)

/-- Whatever is checked makes its changes one by one. -/
theorem Grows.moves (h : c.Grows c') : ReflTransGen Moves c c' := by
  obtain ⟨ds, hds⟩ := h.diagnostics
  have hprogram : c.Moves { c with program := c'.program } := .make h.scopes.refines.size_le
  have hns : ReflTransGen Moves { c with program := c'.program }
      { c with program := c'.program, ns := c'.ns } :=
    h.ns.steps.lift (fun ns => { c with program := c'.program, ns })
      fun _ _ hstep => .publish hstep
  have hreports := moves_reports { c with program := c'.program, ns := c'.ns } ds
  have hend : { c with program := c'.program, ns := c'.ns, diagnostics := c.diagnostics ++ ds } =
      c' := by
    rw [hds, ← h.path, ← h.imports, ← h.scope, ← h.returnTypes, ← h.generics]
  exact hend ▸ (hns.head hprogram).trans hreports

end Context

namespace SourceUnit

/-- A context on the way of checking the unit, from the moment when its imports are made. -/
def Point (u : SourceUnit) (ns : Namespace) (default : PackagePath) (c : Context) : Prop :=
  ReflTransGen Context.Moves (u.imported ns default) c

variable {u : SourceUnit} {ns : Namespace} {default : PackagePath} {c : Context}

theorem Point.placed (h : u.Point ns default c) : c.scope < c.program.scopes.size :=
  (Context.retains_of_moves h).placed Nat.zero_lt_one

theorem Point.grows {c' : Context} (h : u.Point ns default c) (hc : c.Grows c') :
    u.Point ns default c' := ReflTransGen.trans h hc.moves

theorem Point.expr (h : u.Point ns default c) (n : Node) :
    u.Point ns default ((Check.expr n).run c).2 :=
  h.grows (Check.makes_all n c ⟨h.placed, fun _ h => h.elim⟩ trivial).grows

theorem Point.item (h : u.Point ns default c) (n : Node) :
    u.Point ns default ((Check.item n).run c).2 :=
  h.grows (Check.grows_item n ⟨h.placed, fun _ h => h.elim⟩)

theorem Point.items (h : u.Point ns default c) (nodes : List Node) :
    u.Point ns default ((Check.items nodes).run c).2 := by
  induction nodes generalizing c with
  | nil => exact h
  | cons n nodes ih =>
    have hn := h.item n
    rw [Check.items, StateT.run_bind]
    rcases hrun : (Check.item n).run c with ⟨r, c'⟩
    rw [hrun] at hn
    cases r with
    | error fault => exact hn
    | ok id =>
      have hadd : c'.Moves (c'.addItem id) := .make (Nat.le_refl _)
      exact ih (ReflTransGen.tail hn hadd)

theorem point_prepared (u : SourceUnit) (ns : Namespace) (default : PackagePath) :
    u.Point ns default (u.prepared ns default) := by
  have hall : ∀ n ∈ u.items, Permit.all.Covers n ∧ ∀ x ∈ n.declaredNames, Permit.all.declares x :=
    fun n _ => ⟨Permit.covers_all n, fun _ _ => trivial⟩
  exact (Check.yields_prologue (c := .init ns (u.path default)) hall).1.grows.moves

theorem point_check (u : SourceUnit) (ns : Namespace) (default : PackagePath) :
    u.Point ns default (u.check ns default).2 := by
  have h := (u.point_prepared ns default).items (Check.ordered u)
  rwa [check, Check.unit_eq, StateT.run_bind]

/-- Symbols of other packages are at every point what they were before the unit. -/
theorem Point.symbol?_eq (h : u.Point ns default c) {path : PackagePath}
    (hne : path ≠ u.path default) (name : String) :
    c.ns.symbol? path name = ns.symbol? path name := by
  have hns : (ns.ensurePackage (u.path default)).Grows (u.path default) c.ns :=
    (Context.retains_of_moves h).ns
  rw [hns.symbol?_eq hne, Namespace.symbol?_ensurePackage]

end SourceUnit

theorem Imports.accepts_of_symbol? {ns : Namespace} {p : PackagePath × ImportEntry} {s : Symbol}
    (hs : ns.symbol? p.1 p.2.name = some s) (module : String) :
    accepts ns module p = (s.isPublic || p.1.module == module) := by
  obtain ⟨package, hp, hs⟩ := Option.bind_eq_some_iff.mp hs
  simp [accepts, hp, isVisible, hs]

namespace Context

variable {c : Context} {path : PackagePath} {name : String} {s : Symbol}

theorem packageSymbol?_eq (hs : c.ns.symbol? path name = some s) :
    c.packageSymbol? path name = some ⟨.package path name, s⟩ := by
  obtain ⟨package, _, hfound⟩ := Option.bind_eq_some_iff.mp hs
  rw [packageSymbol?, hs, Option.map_some, Symbol.name_eq_of_find? hfound]

theorem resolveIn_eq (hne : path ≠ c.path) (hs : c.ns.symbol? path name = some s) :
    c.resolveIn path name = if s.isPublic || path.module == c.path.module then
      some ⟨.package path name, s⟩ else none := by
  rw [resolveIn, packageSymbol?_eq hs, Option.bind_some, beq_false_of_ne hne, Bool.false_or]

theorem resolveName_of_imported {x : String} (hscope : c.program.scopes.lookup c.scope x = none)
    (hx : c.imports.name? x = some ⟨path, name⟩) (hs : c.ns.symbol? path name = some s) :
    c.resolveName x = some ⟨.package path name, s⟩ := by
  simp only [resolveName, hscope, resolveOutside, hx, Option.bind_some, packageSymbol?_eq hs]

end Context

namespace SourceUnit

variable {u : SourceUnit} {ns : Namespace} {default : PackagePath}

/-- Suppose that a unit imports a name of another package and binds the package itself to a name
too. At every point of checking the unit, the import was accepted exactly if the symbol is found with
the path of the package, and exactly if it is found with the name for the package; and what is found
is the symbol to which the imported name refers, unless a scope declares that name. -/
theorem foreign_names_agree {path : PackagePath} {e : ImportEntry} {a : String} {s : Symbol}
    (hother : path ≠ u.path default) (hs : ns.symbol? path e.name = some s)
    (hentry : Imports.LastEntry (ns.ensurePackage (u.path default)) (u.path default).module
      u.imports (path, e))
    (hpackage : Imports.LastPackage (ns.ensurePackage (u.path default)) u.imports a path) :
    (∀ c, u.Point ns default c →
      [Imports.accepts (ns.ensurePackage (u.path default)) (u.path default).module (path, e) = true,
        c.imports.name? e.localName = some ⟨path, e.name⟩,
        (c.resolveIn path e.name).isSome = true,
        (c.resolveQualified a e.name).isSome = true].TFAE ∧
      (c.resolveIn path e.name = none → ⟨.unrecognizedName e.name, e.span⟩ ∈ c.diagnostics) ∧
      ∀ r, c.resolveIn path e.name = some r → r = ⟨.package path e.name, s⟩ ∧
        c.resolveQualified a e.name = some r ∧
        (c.program.scopes.lookup c.scope e.localName = none → c.resolveName e.localName = some r)) ∧
    u.Point ns default (u.prepared ns default) ∧ u.Point ns default (u.check ns default).2 ∧
    ∀ c, u.Point ns default c → ∀ n, u.Point ns default ((Check.expr n).run c).2 ∧
      u.Point ns default ((Check.item n).run c).2 := by
  refine ⟨fun c hc => ?_, u.point_prepared ns default, u.point_check ns default,
    fun c hc n => ⟨hc.expr n, hc.item n⟩⟩
  obtain ⟨hpath, himports, _, hreports, _⟩ := Context.retains_of_moves hc
  change c.path = u.path default at hpath
  change c.imports = (Imports.ofDecls (ns.ensurePackage (u.path default)) (u.path default).module
    u.imports).1 at himports
  have hsymbol : c.ns.symbol? path e.name = some s := (hc.symbol?_eq hother _).trans hs
  have haccepts : Imports.accepts (ns.ensurePackage (u.path default)) (u.path default).module
      (path, e) = (s.isPublic || path.module == (u.path default).module) :=
    Imports.accepts_of_symbol? (by rw [Namespace.symbol?_ensurePackage, hs]) _
  have hin := Context.resolveIn_eq (by rwa [hpath]) hsymbol
  rw [hpath, ← haccepts] at hin
  have hqualified : c.resolveQualified a e.name = c.resolveIn path e.name := by
    rw [Context.resolveQualified, himports, hpackage.package?_eq, Option.bind_some]
  have hname : c.imports.name? e.localName = some ⟨path, e.name⟩ ↔ _ := himports ▸ hentry.name?_iff
  refine ⟨?_, fun hnone => ?_, fun r hr => ?_⟩
  · tfae_have 1 ↔ 2 := hname.symm
    tfae_have 1 ↔ 3 := by rw [hin, Option.isSome_ite]
    tfae_have 3 ↔ 4 := by rw [hqualified]
    tfae_finish
  · have hrejected : Imports.accepts (ns.ensurePackage (u.path default)) (u.path default).module
        (path, e) = false := by
      rw [hin] at hnone
      simpa using hnone
    have hmem : (path, e) ∈ Imports.entries u.imports := by
      obtain ⟨before, after, heq, _⟩ := hentry
      simp [heq]
    exact hreports.subset (Imports.reported_of_rejected hpackage.1 hrejected hmem)
  · rw [hqualified]
    rw [hin] at hr ⊢
    split at hr
    · rename_i hyes
      cases hr
      exact ⟨rfl, if_pos hyes,
        fun hscope => Context.resolveName_of_imported hscope (hname.mpr hyes) hsymbol⟩
    · cases hr

end SourceUnit

/-- The unit that imports `lib/math as m.{hidden, shown as s}` and has the item

    val x = s
-/
def aliasing : SourceUnit where
  package := none
  imports :=
    [⟨⟨"lib", "math"⟩, some "m", [⟨"hidden", none, ⟨22, 28⟩⟩, ⟨"shown", some "s", ⟨30, 40⟩⟩],
      ⟨0, 41⟩⟩]
  items := [.define ⟨"x", false, false, none⟩ (.name "s" ⟨50, 51⟩) ⟨42, 51⟩]

/-- At the end the public name is found under its new name, in the package and with the name for the
package. -/
theorem SourceUnit.foreign_names_agree_aliasing :
    library.symbol? ⟨"lib", "math"⟩ "shown" = some ⟨"shown", .int, true, false⟩ ∧
      (aliasing.check library ⟨"user", "default"⟩).2.resolveIn ⟨"lib", "math"⟩ "shown" =
        some ⟨.package ⟨"lib", "math"⟩ "shown", ⟨"shown", .int, true, false⟩⟩ ∧
      (aliasing.check library ⟨"user", "default"⟩).2.resolveQualified "m" "shown" =
        some ⟨.package ⟨"lib", "math"⟩ "shown", ⟨"shown", .int, true, false⟩⟩ ∧
      (aliasing.check library ⟨"user", "default"⟩).2.resolveName "s" =
        some ⟨.package ⟨"lib", "math"⟩ "shown", ⟨"shown", .int, true, false⟩⟩ := by
  have hs : library.symbol? ⟨"lib", "math"⟩ "shown" = some ⟨"shown", .int, true, false⟩ := by cbv
  have hentry : Imports.LastEntry (library.ensurePackage ⟨"user", "default"⟩) "user"
      aliasing.imports (⟨"lib", "math"⟩, ⟨"shown", some "s", ⟨30, 40⟩⟩) :=
    ⟨[(⟨"lib", "math"⟩, ⟨"hidden", none, ⟨22, 28⟩⟩)], [], rfl, by simp⟩
  have hpackage : Imports.LastPackage (library.ensurePackage ⟨"user", "default"⟩)
      aliasing.imports "m" ⟨"lib", "math"⟩ := ⟨by cbv, [], [], rfl, by simp⟩
  have hother : ⟨"lib", "math"⟩ ≠ aliasing.path ⟨"user", "default"⟩ := by decide
  obtain ⟨hagree, _, hend, _⟩ := SourceUnit.foreign_names_agree hother hs hentry hpackage
  obtain ⟨hways, _, hfound⟩ := hagree _ hend
  have haccepts : Imports.accepts (library.ensurePackage ⟨"user", "default"⟩) "user"
      (⟨"lib", "math"⟩, ⟨"shown", some "s", ⟨30, 40⟩⟩) = true := by cbv
  obtain ⟨r, hr⟩ := Option.isSome_iff_exists.mp ((hways.out 0 2).mp haccepts)
  obtain ⟨rfl, hqualified, hname⟩ := hfound r hr
  exact ⟨hs, hr, hqualified, hname (by cbv)⟩

end Tern
