import Tern.Proofs.Check.Registration
import Tern.Proofs.Order.Circle
import Tern.Proofs.Schedule

/-!
Items in another order. When all is registered, an item changes nothing but its variables, and two
items that do not use each other can be checked in either order. So all orders in which nothing is
checked before what it uses lead to the same.
-/

set_option autoImplicit false

namespace Tern

namespace Node

/-- The names of the variables that an item declares. Its other names are registered before. -/
def variableNames : Node → List String
  | define head _ _ => [head.name]
  | _ => []

/-- The node itself looks for the name in the package at `path`: by the path, or as a method. -/
def LooksFor (path : PackagePath) (x : String) : Node → Prop
  | qualified p y _ _ => p = path ∧ y = x
  | call (member _ y _ _) _ _ => y = x
  | _ => False

theorem mem_declaredNames_of_variable {n : Node} {x : String} (h : x ∈ n.variableNames) :
    x ∈ n.declaredNames := by
  cases n with
  | define head value span => exact h
  | _ => cases h

end Node

/-- Nothing of the package at `path` is imported. -/
structure Imports.Foreign (i : Imports) (path : PackagePath) : Prop where
  names : ∀ x entry, i.name? x = some entry → entry.path ≠ path
  packages : ∀ x, i.package? x ≠ some path

theorem Imports.foreign_ofDecls {ns : Namespace} {module : String} {decls : List ImportDecl}
    {path : PackagePath} (h : ∀ decl ∈ decls, decl.path ≠ path) :
    (ofDecls ns module decls).1.Foreign path where
  names := fun _ _ hx hpath => by
    obtain ⟨decl, hdecl, heq, _⟩ := exists_of_name?_ofDecls hx
    exact h decl hdecl (heq.trans hpath)
  packages := fun _ hx => by
    obtain ⟨decl, hdecl, hpath⟩ := exists_of_package?_ofDecls hx
    exact h decl hdecl hpath

/-- All symbols are alike but certain ones of the package at `path`. -/
def Outlook.without (path : PackagePath) (imports : Imports) (names : List String) : Outlook :=
  ⟨path, imports, fun p x => p = path → x ∉ names, False⟩

namespace Context

variable {path : PackagePath} {imports : Imports} {names names' : List String} {c c' : Context}

theorem twin_refl (hc : c.scope < c.program.scopes.size) (names : List String) :
    c.Twin (.without c.path c.imports names) c :=
  ⟨rfl, rfl, rfl, rfl, rfl, rfl, hc, hc, rfl, rfl, .refl _, False.elim⟩

theorem Twin.mono (h : c.Twin (.without path imports names) c') (hn : names ⊆ names') :
    c.Twin (.without path imports names') c' :=
  { h with ns := { h.ns with symbol := fun p x hr => h.ns.symbol p x fun hp hx => hr hp (hn hx) } }

/-- Names that are alike in one way or another. -/
theorem Twin.and (h : c.Twin (.without path imports names) c')
    (k : c.Twin (.without path imports names') c') (hd : names.Disjoint names') :
    c.Twin (.without path imports []) c' := by
  refine { h with ns := { h.ns with symbol := fun p x _ => ?_ } }
  by_cases hx : x ∈ names
  · exact k.ns.symbol p x fun _ hx' => hd hx hx'
  · exact h.ns.symbol p x fun _ => hx

end Context

/-- A package that has changed looks alike where what is read has not changed. -/
theorem Namespace.Alters.like {path : PackagePath} {declares defines : String → Prop}
    {reads : PackagePath → String → Prop} {ns ns' : Namespace}
    (h : ns.Alters path declares defines ns') (hpackage : (ns.package? path).isSome)
    (hs : ∀ x, reads path x → declares x → ns'.symbol? path x = ns.symbol? path x)
    (hd : ∀ x, ¬ defines x) : ns.Like path reads ns' where
  symbol := by
    intro p x hx
    by_cases hp : p = path
    · subst hp
      exact (h.symbol_eq x).elim (hs x hx) id
    · exact h.toGrows.symbol?_eq hp x
  shown := fun p x hp => by rw [shown?, h.toGrows.symbol?_eq hp, shown?]
  definition := by
    intro p x
    by_cases hp : p = path
    · subst hp
      exact (h.definition_eq x).resolve_left (hd x)
    · exact h.toGrows.definition?_eq hp x
  package := by
    intro p
    by_cases hp : p = path
    · subst hp
      rw [hpackage, h.package p hpackage]
    · rw [h.others p hp]

/-- What is built outside of all statements changes only what is permitted. -/
theorem Built.twin {permit : Permit} {c c' : Context} {ids : List Nat} {names : List String}
    (h : Built permit true .part c ids c') (hplaced : c.scope < c.program.scopes.size)
    (hpackage : (c.ns.package? c.path).isSome) (hdeclares : ∀ x, permit.declares x → x ∈ names)
    (hdefines : ∀ x, ¬ permit.defines x) : c.Twin (.without c.path c.imports names) c' where
  path := rfl
  path' := h.grows.path
  imports := rfl
  imports' := h.grows.imports
  returnTypes := h.grows.returnTypes
  generics := h.grows.generics
  placed := hplaced
  placed' := h.grows.placed hplaced
  level := by rw [Context.isAtPackageLevel, h.grows.scope, Context.isAtPackageLevel]
  tables := by rw [h.grows.scope, (h.extends_of_strict rfl rfl).tables_eq hplaced]
  ns := h.alters.like hpackage (fun x hx hd => absurd (hdeclares x hd) (hx rfl)) hdefines
  program := False.elim

namespace SourceUnit

/-- The written type may be one of this name: the name is in it, or is imported under one that is. -/
def Means (u : SourceUnit) (r : TypeRef) (x : String) : Prop :=
  x ∈ r.names ∨ ∃ decl ∈ u.imports, ∃ e ∈ decl.entries, e.localName ∈ r.names ∧ e.name = x

/-- Nothing in a unit of the package at `path` depends on the order of the items, as long as they are
checked after what they use. -/
structure Regular (u : SourceUnit) (path : PackagePath) : Prop where
  names : (u.items.flatMap Node.declaredNames).Nodup
  types : (u.items.flatMap Node.definedNames).Nodup
  acyclic : Order.Acyclic u.items
  fits : ∀ n ∈ u.items, n.FitsIn .statement
  /-- Where a field selects a case, it is of a type that no item defines. -/
  fields : ∀ decl span, .data decl span ∈ u.items → ∀ r ∈ decl.typeRefs, r.selects = true →
    ∀ x, u.Means r x → ¬ Defines u.items x
  nests : ∀ decl, ¬ u.Nests decl
  imports : ∀ decl ∈ u.imports, decl.path ≠ path
  /-- Where an item looks into the package for a variable, it also uses its name. -/
  asks : ∀ a ∈ u.items, ∀ b ∈ u.items, ∀ m ∈ a.nodes, ∀ x ∈ b.variableNames, m.LooksFor path x →
    a = b ∨ Order.Uses a b

end SourceUnit

/-- No item is being checked, and all are registered. -/
structure Context.Idle (items : List Node) (path : PackagePath) (imports : Imports) (c : Context) :
    Prop where
  path : c.path = path
  imports : c.imports = imports
  root : c.scope = ScopeTree.root
  inBlock : c.InBlock
  package : (c.ns.package? c.path).isSome
  registered : ∀ n ∈ items, c.Registered n
  /-- One more declaration of a function changes nothing. -/
  settled : ∀ head body span, .function head body span ∈ items → c.ns.symbol? c.path head.name =
    some (Symbol.over (c.symbolOf head) (c.ns.symbol? c.path head.name))

namespace SourceUnit.Regular

variable {u : SourceUnit} {path : PackagePath} {imports : Imports} {a b n : Node} {c c' : Context}

theorem disjoint (h : u.Regular path) (ha : a ∈ u.items) (hb : b ∈ u.items) (hne : a ≠ b) :
    a.declaredNames.Disjoint b.declaredNames := by
  intro x hxa hxb
  obtain ⟨i, hi⟩ := List.getElem?_of_mem ha
  obtain ⟨j, hj⟩ := List.getElem?_of_mem hb
  have hij := (Order.producer?_eq_some h.names hi hxa).symm.trans
    (Order.producer?_eq_some h.names hj hxb)
  obtain rfl := Option.some.inj hij
  exact hne (Option.some.inj (hi.symm.trans hj))

theorem not_redefines (h : u.Regular path) (x : String) : ¬ u.Redefines x := by
  rintro ⟨decl, hdecl, _⟩
  exact h.nests decl hdecl

end SourceUnit.Regular

section

variable {u : SourceUnit} {path : PackagePath} {imports : Imports} {a b n : Node} {c c' : Context}

theorem Context.Idle.twin_declaring (hc : c.Idle u.items path imports) {head : FunctionHead}
    {body : List Node} {span : Span} (hn : .function head body span ∈ u.items) :
    c.Twin (.without path imports []) (c.declaring (c.symbolOf head)) where
  path := hc.path
  path' := hc.path
  imports := hc.imports
  imports' := hc.imports
  returnTypes := rfl
  generics := rfl
  placed := hc.inBlock.placed
  placed' := hc.inBlock.placed
  level := rfl
  tables := rfl
  ns := by
    have halters : c.ns.Alters path (· = head.name) (fun _ => False)
        (c.declaring (c.symbolOf head)).ns := hc.path ▸ Namespace.alters_addSymbol _ _ rfl
    refine halters.like (hc.path ▸ hc.package) ?_ fun _ h => h
    rintro _ _ rfl
    rw [← hc.path]
    exact (c.symbol?_declaring _).trans (hc.settled head body span hn).symm
  program := False.elim

/-- An item changes its variables and nothing else. -/
theorem Context.Idle.twin_item (hc : c.Idle u.items path imports) (hu : u.Regular path)
    (hn : n ∈ u.items) : Check.Yields (Check.item n) c fun r c' =>
      ∃ id, r = .ok id ∧ c.Grows c' ∧ c.Twin (.without path imports n.variableNames) c' := by
  let permit : Permit :=
    { Permit.all with declares := (· ∈ n.variableNames), defines := u.Redefines }
  have hpaths : Check.MayReportPaths permit := fun _ _ => trivial
  have hdecl : true = false → ∀ x, permit.declares x := by simp
  have hready : c.Ready fun _ => False := ⟨hc.inBlock.placed, fun _ h => h.elim⟩
  have hfits := hu.fits n hn
  have hcases (decl : DataDecl) (hdecl : u.Nests decl) :
      ∀ x ∈ decl.cases.map CaseDecl.name, x ∈ n.variableNames := absurd hdecl (hu.nests decl)
  have hother (hcovers : permit.CoversItem n) : Check.Yields (Check.item n) c fun r c' =>
      ∃ id, r = .ok id ∧ c.Grows c' ∧ c.Twin (.without path imports n.variableNames) c' := by
    refine (Check.yields_item hpaths hdecl (hc.registered n hn) hc.root (fun _ => hfits) hcovers
      (fun _ _ => Or.inr trivial) hready).mono ?_
    rintro r c' ⟨id, hid, hb, _⟩
    have htwin := hb.twin hc.inBlock.placed hc.package (fun _ h => h) hu.not_redefines
    rw [hc.path, hc.imports] at htwin
    exact ⟨id, hid, hb.grows, htwin⟩
  cases n with
  | function head body span =>
    simp only [Node.FitsIn] at hfits
    refine (Check.yields_packageFunction hpaths hdecl (hc.registered _ hn) (fun _ => hfits.2)
      (fun m hm => SourceUnit.covers_inner hn (by simpa [Node.nodes] using hm) hcases)
      (fun _ _ => Or.inr trivial) hready).mono ?_
    rintro r c' ⟨id, hid, hb⟩
    have hdeclared := hc.twin_declaring hn
    have hnone : ∀ x, permit.declares x → x ∈ [] := fun _ h => h
    have hbody := hb.twin hc.inBlock.placed ((hdeclared.ns.package _).trans hc.package) hnone
      hu.not_redefines
    rw [hdeclared.path', hdeclared.imports'] at hbody
    exact ⟨id, hid, (c.grows_declaring _).trans hb.grows, hdeclared.trans hbody⟩
  | data decl span => exact hother trivial
  | _ => exact hother (SourceUnit.coversItem_inner hn (fun _ hx => hx) hcases)

/-- The context after one more item. -/
def Check.step (c : Context) (n : Node) : Context := ((Check.items [n]).run c).2

theorem Check.run_items_singleton {r : Except CheckFault Nat} (h : (Check.item n).run c = (r, c'))
    {id : Nat} (hid : r = .ok id) : (Check.items [n]).run c = (.ok (), c'.addItem id) := by
  subst hid
  exact Check.run_items_cons h

namespace Context.Idle

/-- A variable is no function. -/
theorem addItem (hc : c.Idle u.items path imports) (hu : u.Regular path) (hn : n ∈ u.items)
    (hg : c.Grows c') (ht : c.Twin (.without path imports n.variableNames) c') (id : Nat) :
    (c'.addItem id).Idle u.items path imports where
  path := ht.path'
  imports := ht.imports'
  root := hg.scope.trans hc.root
  inBlock := ⟨(hg.inBlock hc.inBlock).placed, (hg.inBlock hc.inBlock).kind⟩
  package := by
    have hpackage := hg.ns.package _ hc.package
    rwa [← hg.path] at hpackage
  registered := fun m hm => hg.registered (hc.registered m hm)
  settled := by
    intro head body span hmem
    have hnew : head.name ∉ n.variableNames := by
      intro hx
      by_cases hne : Node.function head body span = n
      · subst hne
        cases hx
      · exact hu.disjoint hmem hn hne List.mem_cons_self (Node.mem_declaredNames_of_variable hx)
    have hsymbol : c'.ns.symbol? c'.path head.name = c.ns.symbol? c.path head.name := by
      rw [ht.path', ht.path]
      exact ht.ns.symbol path head.name fun _ => hnew
    change c'.ns.symbol? c'.path head.name =
      some (Symbol.over (c'.symbolOf head) (c'.ns.symbol? c'.path head.name))
    rw [hsymbol, ht.symbolOf_eq]
    exact hc.settled head body span hmem

theorem step (hc : c.Idle u.items path imports) (hu : u.Regular path) (hn : n ∈ u.items) :
    ((Check.items [n]).run c).1 = .ok () ∧ (Check.step c n).Idle u.items path imports ∧
      c.Twin (.without path imports n.variableNames) (Check.step c n) := by
  have h := hc.twin_item hu hn
  rcases hrun : (Check.item n).run c with ⟨r, c'⟩
  simp only [Check.Yields, hrun] at h
  obtain ⟨id, hid, hg, ht⟩ := h
  rw [Check.step, Check.run_items_singleton hrun hid]
  exact ⟨rfl, hc.addItem hu hn hg ht id, { ht with program := False.elim }⟩

/-- Items one after the other. -/
theorem run_items (hc : c.Idle u.items path imports) (hu : u.Regular path) {nodes : List Node}
    (hnodes : ∀ n ∈ nodes, n ∈ u.items) :
    (Check.items nodes).run c = (.ok (), nodes.foldl Check.step c) := by
  induction nodes generalizing c with
  | nil => rfl
  | cons n nodes ih =>
    rw [List.forall_mem_cons] at hnodes
    obtain ⟨hok, hstep, _⟩ := hc.step hu hnodes.1
    have happend : (Check.items ([n] ++ nodes)).run c = (Check.items nodes).run (Check.step c n) :=
      Check.run_items_append hok
    exact happend.trans (ih hstep hnodes.2)

end Context.Idle

/-- The item asks for none of the names. -/
structure Node.Avoids (path : PackagePath) (names : List String) (n : Node) : Prop where
  references : ∀ r ∈ Reference.ofItem n, r.name ∉ names
  nodes : ∀ m ∈ n.nodes, ∀ x ∈ names, ¬ m.LooksFor path x

theorem Node.avoids_nil (path : PackagePath) (n : Node) : n.Avoids path [] := ⟨by simp, by simp⟩

theorem SourceUnit.Regular.avoids (hu : u.Regular path) (ha : a ∈ u.items) (hb : b ∈ u.items)
    (hne : a ≠ b) (huses : ¬ Order.Uses a b) : a.Avoids path b.variableNames where
  references := fun r hr hx => huses ⟨r, hr, Node.mem_declaredNames_of_variable hx⟩
  nodes := fun m hm x hx hlooks => (hu.asks a ha b hb m hm x hx hlooks).elim hne huses

variable {names : List String}

theorem Node.Avoids.allRead (h : n.Avoids path names) (hi : imports.Foreign path) :
    Check.AllRead (.without path imports names) (Reference.ofItem n) := by
  intro r hr
  exact ⟨fun _ => h.references r hr, fun _ => h.references r hr,
    fun i hx hp => absurd hp (hi.names _ i hx)⟩

theorem Node.Avoids.admitsItem (h : n.Avoids path names) (hi : imports.Foreign path)
    (hu : u.Regular path) (hn : n ∈ u.items) : (Outlook.without path imports names).AdmitsItem n := by
  have hnodes (hdata : ∀ decl span, n ≠ .data decl span) :
      ∀ m ∈ n.nodes, (Outlook.without path imports names).Admits m := by
    intro m hm
    unfold Outlook.Admits
    split
    · exact fun hp _ hx => h.nodes _ hm _ hx ⟨hp, rfl⟩
    · exact fun _ hx => h.nodes _ hm _ hx rfl
    · exact fun hp => absurd hp (hi.packages _)
    · rename_i decl span
      rw [Node.nodes_eq, List.mem_cons] at hm
      rcases hm with rfl | hm
      · exact absurd rfl (hdata decl span)
      · exact absurd ⟨n, hn, span, hm⟩ (hu.nests decl)
    · trivial
  cases n with
  | data decl span => trivial
  | _ => exact hnodes fun _ _ h => nomatch h

/-- An item that asks for none of the names by which contexts differ goes alike in them. -/
theorem Node.Avoids.step (h : n.Avoids path names) (hi : imports.Foreign path)
    (hu : u.Regular path) (hn : n ∈ u.items) (hc : c.Idle u.items path imports)
    (hc' : c'.Idle u.items path imports) (ht : c.Twin (.without path imports names) c') :
    (Check.step c n).Twin (.without path imports names) (Check.step c' n) ∧
      ∃ ds, (Check.step c n).diagnostics = c.diagnostics ++ ds ∧
        (Check.step c' n).diagnostics = c'.diagnostics ++ ds := by
  obtain ⟨hon, i, i', hr, hr', _⟩ := Check.pairs_item ht (hc.registered n hn) (hc'.registered n hn)
    (h.admitsItem hi hu hn) (h.allRead hi)
  rw [Check.step, Check.run_items_singleton rfl hr, Check.step, Check.run_items_singleton rfl hr']
  exact ⟨{ hon.twin with program := False.elim }, hon.reports⟩

/-- Items that do not use each other can be checked in either order. -/
theorem SourceUnit.Regular.commutes (hu : u.Regular path) (hi : imports.Foreign path) :
    Commutes (Context.Similar (.without path imports [])) (Context.Idle u.items path imports)
      (· ∈ u.items) Order.Uses Check.step where
  refl := by
    intro c hc
    have ht := Context.twin_refl hc.inBlock.placed []
    rw [hc.path, hc.imports] at ht
    exact ⟨ht, .refl _⟩
  trans := fun h k => ⟨h.twin.trans k.twin, h.reports.trans k.reports⟩
  valid := fun n c hn hc => (hc.step hu hn).2.1
  congr := by
    intro n c c' hn hc hc' h
    obtain ⟨ht, ds, hds, hds'⟩ := (n.avoids_nil path).step hi hu hn hc hc' h.twin
    refine ⟨ht, ?_⟩
    rw [hds, hds']
    exact h.reports.append_right ds
  swap := by
    intro a b c ha hb hne hab hba hc
    obtain ⟨_, hca, hta⟩ := hc.step hu ha
    obtain ⟨_, hcb, htb⟩ := hc.step hu hb
    -- each item goes before the other as after it
    obtain ⟨hta', da, hda, hda'⟩ := (hu.avoids ha hb hne hab).step hi hu ha hc hcb htb
    obtain ⟨htb', db, hdb, hdb'⟩ := (hu.avoids hb ha hne.symm hba).step hi hu hb hc hca hta
    have hback := (hca.step hu hb).2.2.symm.trans hta'
    have hforth := htb'.symm.trans (hcb.step hu ha).2.2
    have hdisjoint : b.variableNames.Disjoint a.variableNames := fun x hx hx' =>
      hu.disjoint hb ha hne.symm (Node.mem_declaredNames_of_variable hx)
        (Node.mem_declaredNames_of_variable hx')
    refine ⟨hback.and hforth hdisjoint, ?_⟩
    rw [hdb', hda', hda, hdb, List.append_assoc, List.append_assoc]
    exact List.perm_append_comm.append_left _

end

namespace SourceUnit

variable {u : SourceUnit} {ns : Namespace} {default path : PackagePath} {items : List Node}

theorem Regular.of_perm (hu : u.Regular path) (hp : items.Perm u.items) :
    { u with items }.Regular path where
  names := (hp.flatMap_right _).nodup_iff.mpr hu.names
  types := (hp.flatMap_right _).nodup_iff.mpr hu.types
  acyclic := hu.acyclic.of_perm hu.names hp
  fits := fun n hn => hu.fits n (hp.subset hn)
  fields := by
    rintro decl span hmem r hr hselects x hx ⟨n, hn, hdefined⟩
    exact hu.fields decl span (hp.subset hmem) r hr hselects x hx ⟨n, hp.subset hn, hdefined⟩
  nests := by
    rintro decl ⟨n, hn, span, hm⟩
    exact hu.nests decl ⟨n, hp.subset hn, span, hm⟩
  imports := hu.imports
  asks := fun a ha b hb => hu.asks a (hp.subset ha) b (hp.subset hb)

theorem package_imported : ((u.imported ns default).ns.package? (u.path default)).isSome := by
  change ((ns.ensurePackage (u.path default)).package? (u.path default)).isSome = true
  simp [Namespace.package?_isSome_ensurePackage]

theorem Regular.registrable (hu : u.Regular path) :
    Registrable u.items (u.imported ns default).imports where
  names := hu.names
  types := hu.types
  fields := by
    intro decl span hmem r hr hselects x hx
    refine ⟨hu.fields decl span hmem r hr hselects x (Or.inl hx), fun i hi => ?_⟩
    obtain ⟨imp, himp, _, e, he, rfl, hname⟩ := Imports.exists_of_name?_ofDecls hi
    exact hu.fields decl span hmem r hr hselects i.name (Or.inr ⟨imp, himp, e, he, hx, hname⟩)

theorem prepared_eq_register (h : Order.Acyclic u.items) :
    u.prepared ns default = ((Check.register u.items).run (u.imported ns default)).2 := by
  rw [prepared, Check.prologue, h.cycles_eq_nil]
  rfl

theorem Regular.idle_prepared (hu : u.Regular (u.path default)) :
    (u.prepared ns default).Idle u.items (u.path default) (u.imported ns default).imports := by
  have hc : (u.prepared ns default).Advanced u [] := advanced_prepared
  have hprepared : u.prepared ns default = _ := prepared_eq_register hu.acyclic
  obtain ⟨c₁, c₂, h₁, h₂, h₃⟩ := Check.records_register (c := u.imported ns default) hu.registrable
  rw [← hprepared] at h₃
  have hpath := h₃.path_eq.trans (h₂.path_eq.trans h₁.path_eq)
  refine ⟨hpath, ?_, hc.root, hc.inBlock, ?_, hc.registered, ?_⟩
  · exact h₃.imports_eq.trans (h₂.imports_eq.trans h₁.imports_eq)
  · rw [hpath]
    exact h₃.package (h₂.package (h₁.package package_imported))
  · intro head body span hn
    have h := Check.symbol?_register (c := u.imported ns default) hu.registrable hn
    rwa [Check.Yields, ← hprepared] at h

theorem Regular.check_eq (hu : u.Regular (u.path default)) :
    (u.check ns default).2 = (Check.ordered u).foldl Check.step (u.prepared ns default) := by
  rw [check, Check.unit_eq, StateT.run_bind]
  exact congrArg Prod.snd (hu.idle_prepared.run_items hu fun _ => Check.mem_of_mem_ordered)

/-- In whatever order the items are written, they are prepared alike. -/
theorem Regular.similar_prepared (hu : u.Regular (u.path default)) (hp : items.Perm u.items) :
    ({ u with items }.prepared ns default).Similar
      (.without (u.path default) (u.imported ns default).imports []) (u.prepared ns default) := by
  rw [prepared_eq_register hu.acyclic, prepared_eq_register (hu.of_perm hp).acyclic]
  have htwin : (u.imported ns default).Twin _ (u.imported ns default) :=
    Context.twin_refl Nat.zero_lt_one []
  exact Check.similar_register hu.registrable hp ⟨htwin, .refl _⟩ package_imported

/-- The items of a regular unit can be written in any order: the same is reported, and the same symbols
and types are there in the end. -/
theorem reordered_same (u : SourceUnit) (ns : Namespace) (default : PackagePath)
    (hu : u.Regular (u.path default)) {items : List Node} (hp : items.Perm u.items) :
    ({ u with items }.check ns default).2.diagnostics.Perm (u.check ns default).2.diagnostics ∧
      ∀ path x,
        ({ u with items }.check ns default).2.ns.symbol? path x =
            (u.check ns default).2.ns.symbol? path x ∧
          ({ u with items }.check ns default).2.ns.definition? path x =
            (u.check ns default).2.ns.definition? path x := by
  have hu' := hu.of_perm hp
  have hforeign : (u.imported ns default).imports.Foreign (u.path default) :=
    Imports.foreign_ofDecls hu.imports
  have hidle : ({ u with items }.prepared ns default).Idle _ _ _ := hu'.idle_prepared
  have hordered : (Check.ordered { u with items }).Perm (Check.ordered u) :=
    (Order.perm_ordered items).trans (hp.trans (Order.perm_ordered u.items).symm)
  have hsame := (hu.commutes hforeign).foldl_perm hordered
    (fun n hn => hp.subset (Check.mem_of_mem_ordered hn)) (hu'.acyclic.pairwise_ordered hu'.names)
    (hu.acyclic.pairwise_ordered hu.names)
    { hidle with
      registered := fun n hn => hidle.registered n (hp.mem_iff.mpr hn)
      settled := fun head body span hn => hidle.settled head body span (hp.mem_iff.mpr hn) }
    hu.idle_prepared (hu.similar_prepared hp)
  rw [← hu.check_eq, ← hu'.check_eq] at hsame
  refine ⟨hsame.reports, fun path x => ⟨?_, ?_⟩⟩
  · exact (hsame.twin.ns.symbol path x fun _ => List.not_mem_nil).symm
  · exact (hsame.twin.ns.definition path x).symm

end SourceUnit

/-- The unit

    val a = b.f()
    val f = fn(t: T): int { 1 }
    val b = C(c)
    data T = C(n: int)
-/
def scattered : SourceUnit where
  package := none
  imports := []
  items :=
    [.define ⟨"a", false, false, none⟩
      (.call (.member (.name "b" ⟨8, 9⟩) "f" ⟨10, 11⟩ ⟨8, 11⟩) [] ⟨8, 13⟩) ⟨0, 13⟩,
     .define ⟨"f", false, false, none⟩
      (.lambda [⟨"t", .named "T" ⟨28, 29⟩, ⟨25, 29⟩⟩] (some (.named "int" ⟨32, 35⟩))
        [.literal (.int 1) ⟨38, 39⟩] ⟨22, 41⟩) ⟨14, 41⟩,
     .define ⟨"b", false, false, none⟩
      (.call (.name "C" ⟨50, 51⟩) [.name "c" ⟨52, 53⟩] ⟨50, 54⟩) ⟨42, 54⟩,
     .data ⟨"T", false, [],
      [⟨"C", false, [⟨"n", false, .named "int" ⟨69, 72⟩, ⟨66, 72⟩⟩], ⟨64, 73⟩⟩]⟩ ⟨55, 73⟩]

theorem regular_scattered : scattered.Regular ⟨"user", "default"⟩ where
  names := by decide
  types := by decide
  acyclic := by
    refine Order.acyclic_of_lt fun i => ?_
    match i with
    | 0 => decide
    | 1 => decide
    | 2 => decide
    | 3 => decide
    | i + 4 => exact fun _ he => nomatch he
  fits := by simp [scattered, Node.FitsIn, Node.AllFit]
  fields := by simp [scattered, DataDecl.typeRefs, TypeRef.selects]
  nests := by
    rintro decl ⟨n, hn, span, hm⟩
    simp only [scattered, List.mem_cons, List.not_mem_nil, or_false] at hn
    rcases hn with rfl | rfl | rfl | rfl <;> simp [Node.nodes, Node.allNodes] at hm
  imports := by simp [scattered]
  asks := by
    intro a ha b hb m hm x hx hlooks
    simp only [scattered, List.mem_cons, List.not_mem_nil, or_false] at ha hb
    rcases ha with rfl | rfl | rfl | rfl <;> simp [Node.nodes, Node.allNodes] at hm
    · rcases hm with rfl | rfl | rfl | rfl <;> simp [Node.LooksFor] at hlooks
      subst hlooks
      rcases hb with rfl | rfl | rfl | rfl <;> simp [Node.variableNames] at hx
      exact Or.inr (by decide)
    · rcases hm with rfl | rfl | rfl <;> simp [Node.LooksFor] at hlooks
    · rcases hm with rfl | rfl | rfl | rfl <;> simp [Node.LooksFor] at hlooks
    · subst hm
      simp [Node.LooksFor] at hlooks

/-- With the items in reverse, `f` and `b` are found all the same, and only `c` is reported. -/
theorem scattered_reversed :
    ({ scattered with items := scattered.items.reverse }.check .withPrelude
        ⟨"user", "default"⟩).2.diagnostics.Perm [⟨.unrecognizedName "c", ⟨52, 53⟩⟩] ∧
      ({ scattered with items := scattered.items.reverse }.check .withPrelude
        ⟨"user", "default"⟩).2.ns.symbol? ⟨"user", "default"⟩ "a" = some ⟨"a", .int, false, false⟩ := by
  obtain ⟨hreports, hsame⟩ := scattered.reordered_same .withPrelude ⟨"user", "default"⟩
    regular_scattered scattered.items.reverse_perm
  have hwritten : (scattered.check .withPrelude ⟨"user", "default"⟩).2.diagnostics =
      [⟨.unrecognizedName "c", ⟨52, 53⟩⟩] := by cbv
  exact ⟨hwritten ▸ hreports, (hsame _ "a").1.trans (by cbv)⟩

/-- A function, a variable or a type. -/
def Node.isDeclaration : Node → Bool
  | function _ _ _ | define _ _ _ | data _ _ => true
  | _ => false

/-- The unit

    data A = X(b: B.Y)
    data B = Y(z: int)
-/
def selecting : SourceUnit where
  package := none
  imports := []
  items :=
    [.data ⟨"A", false, [], [⟨"X", false,
      [⟨"b", false, .selected (.named "B" ⟨14, 15⟩) "Y" ⟨14, 17⟩, ⟨11, 17⟩⟩], ⟨9, 18⟩⟩]⟩ ⟨0, 18⟩,
     .data ⟨"B", false, [], [⟨"Y", false,
      [⟨"z", false, .named "int" ⟨33, 36⟩, ⟨30, 36⟩⟩], ⟨28, 37⟩⟩]⟩ ⟨19, 37⟩]

theorem acyclic_selecting : Order.Acyclic selecting.items := by
  refine Order.acyclic_of_lt fun i => ?_
  match i with
  | 0 => decide
  | 1 => decide
  | i + 2 => exact fun _ he => nomatch he

/-- A field that selects a case of `B` is an error, unless `B` is written first. -/
theorem selected_case_needs_order :
    ¬ ∀ (u : SourceUnit) (ns : Namespace) (default : PackagePath) (items : List Node),
      (∀ n ∈ u.items, n.isDeclaration) →
      (u.items.flatMap fun n => n.definedNames ++ n.declaredNames).Nodup →
      Order.Acyclic u.items → items.Perm u.items →
        ({ u with items }.check ns default).2.diagnostics.Perm (u.check ns default).2.diagnostics := by
  intro h
  have hreversed := h selecting .withPrelude ⟨"user", "default"⟩ selecting.items.reverse (by decide)
    (by decide) acyclic_selecting selecting.items.reverse_perm
  have hlength := hreversed.length_eq
  cbv at hlength

end Tern
