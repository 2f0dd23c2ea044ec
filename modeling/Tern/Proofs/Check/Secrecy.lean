import Tern.Proofs.Twin.Unit

/-!
Private symbols are a secret of their module. Two namespaces that differ only in private symbols of
other modules are the same to a unit, except in one way: a private symbol takes the name of a public
type away from those who import it. Apart from such names, the unit gets the same reports and the same
program in both.
-/

set_option autoImplicit false

namespace Tern

namespace Namespace

/-- The namespaces differ, if at all, in private symbols of modules other than the given one. -/
structure AlikeFrom (module : String) (ns ns' : Namespace) : Prop where
  package : ∀ p, (ns'.package? p).isSome = (ns.package? p).isSome
  definition : ∀ p x, ns'.definition? p x = ns.definition? p x
  symbol : ∀ p x, p.module = module ∨ p = preludePath → ns'.symbol? p x = ns.symbol? p x
  shown : ∀ p x,
    (ns'.symbol? p x).filter Symbol.isPublic = (ns.symbol? p x).filter Symbol.isPublic

/-- Of the public types that are imported, both namespaces hide the same ones behind symbols. -/
def HidesAlike (decls : List ImportDecl) (ns ns' : Namespace) : Prop :=
  ∀ decl ∈ decls, ∀ e ∈ decl.entries, ∀ d, ns.definition? decl.path e.name = some d → d.isPublic →
    (ns'.symbol? decl.path e.name).isSome = (ns.symbol? decl.path e.name).isSome

variable {module : String} {path : PackagePath} {ns ns' : Namespace} {decls : List ImportDecl}

theorem AlikeFrom.ensurePackage (h : ns.AlikeFrom module ns') (path : PackagePath) :
    (ns.ensurePackage path).AlikeFrom module (ns'.ensurePackage path) where
  package := fun p => by rw [package?_isSome_ensurePackage, package?_isSome_ensurePackage, h.package]
  definition := by simpa using h.definition
  symbol := by simpa using h.symbol
  shown := by simpa using h.shown

theorem HidesAlike.ensurePackage (h : ns.HidesAlike decls ns') (path : PackagePath) :
    (ns.ensurePackage path).HidesAlike decls (ns'.ensurePackage path) := by
  simpa [HidesAlike] using h

theorem AlikeFrom.symbol_of_public (h : ns.AlikeFrom module ns') {x : String}
    {s : Symbol} (hs : ns.symbol? path x = some s) (hp : s.isPublic = true) :
    ns'.symbol? path x = some s := by
  have hshown := h.shown path x
  rw [hs, Option.filter_some, if_pos hp, Option.filter_eq_some_iff] at hshown
  exact hshown.1

theorem shown?_of_ne {p : PackagePath} (hm : p.module ≠ module) (x : String) :
    ns.shown? module p x = (ns.symbol? p x).filter Symbol.isPublic := by
  simp only [shown?, beq_eq_false_iff_ne.mpr hm, Bool.or_false]

theorem AlikeFrom.like (h : ns.AlikeFrom path.module ns') :
    Like path (fun p x => ns'.symbol? p x = ns.symbol? p x) ns ns' where
  symbol := fun _ _ hr => hr
  shown := by
    intro p x _
    by_cases hm : p.module = path.module
    · rw [shown?, shown?, h.symbol p x (Or.inl hm)]
    · rw [shown?_of_ne hm, shown?_of_ne hm, h.shown]
  definition := h.definition
  package := h.package

theorem Like.alikeFrom {reads : PackagePath → String → Prop} (h : ns.Like path reads ns')
    (hr : ∀ p x, p.module = path.module ∨ p = preludePath → reads p x) :
    ns.AlikeFrom path.module ns' where
  package := h.package
  definition := h.definition
  symbol := fun p x hp => h.symbol p x (hr p x hp)
  shown := by
    intro p x
    by_cases hm : p.module = path.module
    · rw [h.symbol p x (hr p x (Or.inl hm))]
    · have hshown := h.shown p x fun hp => hm (by rw [hp])
      rwa [shown?_of_ne hm, shown?_of_ne hm] at hshown

end Namespace

namespace Imports

variable {module : String} {ns ns' : Namespace} {decls : List ImportDecl}

/-- What is visible from another module: a public symbol, or a public type without a symbol. -/
theorem isVisible_false {path : PackagePath} {package : Package} (h : ns.package? path = some package)
    (x : String) : isVisible package false x =
      ((ns.symbol? path x).any Symbol.isPublic ||
        ((ns.symbol? path x).isNone && (ns.definition? path x).any Definition.isPublic)) := by
  simp only [Namespace.symbol?, Namespace.definition?, h, Option.bind_some, isVisible]
  cases package.symbol? x with
  | some s => simp
  | none => cases package.definition? x <;> simp

section

variable (h : ns.AlikeFrom module ns') {decl : ImportDecl} {package package' : Package}
  (hp : ns.package? decl.path = some package) {e : ImportEntry}
  (he : ∀ d, ns.definition? decl.path e.name = some d → d.isPublic →
    (ns'.symbol? decl.path e.name).isSome = (ns.symbol? decl.path e.name).isSome)

include h hp he

theorem isVisible_eq (hp' : ns'.package? decl.path = some package') :
    isVisible package' (decl.path.module == module) e.name =
      isVisible package (decl.path.module == module) e.name := by
  by_cases hm : decl.path.module = module
  · have hsymbol := h.symbol decl.path e.name (Or.inl hm)
    have hdefinition := h.definition decl.path e.name
    simp only [Namespace.symbol?, Namespace.definition?, hp, hp', Option.bind_some]
      at hsymbol hdefinition
    rw [isVisible, isVisible, hsymbol, hdefinition]
  · have hany : (ns'.symbol? decl.path e.name).any Symbol.isPublic =
        (ns.symbol? decl.path e.name).any Symbol.isPublic := by
      rw [← Option.isSome_filter, ← Option.isSome_filter, h.shown]
    rw [beq_eq_false_iff_ne.mpr hm, isVisible_false hp', isVisible_false hp, hany, h.definition]
    -- whether there is a symbol matters only if there is a public type
    cases hd : (ns.definition? decl.path e.name).any Definition.isPublic with
    | false => simp
    | true =>
      obtain ⟨d, hd, hpublic⟩ := (Option.any_eq_true _ _).mp hd
      rw [← Option.not_isSome, ← Option.not_isSome, he d hd hpublic]

/-- A name that can be imported is the same symbol in both, or none. -/
theorem symbol?_eq_of_visible
    (hv : isVisible package (decl.path.module == module) e.name = true) :
    ns'.symbol? decl.path e.name = ns.symbol? decl.path e.name := by
  by_cases hm : decl.path.module = module
  · exact h.symbol decl.path e.name (Or.inl hm)
  · rw [beq_eq_false_iff_ne.mpr hm, isVisible_false hp, Bool.or_eq_true, Bool.and_eq_true] at hv
    rcases hv with hv | ⟨hnone, hd⟩
    · obtain ⟨s, hs, hpublic⟩ := (Option.any_eq_true _ _).mp hv
      rw [hs, h.symbol_of_public hs hpublic]
    · obtain ⟨d, hd, hpublic⟩ := (Option.any_eq_true _ _).mp hd
      have hsome := he d hd hpublic
      rw [Option.isNone_iff_eq_none] at hnone
      rw [hnone] at hsome ⊢
      exact Option.isNone_iff_eq_none.mp (by simpa using hsome)

end

theorem ofDecls_eq (h : ns.AlikeFrom module ns') (hh : ns.HidesAlike decls ns') :
    ofDecls ns' module decls = ofDecls ns module decls := by
  refine List.foldl_ext _ _ _ fun o decl hdecl => ?_
  have hpackage := h.package decl.path
  unfold addDecl
  cases hp : ns.package? decl.path with
  | none =>
    rw [hp] at hpackage
    have hp' : ns'.package? decl.path = none := by simpa using hpackage
    rw [hp']
  | some package =>
    obtain ⟨package', hp'⟩ := Option.isSome_iff_exists.mp (hpackage.trans (hp ▸ rfl))
    rw [hp']
    refine List.foldl_ext _ _ _ fun o e hmem => ?_
    rw [addEntry, addEntry, isVisible_eq h hp (hh decl hdecl e hmem) hp']

theorem symbol?_eq_of_name? (h : ns.AlikeFrom module ns') (hh : ns.HidesAlike decls ns') {x : String}
    {i : ImportedName} (hx : (ofDecls ns module decls).1.name? x = some i) :
    ns'.symbol? i.path i.name = ns.symbol? i.path i.name :=
  forall_name?_ofDecls (P := fun _ i => ns'.symbol? i.path i.name = ns.symbol? i.path i.name)
    (fun decl hdecl _ hp e he hv => symbol?_eq_of_visible h hp (hh decl hdecl e he) hv) hx

end Imports

namespace SourceUnit

variable {u : SourceUnit} {ns ns' : Namespace} {default : PackagePath}

/-- What the unit sees in both namespaces. -/
def outlook (u : SourceUnit) (ns ns' : Namespace) (default : PackagePath) : Outlook where
  path := u.path default
  imports := (u.imported ns default).imports
  reads p x := (u.imported ns' default).ns.symbol? p x = (u.imported ns default).ns.symbol? p x
  exact := True

section

variable (h : ns.AlikeFrom (u.path default).module ns') (hh : ns.HidesAlike u.imports ns')
include h hh

theorem ofDecls_imported :
    Imports.ofDecls (u.imported ns' default).ns (u.path default).module u.imports =
      Imports.ofDecls (u.imported ns default).ns (u.path default).module u.imports :=
  Imports.ofDecls_eq (h.ensurePackage _) (hh.ensurePackage _)

theorem twin_imported :
    (u.imported ns default).Twin (u.outlook ns ns' default) (u.imported ns' default) where
  path := rfl
  path' := rfl
  imports := rfl
  imports' := congrArg Prod.fst (ofDecls_imported h hh)
  returnTypes := rfl
  generics := rfl
  placed := Nat.zero_lt_one
  placed' := Nat.zero_lt_one
  level := rfl
  tables := rfl
  ns := (h.ensurePackage (u.path default)).like
  program := fun _ => ⟨rfl, rfl⟩

/-- Whatever name the unit uses, it is alike. -/
theorem reads_outlook (x : String) : (u.outlook ns ns' default).Reads x := by
  have h' := h.ensurePackage (u.path default)
  exact ⟨h'.symbol _ _ (Or.inl rfl), h'.symbol _ _ (Or.inr rfl),
    fun i hi => Imports.symbol?_eq_of_name? h' (hh.ensurePackage _) hi⟩

/-- The unit looks for nothing that could differ. -/
theorem admits_outlook (n : Node) : (u.outlook ns ns' default).AdmitsItem n := by
  have hreads := reads_outlook h hh
  have hown (p : PackagePath) (hp : p = (u.outlook ns ns' default).path) (x : String) :
      (u.outlook ns ns' default).reads p x := hp ▸ (hreads x).1
  have hadmits (m : Node) : (u.outlook ns ns' default).Admits m := by
    unfold Outlook.Admits
    split
    · exact fun hp => hown _ hp _
    · exact hown _ rfl _
    · exact fun _ => hown _ rfl _
    · exact fun x _ => hreads x
    · trivial
  unfold Outlook.AdmitsItem
  split
  · trivial
  · exact fun m _ => hadmits m

end

/-- Where namespaces differ only in private symbols of other modules, and these hide no public type
that the unit imports, the unit gets the same reports and the same program in both; and the namespaces
still differ in such symbols only. -/
theorem private_symbols_secret (u : SourceUnit) (ns ns' : Namespace) (default : PackagePath)
    (h : ns.AlikeFrom (u.path default).module ns') (hh : ns.HidesAlike u.imports ns') :
    (u.check ns' default).1 = (u.check ns default).1 ∧
      (u.check ns' default).2.diagnostics = (u.check ns default).2.diagnostics ∧
      (u.check ns' default).2.program = (u.check ns default).2.program ∧
      (u.check ns default).2.ns.AlikeFrom (u.path default).module (u.check ns' default).2.ns := by
  have hend := abreast_check (twin_imported h hh) fun n _ =>
    ⟨admits_outlook h hh n, fun r _ => reads_outlook h hh r.name⟩
  refine ⟨?_, ?_, (hend.twin.program trivial).1, ?_⟩
  · rw [(u.prepares_check ns default).1, (u.prepares_check ns' default).1]
  · obtain ⟨ds, hd, hd'⟩ := hend.reports
    rw [hd, hd']
    exact congrArg (· ++ ds) (congrArg Prod.snd (ofDecls_imported h hh))
  · exact hend.twin.ns.alikeFrom (h.ensurePackage (u.path default)).symbol

end SourceUnit

/-! A library with a secret, and one in which the secret takes the name of a type -/

/-- One more private symbol makes no difference to other modules. -/
theorem Namespace.alikeFrom_addSymbol {module : String} {path : PackagePath} {ns : Namespace}
    {s : Symbol} (hm : path.module ≠ module) (hprelude : path ≠ preludePath)
    (hpackage : (ns.package? path).isSome) (hnew : ns.symbol? path s.name = none)
    (hs : s.isPublic = false) : ns.AlikeFrom module (ns.addSymbol path s) where
  package := by
    intro p
    have hf : ∀ p : Package, (p.addSymbol s).path = p.path := fun _ => rfl
    rw [addSymbol, package?_isSome_modifyPackage _ _ _ hf]
    by_cases hp : p = path
    · simp [hp, hpackage]
    · simp [hp]
  definition := fun p x => definition?_addSymbol ns path s p x
  symbol := by
    rintro p x hp
    rw [symbol?_addSymbol, if_neg]
    rintro ⟨rfl, _⟩
    rcases hp with hp | hp
    · exact hm hp
    · exact hprelude hp
  shown := by
    intro p x
    rw [symbol?_addSymbol]
    split
    · rename_i hpx
      rw [hpx.1, hpx.2, hnew]
      simp [Symbol.over, hs]
    · rfl

/-- The package `lib/math` with the public type `Num` and, if one is given, a symbol. -/
def numberLibrary (symbol : Option Symbol) : Namespace :=
  let ns := Namespace.withPrelude.define ⟨"lib", "math"⟩
    ⟨⟨"lib", "math"⟩, "Num", [], true, [⟨"Whole", [⟨"n", .int, true⟩], true⟩]⟩
  symbol.elim ns fun s => ns.addSymbol ⟨"lib", "math"⟩ s

theorem alikeFrom_numberLibrary {s : Symbol} (hs : s.isPublic = false) :
    (numberLibrary none).AlikeFrom "user" (numberLibrary (some s)) := by
  have hnew : (numberLibrary none).symbol? ⟨"lib", "math"⟩ s.name = none :=
    Namespace.symbol?_define ..
  exact Namespace.alikeFrom_addSymbol (by decide) (by decide) rfl hnew hs

/-- The unit that imports `lib/math.{Num, hidden}` and has the item

    fn f(n: Num): Num { n }
-/
def numbering : SourceUnit where
  package := none
  imports :=
    [⟨⟨"lib", "math"⟩, none, [⟨"Num", none, ⟨18, 21⟩⟩, ⟨"hidden", none, ⟨23, 29⟩⟩], ⟨0, 31⟩⟩]
  items :=
    [.function ⟨"f", false, [], [⟨"n", .named "Num" ⟨40, 43⟩, ⟨37, 43⟩⟩],
      some (.named "Num" ⟨46, 49⟩)⟩ [.name "n" ⟨52, 53⟩] ⟨32, 55⟩]

theorem reports_numbering :
    ((numbering.check (numberLibrary none) ⟨"user", "default"⟩).2.diagnostics.map
      Diagnostic.problem) = [.unrecognizedName "hidden"] := by cbv

/-- A name that is private and one that is not there at all are the same to the unit. -/
theorem numbering_learns_nothing :
    (numbering.check (numberLibrary none) ⟨"user", "default"⟩).2.diagnostics.map
        Diagnostic.problem = [.unrecognizedName "hidden"] ∧
      (numbering.check (numberLibrary (some ⟨"hidden", .int, false, false⟩))
          ⟨"user", "default"⟩).2.diagnostics =
        (numbering.check (numberLibrary none) ⟨"user", "default"⟩).2.diagnostics ∧
      (numbering.check (numberLibrary (some ⟨"hidden", .int, false, false⟩))
          ⟨"user", "default"⟩).2.program =
        (numbering.check (numberLibrary none) ⟨"user", "default"⟩).2.program := by
  have hhides : (numberLibrary none).HidesAlike numbering.imports
      (numberLibrary (some ⟨"hidden", .int, false, false⟩)) := by
    intro decl hdecl e he d hd _
    obtain rfl := List.mem_singleton.mp hdecl
    rcases List.mem_cons.mp he with rfl | he
    · rfl
    · obtain rfl := List.mem_singleton.mp he
      cases hd
  obtain ⟨_, hreports, hprogram, _⟩ := numbering.private_symbols_secret (numberLibrary none) _
    ⟨"user", "default"⟩ (alikeFrom_numberLibrary rfl) hhides
  exact ⟨reports_numbering, hreports, hprogram⟩

/-- A private symbol with the name of a public type keeps other modules from importing the type. -/
theorem private_symbol_hides_type :
    ¬ ∀ (u : SourceUnit) (ns ns' : Namespace) (default : PackagePath),
      ns.AlikeFrom (u.path default).module ns' →
        (u.check ns' default).2.diagnostics = (u.check ns default).2.diagnostics ∧
          (u.check ns' default).2.program = (u.check ns default).2.program := by
  intro h
  have halike : (numberLibrary none).AlikeFrom "user"
      (numberLibrary (some ⟨"Num", .int, false, false⟩)) := alikeFrom_numberLibrary rfl
  obtain ⟨hreports, _⟩ := h numbering (numberLibrary none) _ ⟨"user", "default"⟩ halike
  have hfour : (numbering.check (numberLibrary (some ⟨"Num", .int, false, false⟩))
      ⟨"user", "default"⟩).2.diagnostics.length = 4 := by cbv
  have hone := congrArg List.length reports_numbering
  rw [List.length_map, ← hreports, hfour] at hone
  cases hone

end Tern
