import Mathlib.Logic.Relation
import Tern.Namespace
import Tern.Proofs.ScopeTree

/-!
What a change of a package leaves in a namespace: nothing is ever taken away, and other packages are
not touched.
-/

set_option autoImplicit false

namespace Tern

namespace Definition

theorem find?_define (new : Definition) (name : String) (definitions : List Definition) :
    find? name (new.define definitions) =
      if name = new.name then some new else find? name definitions := by
  have hkey : ∀ x? : Option Definition, (∀ x ∈ x?, x.name = new.name) →
      Definition.name ((fun _ : Option Definition => new) x?) = new.name := fun _ _ => rfl
  by_cases h : name = new.name
  · subst h
    simp only [find?, define, Table.find?_put_self _ _ _ _ hkey, if_true]
  · simp only [find?, define, Table.find?_put_of_ne _ _ _ hkey h, h, if_false]

theorem name_eq_of_find? {name : String} {definitions : List Definition} {d : Definition}
    (h : find? name definitions = some d) : d.name = name := by
  simpa using List.find?_some h

/-- The symbols of the constructors. -/
def constructors (d : Definition) : List Symbol :=
  d.cases.map fun c => ⟨c.name, d.constructorType c, c.isPublic, false⟩

end Definition

namespace Namespace

variable (ns : Namespace) (path : PackagePath)

/-- A package that is not there is as good as an empty one. -/
theorem symbol?_getD (name : String) :
    ((ns.package? path).getD { path }).symbol? name = ns.symbol? path name := by
  rw [symbol?]
  cases ns.package? path <;> rfl

theorem definition?_getD (name : String) :
    ((ns.package? path).getD { path }).definition? name = ns.definition? path name := by
  rw [definition?]
  cases ns.package? path <;> rfl

section ModifyPackage

variable {f : Package → Package} (hf : ∀ p, (f p).path = p.path)
include hf

theorem key_modifyPackage (p? : Option Package) (h : ∀ p ∈ p?, Module.key p = path.package) :
    Module.key (f (p?.getD { path })) = path.package := by
  cases p? with
  | none => simp [Module.key, hf]
  | some p => simpa [Module.key, hf] using h p rfl

theorem package?_modifyPackage_self :
    (ns.modifyPackage path f).package? path = some (f ((ns.package? path).getD { path })) := by
  rw [package?, module?, modifyPackage, Table.find?_put_self]
  · rw [Option.bind_some, Module.package?, Table.find?_put_self _ _ _ _ (key_modifyPackage path hf)]
    cases h : Table.find? Module.name path.module ns.modules with
    | none => simp [package?, module?, h]
    | some m => simp [package?, module?, h, Module.package?]
  · intro _ _
    rfl

theorem package?_modifyPackage_of_ne {other : PackagePath} (hne : other ≠ path) :
    (ns.modifyPackage path f).package? other = ns.package? other := by
  have hname : ∀ x? : Option Module, (∀ x ∈ x?, x.name = path.module) →
      Module.name
        { name := path.module
          packages := Table.put Module.key path.package
            (fun p? => f (p?.getD { path })) ((x?.map Module.packages).getD []) } = path.module :=
    fun _ _ => rfl
  by_cases hm : other.module = path.module
  · have hp : other.package ≠ path.package := by
      intro hp
      apply hne
      cases other
      cases path
      simp_all
    rw [package?, module?, modifyPackage, hm, Table.find?_put_self _ _ _ _ hname, Option.bind_some,
      Module.package?, Table.find?_put_of_ne _ _ _ (key_modifyPackage path hf) hp]
    cases h : Table.find? Module.name path.module ns.modules with
    | none => simp [package?, module?, hm, h]
    | some m => simp [package?, module?, hm, h, Module.package?]
  · rw [package?, module?, modifyPackage, Table.find?_put_of_ne _ _ _ hname hm]
    rfl

/-- In the package that is changed there is what the change makes of it, or of an empty package, and
elsewhere there is what was there. -/
theorem symbol?_modifyPackage (other : PackagePath) (name : String) :
    (ns.modifyPackage path f).symbol? other name =
      if other = path then (f ((ns.package? path).getD { path })).symbol? name
      else ns.symbol? other name := by
  split
  · subst other
    rw [symbol?, package?_modifyPackage_self ns path hf, Option.bind_some]
  · rename_i h
    rw [symbol?, package?_modifyPackage_of_ne ns path hf h, symbol?]

theorem definition?_modifyPackage (other : PackagePath) (name : String) :
    (ns.modifyPackage path f).definition? other name =
      if other = path then (f ((ns.package? path).getD { path })).definition? name
      else ns.definition? other name := by
  split
  · subst other
    rw [definition?, package?_modifyPackage_self ns path hf, Option.bind_some]
  · rename_i h
    rw [definition?, package?_modifyPackage_of_ne ns path hf h, definition?]

theorem symbol?_modifyPackage_of_symbols (hs : ∀ p, (f p).symbols = p.symbols)
    (other : PackagePath) (name : String) :
    (ns.modifyPackage path f).symbol? other name = ns.symbol? other name := by
  rw [symbol?_modifyPackage ns path hf]
  split
  · subst other
    rw [Package.symbol?, hs, ← Package.symbol?, symbol?_getD]
  · rfl

theorem definition?_modifyPackage_of_definitions (hd : ∀ p, (f p).definitions = p.definitions)
    (other : PackagePath) (name : String) :
    (ns.modifyPackage path f).definition? other name = ns.definition? other name := by
  rw [definition?_modifyPackage ns path hf]
  split
  · subst other
    rw [Package.definition?, hd, ← Package.definition?, definition?_getD]
  · rfl

end ModifyPackage

theorem name_of_definition? {name : String} {d : Definition}
    (h : ns.definition? path name = some d) : d.name = name := by
  obtain ⟨p, _, hd⟩ := Option.bind_eq_some_iff.mp h
  exact Definition.name_eq_of_find? hd

/-- A package that is only created is empty. -/
@[simp] theorem symbol?_ensurePackage (other : PackagePath) (name : String) :
    (ns.ensurePackage path).symbol? other name = ns.symbol? other name :=
  ns.symbol?_modifyPackage_of_symbols path (f := id) (fun _ => rfl) (fun _ => rfl) other name

@[simp] theorem definition?_ensurePackage (other : PackagePath) (name : String) :
    (ns.ensurePackage path).definition? other name = ns.definition? other name :=
  ns.definition?_modifyPackage_of_definitions path (f := id) (fun _ => rfl) (fun _ => rfl) other name

theorem symbol?_addSymbol (s : Symbol) (other : PackagePath) (name : String) :
    (ns.addSymbol path s).symbol? other name =
      if other = path ∧ name = s.name then some (s.over (ns.symbol? path s.name))
      else ns.symbol? other name := by
  have hf : ∀ p : Package, (p.addSymbol s).path = p.path := fun _ => rfl
  rw [addSymbol, symbol?_modifyPackage ns path hf]
  by_cases h : other = path
  · subst h
    rw [if_pos rfl, Package.symbol?, Package.addSymbol]
    by_cases hname : name = s.name
    · subst hname
      rw [Symbol.find?_declare_self, if_pos ⟨rfl, rfl⟩, ← symbol?_getD]
      rfl
    · rw [Symbol.find?_declare_of_ne _ hname, if_neg (fun h => hname h.2), ← symbol?_getD]
      rfl
  · rw [if_neg h, if_neg fun k => h k.1]

theorem symbol?_addSymbol_iff (s : Symbol) (other : PackagePath) (name : String) :
    ((ns.addSymbol path s).symbol? other name).isSome ↔
      (other = path ∧ name = s.name) ∨ (ns.symbol? other name).isSome := by
  rw [symbol?_addSymbol]
  split <;> simp_all

theorem definition?_addSymbol (s : Symbol) (other : PackagePath) (name : String) :
    (ns.addSymbol path s).definition? other name = ns.definition? other name :=
  ns.definition?_modifyPackage_of_definitions path (f := fun p => p.addSymbol s) (fun _ => rfl)
    (fun _ => rfl) other name

theorem symbol?_define (d : Definition) (other : PackagePath) (name : String) :
    (ns.define path d).symbol? other name = ns.symbol? other name :=
  ns.symbol?_modifyPackage_of_symbols path (f := fun p => p.define d) (fun _ => rfl)
    (fun _ => rfl) other name

theorem definition?_define (d : Definition) (other : PackagePath) (name : String) :
    (ns.define path d).definition? other name =
      if other = path ∧ name = d.name then some d else ns.definition? other name := by
  have hf : ∀ p : Package, (p.define d).path = p.path := fun _ => rfl
  rw [define, definition?_modifyPackage ns path hf]
  by_cases h : other = path
  · subst h
    rw [if_pos rfl, Package.definition?, Package.define, Definition.find?_define, ← definition?_getD]
    simp [Package.definition?]
  · rw [if_neg h, if_neg fun k => h k.1]

theorem definition?_define_iff (d : Definition) (other : PackagePath) (name : String) :
    ((ns.define path d).definition? other name).isSome ↔
      (other = path ∧ name = d.name) ∨ (ns.definition? other name).isSome := by
  rw [definition?_define]
  split <;> simp_all

theorem definition?_withPrelude (path : PackagePath) (name : String) :
    withPrelude.definition? path name = none := by
  have hf : ∀ p : Package, (builtIns.foldl Package.addSymbol p).path = p.path := fun _ => rfl
  rw [withPrelude, loadPrelude, definition?_modifyPackage _ _ hf]
  split <;> rfl

theorem package?_isSome_modifyPackage (other : PackagePath) {f : Package → Package}
    (hf : ∀ p, (f p).path = p.path) : ((ns.modifyPackage path f).package? other).isSome =
      (decide (other = path) || (ns.package? other).isSome) := by
  by_cases h : other = path
  · subst h
    simp [package?_modifyPackage_self ns other hf]
  · simp [package?_modifyPackage_of_ne ns path hf h, h]

/-- One change of a package. -/
inductive Step (path : PackagePath) : Namespace → Namespace → Prop
  | ensurePackage (ns : Namespace) : Step path ns (ns.ensurePackage path)
  | addSymbol (ns : Namespace) (s : Symbol) : Step path ns (ns.addSymbol path s)
  | define (ns : Namespace) (d : Definition) : Step path ns (ns.define path d)

/-- Every package, symbol and definition is still there, in whatever form, and only the given package
has changed. -/
structure Grows (ns : Namespace) (path : PackagePath) (ns' : Namespace) : Prop where
  package : ∀ other, (ns.package? other).isSome → (ns'.package? other).isSome
  symbol : ∀ other name, (ns.symbol? other name).isSome → (ns'.symbol? other name).isSome
  definition : ∀ other name,
    (ns.definition? other name).isSome → (ns'.definition? other name).isSome
  others : ∀ other, other ≠ path → ns'.package? other = ns.package? other
  steps : Relation.ReflTransGen (Step path) ns ns'

theorem Grows.refl : ns.Grows path ns :=
  ⟨fun _ h => h, fun _ _ h => h, fun _ _ h => h, fun _ _ => rfl, .refl⟩

theorem Grows.trans {path : PackagePath} {a b c : Namespace} (h : a.Grows path b)
    (k : b.Grows path c) : a.Grows path c where
  package := fun other hp => k.package other (h.package other hp)
  symbol := fun other name hs => k.symbol other name (h.symbol other name hs)
  definition := fun other name hd => k.definition other name (h.definition other name hd)
  others := fun other hne => (k.others other hne).trans (h.others other hne)
  steps := h.steps.trans k.steps

theorem package?_isSome_ensurePackage (other : PackagePath) :
    ((ns.ensurePackage path).package? other).isSome =
      (decide (other = path) || (ns.package? other).isSome) :=
  package?_isSome_modifyPackage ns path other fun _ => rfl

theorem grows_ensurePackage : ns.Grows path (ns.ensurePackage path) where
  package := fun other hp => by rw [package?_isSome_ensurePackage, hp, Bool.or_true]
  symbol := fun other name hs => by rwa [symbol?_ensurePackage]
  definition := fun other name hd => by rwa [definition?_ensurePackage]
  others := fun _ hne => package?_modifyPackage_of_ne ns path (f := id) (fun _ => rfl) hne
  steps := .single (.ensurePackage ns)

theorem grows_addSymbol (s : Symbol) : ns.Grows path (ns.addSymbol path s) where
  package := fun other hp => by
    have hf : ∀ p : Package, (p.addSymbol s).path = p.path := fun _ => rfl
    rw [addSymbol, package?_isSome_modifyPackage ns path other hf, hp, Bool.or_true]
  symbol := fun other name hs => (symbol?_addSymbol_iff ns path s other name).mpr (Or.inr hs)
  definition := fun other name hd => by rwa [definition?_addSymbol]
  others := fun _ hne =>
    package?_modifyPackage_of_ne ns path (f := fun p => p.addSymbol s) (fun _ => rfl) hne
  steps := .single (.addSymbol ns s)

theorem grows_define (d : Definition) : ns.Grows path (ns.define path d) where
  package := fun other hp => by
    have hf : ∀ p : Package, (p.define d).path = p.path := fun _ => rfl
    rw [define, package?_isSome_modifyPackage ns path other hf, hp, Bool.or_true]
  symbol := fun other name hs => by rwa [symbol?_define]
  definition := fun other name hd => (definition?_define_iff ns path d other name).mpr (Or.inr hd)
  others := fun _ hne =>
    package?_modifyPackage_of_ne ns path (f := fun p => p.define d) (fun _ => rfl) hne
  steps := .single (.define ns d)

/-- The package has changed in certain names only: symbols in `declares` and definitions in
`defines`. -/
structure Alters (ns : Namespace) (path : PackagePath) (declares defines : String → Prop)
    (ns' : Namespace) : Prop extends ns.Grows path ns' where
  symbol_eq : ∀ name, declares name ∨ ns'.symbol? path name = ns.symbol? path name
  definition_eq : ∀ name, defines name ∨ ns'.definition? path name = ns.definition? path name

section Alters

variable {path : PackagePath} {declares defines : String → Prop} {a b c : Namespace}

theorem Alters.refl : ns.Alters path declares defines ns :=
  { Grows.refl ns path with
    symbol_eq := fun _ => Or.inr rfl
    definition_eq := fun _ => Or.inr rfl }

theorem Alters.trans (h : a.Alters path declares defines b) (k : b.Alters path declares defines c) :
    a.Alters path declares defines c :=
  { h.toGrows.trans k.toGrows with
    symbol_eq := fun name => by
      rcases h.symbol_eq name, k.symbol_eq name with ⟨hd | hab, hd | hbc⟩
      · exact Or.inl hd
      · exact Or.inl hd
      · exact Or.inl hd
      · exact Or.inr (hbc.trans hab)
    definition_eq := fun name => by
      rcases h.definition_eq name, k.definition_eq name with ⟨hd | hab, hd | hbc⟩
      · exact Or.inl hd
      · exact Or.inl hd
      · exact Or.inl hd
      · exact Or.inr (hbc.trans hab) }

theorem Alters.mono {declares' defines' : String → Prop} (h : a.Alters path declares defines b)
    (hs : ∀ x, declares x → declares' x) (hd : ∀ x, defines x → defines' x) :
    a.Alters path declares' defines' b :=
  { h with
    symbol_eq := fun name => (h.symbol_eq name).imp_left (hs name)
    definition_eq := fun name => (h.definition_eq name).imp_left (hd name) }

/-- Symbols of other packages are as they were. -/
theorem Grows.symbol?_eq {other : PackagePath} (h : a.Grows path b) (hne : other ≠ path)
    (name : String) : b.symbol? other name = a.symbol? other name := by
  rw [symbol?, symbol?, h.others other hne]

theorem Grows.definition?_eq {other : PackagePath} (h : a.Grows path b) (hne : other ≠ path)
    (name : String) : b.definition? other name = a.definition? other name := by
  rw [definition?, definition?, h.others other hne]

theorem alters_addSymbol (s : Symbol) (hs : declares s.name) :
    ns.Alters path declares defines (ns.addSymbol path s) :=
  { grows_addSymbol ns path s with
    symbol_eq := fun name => by
      rw [symbol?_addSymbol]
      by_cases h : name = s.name
      · exact Or.inl (h ▸ hs)
      · exact Or.inr (if_neg fun k => h k.2)
    definition_eq := fun name => Or.inr (definition?_addSymbol ns path s path name) }

theorem alters_define (d : Definition) (hd : defines d.name) :
    ns.Alters path declares defines (ns.define path d) :=
  { grows_define ns path d with
    symbol_eq := fun name => Or.inr (symbol?_define ns path d path name)
    definition_eq := fun name => by
      rw [definition?_define]
      by_cases h : name = d.name
      · exact Or.inl (h ▸ hd)
      · exact Or.inr (if_neg fun k => h k.2) }

end Alters

end Namespace

end Tern
