import Tern.Proofs.Check.Types

/-!
Two runs side by side. Contexts are twins if whatever checking can ask of them has the same answer:
types, the symbols that may be read, and what is seen from the current scope, whatever the numbers of
scopes and expressions are. A step in twin contexts ends in twin contexts, with the same reports.
-/

set_option autoImplicit false

namespace Tern

/-- What two runs have in common. -/
structure Outlook where
  /-- The package of the unit. -/
  path : PackagePath
  imports : Imports
  /-- The symbols that both have alike. -/
  reads : PackagePath → String → Prop
  /-- The programs are the same, with the same numbers. -/
  exact : Prop

/-- Wherever the name is looked for outside of the scopes, symbols are alike. -/
def Outlook.Reads (o : Outlook) (x : String) : Prop :=
  o.reads o.path x ∧ o.reads Namespace.preludePath x ∧
    ∀ i, o.imports.name? x = some i → o.reads i.path i.name

namespace Namespace

/-- A symbol of another package, as a unit of the given module sees it. -/
def shown? (ns : Namespace) (module : String) (path : PackagePath) (name : String) : Option Symbol :=
  (ns.symbol? path name).filter fun s => s.isPublic || path.module == module

/-- The namespaces look alike from the package `path`. -/
structure Like (path : PackagePath) (reads : PackagePath → String → Prop) (ns ns' : Namespace) :
    Prop where
  symbol : ∀ p x, reads p x → ns'.symbol? p x = ns.symbol? p x
  shown : ∀ p x, p ≠ path → ns'.shown? path.module p x = ns.shown? path.module p x
  definition : ∀ p x, ns'.definition? p x = ns.definition? p x
  package : ∀ p, (ns'.package? p).isSome = (ns.package? p).isSome

variable {path : PackagePath} {reads : PackagePath → String → Prop} {ns ns' : Namespace}

theorem Like.addSymbol (h : Like path reads ns ns') (s : Symbol) :
    Like path reads (ns.addSymbol path s) (ns'.addSymbol path s) where
  symbol := by
    intro p x hr
    rw [symbol?_addSymbol, symbol?_addSymbol, h.symbol p x hr]
    split
    · rename_i hs
      rw [h.symbol path s.name (hs.1 ▸ hs.2 ▸ hr)]
    · rfl
  shown := by
    intro p x hp
    have hother (ns : Namespace) : (ns.addSymbol path s).symbol? p x = ns.symbol? p x := by
      rw [symbol?_addSymbol, if_neg fun hs => hp hs.1]
    simpa only [shown?, hother] using h.shown p x hp
  definition := fun p x => by
    rw [definition?_addSymbol, definition?_addSymbol, h.definition]
  package := fun p => by
    have hf : ∀ p : Package, (p.addSymbol s).path = p.path := fun _ => rfl
    simp only [Namespace.addSymbol, package?_isSome_modifyPackage _ _ _ hf, h.package]

theorem Like.define (h : Like path reads ns ns') (d : Definition) :
    Like path reads (ns.define path d) (ns'.define path d) where
  symbol := fun p x hr => by rw [symbol?_define, symbol?_define, h.symbol p x hr]
  shown := fun p x hp => by simpa only [shown?, symbol?_define] using h.shown p x hp
  definition := fun p x => by rw [definition?_define, definition?_define, h.definition]
  package := fun p => by
    have hf : ∀ p : Package, (p.define d).path = p.path := fun _ => rfl
    simp only [Namespace.define, package?_isSome_modifyPackage _ _ _ hf, h.package]

end Namespace

namespace Context

/-- The symbol that a scope of the unit has under the name. -/
def local? (c : Context) (x : String) : Option Symbol :=
  (c.program.scopes.tables c.scope).findSome? (Symbol.find? x)

/-- The name is found in a scope, or alike outside of them. -/
def Knows (c : Context) (o : Outlook) (x : String) : Prop := (c.local? x).isSome ∨ o.Reads x

/-- Everything that checking asks of the contexts is the same. -/
structure Twin (o : Outlook) (c c' : Context) : Prop where
  path : c.path = o.path
  path' : c'.path = o.path
  imports : c.imports = o.imports
  imports' : c'.imports = o.imports
  returnTypes : c'.returnTypes = c.returnTypes
  generics : c'.generics = c.generics
  placed : c.scope < c.program.scopes.size
  placed' : c'.scope < c'.program.scopes.size
  level : c'.isAtPackageLevel = c.isAtPackageLevel
  tables : c'.program.scopes.tables c'.scope = c.program.scopes.tables c.scope
  ns : c.ns.Like o.path o.reads c'.ns
  program : o.exact → c'.program = c.program ∧ c'.scope = c.scope

end Context

/-- Both names refer to the same symbol. -/
structure Resolved.Same (o : Outlook) (r r' : Resolved) : Prop where
  symbol : r'.symbol = r.symbol
  target : o.exact → r'.target = r.target

/-- The expressions have the same type and stand in the same place. -/
structure SameValue (o : Outlook) (c c' : Context) (i i' : Nat) : Prop where
  lt : i < c.program.exprs.size
  lt' : i' < c'.program.exprs.size
  type : c'.program.type i' = c.program.type i
  span : c'.program.span i' = c.program.span i
  number : o.exact → i' = i

/-- From `c` and `c'` both have gone on to twins, with the same reports. -/
structure Onward (o : Outlook) (c c' d d' : Context) : Prop where
  twin : d.Twin o d'
  grows : c.Grows d
  grows' : c'.Grows d'
  reports : ∃ ds, d.diagnostics = c.diagnostics ++ ds ∧ d'.diagnostics = c'.diagnostics ++ ds

section

variable {o : Outlook} {c c' d d' e e' : Context} {x : String}

namespace Context

theorem Twin.local?_eq (h : c.Twin o c') (x : String) : c'.local? x = c.local? x := by
  rw [local?, local?, h.tables]

theorem map_lookup (c : Context) (x : String) :
    (c.program.scopes.lookup c.scope x).map Prod.snd = c.local? x := ScopeTree.map_lookup _ _ _

theorem Twin.typeScope_eq (h : c.Twin o c') : c'.typeScope = c.typeScope :=
  typeScope_congr (h.path'.trans h.path.symm) (h.imports'.trans h.imports.symm) h.generics
    h.ns.definition

theorem Twin.hasCase_eq (h : c.Twin o c') (head : VariantHead) (x : String) :
    c'.ns.hasCase head x = c.ns.hasCase head x := by
  simp only [Namespace.hasCase, Namespace.definitionOf?, h.ns.definition]

theorem Twin.fieldType?_eq (h : c.Twin o c') (head : VariantHead) (args : List Ty) (x : String) :
    c'.fieldType? head args x = c.fieldType? head args x := by
  simp only [fieldType?, Namespace.definitionOf?, h.ns.definition]

theorem Twin.resolveOutside_eq (h : c.Twin o c') (hx : o.Reads x) :
    c'.resolveOutside x = c.resolveOutside x := by
  obtain ⟨hown, hprelude, himported⟩ := hx
  simp only [resolveOutside, packageSymbol?, h.path, h.path', h.imports, h.imports',
    h.ns.symbol _ _ hown, h.ns.symbol _ _ hprelude]
  cases hi : o.imports.name? x with
  | none => rfl
  | some i => simp only [Option.bind_some, h.ns.symbol _ _ (himported i hi)]

theorem Twin.resolveName_same (h : c.Twin o c') (hx : c.Knows o x) :
    Option.Rel (Resolved.Same o) (c.resolveName x) (c'.resolveName x) := by
  have hmap := c.map_lookup x
  have hmap' := (c'.map_lookup x).trans (h.local?_eq x)
  rw [resolveName, resolveName]
  cases hl : c.program.scopes.lookup c.scope x with
  | some r =>
    obtain ⟨a, s⟩ := r
    rw [hl] at hmap
    rw [← hmap] at hmap'
    obtain ⟨⟨a', s'⟩, hl', rfl⟩ := Option.map_eq_some_iff.mp hmap'
    rw [hl']
    refine .some ⟨rfl, fun hexact => ?_⟩
    obtain ⟨hprogram, hscope⟩ := h.program hexact
    rw [hprogram, hscope, hl] at hl'
    cases hl'
    rfl
  | none =>
    rw [hl] at hmap
    have hl' : c'.program.scopes.lookup c'.scope x = none := by
      rw [← hmap] at hmap'
      exact Option.map_eq_none_iff.mp hmap'
    have hreads : o.Reads x := hx.resolve_left (by simp [← hmap])
    rw [hl']
    dsimp only
    rw [h.resolveOutside_eq hreads]
    cases c.resolveOutside x with
    | none => exact .none
    | some r => exact .some ⟨rfl, fun _ => rfl⟩

/-- A name in a package is found alike if that is another package, or if the symbol may be read. -/
theorem Twin.resolveIn_eq (h : c.Twin o c') {path : PackagePath}
    (hx : path = o.path → o.reads path x) : c'.resolveIn path x = c.resolveIn path x := by
  by_cases hp : path = o.path
  · simp only [resolveIn, packageSymbol?, h.ns.symbol _ _ (hx hp), h.path, h.path']
  · have hfound (e : Context) (he : e.path = o.path) : e.resolveIn path x =
        (e.ns.shown? o.path.module path x).map fun s => ⟨.package path s.name, s⟩ := by
      simp only [resolveIn, packageSymbol?, Namespace.shown?, he]
      cases e.ns.symbol? path x with
      | none => rfl
      | some s => cases hs : (s.isPublic || path.module == o.path.module) <;> simp_all [Option.filter]
    rw [hfound c' h.path', hfound c h.path, h.ns.shown path x hp]

theorem Twin.namesPackage_eq (h : c.Twin o c') (hx : c.Knows o x) :
    c'.namesPackage x = c.namesPackage x := by
  have hsame := h.resolveName_same hx
  rw [namesPackage, namesPackage, h.imports, h.imports']
  generalize c.resolveName x = r at hsame ⊢
  generalize c'.resolveName x = r' at hsame ⊢
  cases hsame <;> rfl

/-! What stays while contexts grow -/

theorem Grows.exprs_eq (h : c.Grows d) {i : Nat} (hi : i < c.program.exprs.size) :
    d.program.exprs[i]? = c.program.exprs[i]? := by
  rw [Array.getElem?_eq_getElem hi]
  exact h.exprs i _ (Array.getElem?_eq_getElem hi)

theorem Grows.knows (h : c.Grows d) (hx : c.Knows o x) : d.Knows o x := by
  simp only [Knows, ← map_lookup, Option.isSome_map] at hx ⊢
  exact hx.imp_left fun hx => h.scope ▸ h.scopes.refines.lookup_isSome hx

end Context

theorem SameValue.onward {i i' : Nat} (h : SameValue o c c' i i') (k : Onward o c c' d d') :
    SameValue o d d' i i' where
  lt := Nat.lt_of_lt_of_le h.lt k.grows.size_le
  lt' := Nat.lt_of_lt_of_le h.lt' k.grows'.size_le
  type := by
    simpa only [Program.type, k.grows.exprs_eq h.lt, k.grows'.exprs_eq h.lt'] using h.type
  span := by
    simpa only [Program.span, Program.expr?, k.grows.exprs_eq h.lt, k.grows'.exprs_eq h.lt']
      using h.span
  number := h.number

theorem Onward.refl (h : c.Twin o c') : Onward o c c' c c' :=
  ⟨h, .refl c, .refl c', [], by simp, by simp⟩

theorem Onward.trans (h : Onward o c c' d d') (k : Onward o d d' e e') : Onward o c c' e e' := by
  obtain ⟨ds, hd, hd'⟩ := h.reports
  obtain ⟨es, he, he'⟩ := k.reports
  refine ⟨k.twin, h.grows.trans k.grows, h.grows'.trans k.grows', ds ++ es, ?_, ?_⟩
  · rw [he, hd, List.append_assoc]
  · rw [he', hd', List.append_assoc]

/-- A change that makes no reports and touches nothing that is older. -/
theorem Onward.of_twin (h : d.Twin o d') (hg : c.Grows d) (hg' : c'.Grows d')
    (hd : d.diagnostics = c.diagnostics) (hd' : d'.diagnostics = c'.diagnostics) :
    Onward o c c' d d' :=
  ⟨h, hg, hg', [], by simp [hd], by simp [hd']⟩

end

namespace Check

/-- Both steps lead from `c` and `c'` to twins, with values of which `V` holds. -/
def Pairs (o : Outlook) {α : Type} (V : Context → Context → α → α → Prop) (m m' : Check α)
    (c c' : Context) : Prop :=
  Onward o c c' (m.run c).2 (m'.run c').2 ∧
    V (m.run c).2 (m'.run c').2 (m.run c).1 (m'.run c').1

/-- The values are the same. -/
def Equal {α : Type} (_ _ : Context) (a a' : α) : Prop := a' = a

section

variable {α β : Type} {o : Outlook} {c c' : Context} {V : Context → Context → α → α → Prop}
  {W : Context → Context → β → β → Prop} {m m' : Check α} {f f' : α → Check β}

theorem Pairs.bind (h : Pairs o V m m' c c')
    (k : ∀ a a' d d', Onward o c c' d d' → V d d' a a' → Pairs o W (f a) (f' a') d d') :
    Pairs o W (m >>= f) (m' >>= f') c c' := by
  obtain ⟨hon, hv⟩ := h
  obtain ⟨hon', hw⟩ := k _ _ _ _ hon hv
  exact ⟨hon.trans hon', hw⟩

/-- The same value goes on. -/
theorem Pairs.bind_equal (h : Pairs o Equal m m' c c')
    (k : ∀ a d d', Onward o c c' d d' → Pairs o W (f a) (f' a) d d') :
    Pairs o W (m >>= f) (m' >>= f') c c' := by
  refine h.bind fun a a' d d' hon ha => ?_
  obtain rfl : a' = a := ha
  exact k a' d d' hon

theorem Pairs.mono {V' : Context → Context → α → α → Prop} (h : Pairs o V m m' c c')
    (k : ∀ a a' d d', Onward o c c' d d' → V d d' a a' → V' d d' a a') : Pairs o V' m m' c c' :=
  ⟨h.1, k _ _ _ _ h.1 h.2⟩

/-- What the first run gives is known in another way. -/
theorem Pairs.and {P : α → Context → Prop} (h : Pairs o V m m' c c') (k : m.Yields c P) :
    Pairs o (fun d d' a a' => V d d' a a' ∧ P a d) m m' c c' := ⟨h.1, h.2, k⟩

theorem pairs_pure {a a' : α} (ht : c.Twin o c') (h : V c c' a a') :
    Pairs o V (pure a) (pure a') c c' := ⟨.refl ht, h⟩

theorem pairs_ite {p : Prop} [Decidable p] {m₁ m₂ m₁' m₂' : Check α}
    (h : p → Pairs o V m₁ m₁' c c') (k : ¬ p → Pairs o V m₂ m₂' c c') :
    Pairs o V (if p then m₁ else m₂) (if p then m₁' else m₂') c c' := by
  by_cases hp : p
  · simpa only [if_pos hp] using h hp
  · simpa only [if_neg hp] using k hp

theorem pairs_get_bind {g g' : Context → Check β} (h : Pairs o W (g c) (g' c') c c') :
    Pairs o W (get >>= g) (get >>= g') c c' := h

theorem pairs_typeOf_bind {g g' : Ty → Check β} {i i' : Nat} (hi : SameValue o c c' i i')
    (h : Pairs o W (g (c.program.type i)) (g' (c.program.type i)) c c') :
    Pairs o W (typeOf i >>= g) (typeOf i' >>= g') c c' := by
  change Pairs o W (g (c.program.type i)) (g' (c'.program.type i')) c c'
  rwa [hi.type]

theorem pairs_spanOf_bind {g g' : Span → Check β} {i i' : Nat} (hi : SameValue o c c' i i')
    (h : Pairs o W (g (c.program.span i)) (g' (c.program.span i)) c c') :
    Pairs o W (spanOf i >>= g) (spanOf i' >>= g') c c' := by
  change Pairs o W (g (c.program.span i)) (g' (c'.program.span i')) c c'
  rwa [hi.span]

end

end Check

end Tern
