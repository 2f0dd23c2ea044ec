import Tern.Proofs.Coherence
import Tern.Proofs.Check.Types
import Tern.Proofs.Ty.Rule

/-!
What a unit can get to see. A horizon says which packages are looked at and what is asked of the types
in them: a reference to a variant type stays within the horizon if its definition is there, in a
package that is seen. As long as all types stay within, nothing outside is ever asked for, so that a
step gives the same in every namespace that has the same packages within the horizon.
-/

set_option autoImplicit false

namespace Tern

/-- Every type that has a definition still has one. -/
def Namespace.Keeps (ns ns' : Namespace) : Prop :=
  ∀ path x, (ns.definition? path x).isSome → (ns'.definition? path x).isSome

structure Horizon where
  sees : PackagePath → Prop
  /-- Asked of every set of signatures. -/
  set : List Signature → Prop
  empty : set []
  insert : ∀ s ss, s.Obeys ⟨fun _ _ => True, set⟩ → (∀ t ∈ ss, t.Obeys ⟨fun _ _ => True, set⟩) →
    set ss → set (Overload.insert s ss)

namespace Horizon

/-- Every reference to a variant type has a definition that is seen, and one argument for each of its
parameters. -/
def rule (h : Horizon) (ns : Namespace) : TypeRule where
  variant head args :=
    h.sees head.path ∧ (ns.definitionOf? head).isSome ∧ args.length = head.typeParams.length
  set := h.set

variable {h : Horizon} {ns ns' : Namespace}

theorem stable_rule (h : Horizon) (ns : Namespace) : (h.rule ns).Stable where
  args := fun head as bs hlength ha => ⟨ha.1, ha.2.1, hlength.trans ha.2.2⟩
  applied := fun head as bs hlength ha => ⟨ha.1, ha.2.1, hlength⟩
  case := fun head args case ha => ha
  empty := h.empty
  insert := by
    intro s ss hs hss hset
    have hweak {t : Signature} (ht : t.Obeys (h.rule ns)) : t.Obeys ⟨fun _ _ => True, h.set⟩ := by
      rw [← Ty.obeys_function] at ht ⊢
      refine Ty.Obeys.mono ?_ ?_ ht
      · exact fun _ _ _ => trivial
      · exact fun _ hset => hset
    exact h.insert s ss (hweak hs) (fun t ht => hweak (hss t ht)) hset

/-- Types stay within while definitions are added. -/
theorem obeys_of_keeps (hkeep : ns.Keeps ns') {t : Ty} (ht : t.Obeys (h.rule ns)) :
    t.Obeys (h.rule ns') := by
  refine Ty.Obeys.mono ?_ ?_ ht
  · intro head args hargs
    exact ⟨hargs.1, hkeep head.path head.name hargs.2.1, hargs.2.2⟩
  · exact fun _ hset => hset

end Horizon

/-! Declarations whose types obey a rule -/

section Rule

variable {rule weak : TypeRule}

theorem Symbol.obeys_declare (hr : rule.Stable) {new : Symbol} {symbols : List Symbol}
    (hn : new.type.Obeys rule) (h : ∀ s ∈ symbols, s.type.Obeys rule) :
    ∀ s ∈ new.declare symbols, s.type.Obeys rule :=
  Table.forall_mem_put h hn fun _ _ _ hold => hr.redeclare hold hn

/-- The types of all symbols in the scopes obey the rule. -/
def ScopeTree.Obeys (rule : TypeRule) (t : ScopeTree) : Prop :=
  ∀ id scope, t.scope? id = some scope → ∀ s ∈ scope.symbols, s.type.Obeys rule

namespace ScopeTree

variable {t : ScopeTree}

theorem Obeys.mono (hw : ∀ u : Ty, u.Obeys rule → u.Obeys weak) (h : t.Obeys rule) : t.Obeys weak :=
  fun id scope hscope s hs => hw s.type (h id scope hscope s hs)

theorem obeys_init : ScopeTree.init.Obeys rule := by
  intro id scope hscope
  have hempty : scope.symbols = [] := by
    simp only [init, scope?, scopeIn?] at hscope
    split at hscope
    · cases hscope
      rfl
    · cases hscope
  simp [hempty]

theorem Obeys.createChild (h : t.Obeys rule) (parent : Nat) (kind : ScopeKind) :
    (t.createChild parent kind).Obeys rule := by
  intro id scope hscope
  have hlt : id < t.size + 1 := lt_size_of_scope? hscope
  by_cases hid : id = t.size
  · rw [hid, scope?_createChild_self] at hscope
    cases hscope
    simp
  · rw [scope?_createChild_of_lt (by omega)] at hscope
    exact h id scope hscope

theorem Obeys.modify (h : t.Obeys rule) (id : Nat) {f : Scope → Scope}
    (hf : ∀ scope, (∀ s ∈ scope.symbols, s.type.Obeys rule) →
      ∀ s ∈ (f scope).symbols, s.type.Obeys rule) : (t.modify id f).Obeys rule := by
  intro other scope hscope
  by_cases hid : other = id
  · rw [hid, scope?_modify_self] at hscope
    obtain ⟨old, hold, rfl⟩ := Option.map_eq_some_iff.mp hscope
    exact hf old (h id old hold)
  · rw [scope?_modify_of_ne t f hid] at hscope
    exact h other scope hscope

theorem Obeys.addSymbol (hr : rule.Stable) (h : t.Obeys rule) (id : Nat) {s : Symbol}
    (hs : s.type.Obeys rule) : (t.addSymbol id s).Obeys rule :=
  h.modify id fun _ hold => Symbol.obeys_declare hr hs hold

theorem Obeys.addParameters (hr : rule.Stable) (h : t.Obeys rule) (id : Nat) {ps : List TypedParam}
    (hps : ∀ p ∈ ps, p.type.Obeys rule) : (t.addParameters id ps).Obeys rule := by
  induction ps generalizing t with
  | nil => exact h
  | cons p ps ih =>
    rw [List.forall_mem_cons] at hps
    refine ih (h.modify id ?_) hps.2
    exact fun _ hold => Symbol.obeys_declare hr hps.1 hold

theorem Obeys.of_lookup (h : t.Obeys rule) {id a : Nat} {name : String} {s : Symbol}
    (hs : t.lookup id name = some (a, s)) : s.type.Obeys rule := by
  obtain ⟨b, _, hb⟩ := List.exists_of_findSome?_eq_some hs
  obtain ⟨scope, hscope, hfound⟩ := Option.bind_eq_some_iff.mp hb
  obtain ⟨s', hs', heq⟩ := Option.map_eq_some_iff.mp hfound
  obtain rfl : s' = s := congrArg Prod.snd heq
  exact h b scope hscope s' (List.mem_of_find?_eq_some hs')

end ScopeTree

/-- The types of all fields obey the rule. -/
def Definition.Obeys (rule : TypeRule) (d : Definition) : Prop :=
  ∀ k ∈ d.cases, ∀ f ∈ k.fields, f.type.Obeys rule

theorem Definition.Obeys.mono (hw : ∀ u : Ty, u.Obeys rule → u.Obeys weak) {d : Definition}
    (h : d.Obeys rule) : d.Obeys weak := fun k hk f hf => hw f.type (h k hk f hf)

/-- The types that are kept inside the expression obey the rule. -/
def Expr.Obeys (rule : TypeRule) : Expr → Prop
  | function _ ps result _ _ => (∀ p ∈ ps, p.type.Obeys rule) ∧ result.Obeys rule
  | defineData d _ => d.Obeys rule
  | _ => True

theorem Expr.Obeys.mono (hw : ∀ u : Ty, u.Obeys rule → u.Obeys weak) {e : Expr} (h : e.Obeys rule) :
    e.Obeys weak := by
  cases e with
  | function scope ps result body span => exact ⟨fun p hp => hw p.type (h.1 p hp), hw result h.2⟩
  | defineData d span => exact Definition.Obeys.mono hw h
  | _ => trivial

/-- Every type in the package obeys the rule, and its definitions know where they belong. -/
structure Package.Obeys (rule : TypeRule) (path : PackagePath) (p : Package) : Prop where
  symbols : ∀ s ∈ p.symbols, s.type.Obeys rule
  paths : ∀ d ∈ p.definitions, d.path = path
  fields : ∀ d ∈ p.definitions, d.Obeys rule

/-- All packages that are seen obey the rule. -/
def Namespace.Obeys (sees : PackagePath → Prop) (rule : TypeRule) (ns : Namespace) : Prop :=
  ∀ path p, sees path → ns.package? path = some p → p.Obeys rule path

namespace Namespace

variable {sees : PackagePath → Prop} {ns : Namespace}

theorem Obeys.mono (hw : ∀ u : Ty, u.Obeys rule → u.Obeys weak) (h : ns.Obeys sees rule) :
    ns.Obeys sees weak := by
  intro path p hsees hp
  obtain ⟨hsymbols, hpaths, hfields⟩ := h path p hsees hp
  exact ⟨fun s hs => hw s.type (hsymbols s hs), hpaths, fun d hd => (hfields d hd).mono hw⟩

theorem Obeys.modifyPackage (h : ns.Obeys sees rule) {path : PackagePath} {f : Package → Package}
    (hf : ∀ p, (f p).path = p.path) (hp : ∀ p, p.Obeys rule path → (f p).Obeys rule path) :
    (ns.modifyPackage path f).Obeys sees rule := by
  intro other p hsees hfound
  by_cases hother : other = path
  · subst hother
    rw [package?_modifyPackage_self ns other hf] at hfound
    cases hfound
    apply hp
    cases hold : ns.package? other with
    | none => exact ⟨by simp, by simp, by simp⟩
    | some old => exact h other old hsees hold
  · rw [package?_modifyPackage_of_ne ns path hf hother] at hfound
    exact h other p hsees hfound

theorem Obeys.ensurePackage (h : ns.Obeys sees rule) (path : PackagePath) :
    (ns.ensurePackage path).Obeys sees rule := h.modifyPackage (fun _ => rfl) fun _ hp => hp

theorem Obeys.addSymbol (hr : rule.Stable) (h : ns.Obeys sees rule) (path : PackagePath) {s : Symbol}
    (hs : s.type.Obeys rule) : (ns.addSymbol path s).Obeys sees rule := by
  refine h.modifyPackage (fun _ => rfl) ?_
  intro p hp
  exact { hp with symbols := Symbol.obeys_declare hr hs hp.symbols }

theorem Obeys.define (h : ns.Obeys sees rule) {path : PackagePath} {d : Definition}
    (hpath : d.path = path) (hd : d.Obeys rule) : (ns.define path d).Obeys sees rule := by
  refine h.modifyPackage (fun _ => rfl) ?_
  intro p hp
  exact
    { hp with
      paths := Table.forall_mem_put hp.paths hpath fun _ _ _ _ => hpath
      fields := Table.forall_mem_put hp.fields hd fun _ _ _ _ => hd }

theorem obeys_builtIns : ∀ s ∈ builtIns, s.type.Obeys rule := by
  have hbuiltIn {name : String} {param : Ty} {ret : Ty} (hp : param.Obeys rule)
      (hr : ret.Obeys rule) : (builtIn name [param] ret).type.Obeys rule := by
    rw [builtIn, Ty.obeys_function, Signature.obeys_iff, Signature.params, Signature.ret]
    exact ⟨List.forall_mem_singleton.mpr hp, hr⟩
  have hprimitive (p : Primitive) : (Ty.primitive p).Obeys rule := Ty.obeys_primitive p
  simp only [builtIns, List.forall_mem_cons, List.not_mem_nil, false_imp_iff, implies_true, and_true]
  exact ⟨hbuiltIn (hprimitive _) (hprimitive _), hbuiltIn (hprimitive _) (hprimitive _),
    hbuiltIn (hprimitive _) (hprimitive _),
    hbuiltIn (Ty.obeys_array.mpr (hprimitive _)) (hprimitive _),
    hbuiltIn (hprimitive _) (hprimitive _)⟩

theorem Obeys.loadPrelude (hr : rule.Stable) (h : ns.Obeys sees rule) :
    ns.loadPrelude.Obeys sees rule := by
  refine h.modifyPackage (fun _ => rfl) ?_
  have hsymbols : ∀ s ∈ builtIns, s.type.Obeys rule := obeys_builtIns
  generalize builtIns = symbols at hsymbols
  induction symbols with
  | nil => exact fun _ hp => hp
  | cons s symbols ih =>
    intro p hp
    rw [List.forall_mem_cons] at hsymbols
    exact ih hsymbols.2 _ { hp with symbols := Symbol.obeys_declare hr hsymbols.1 hp.symbols }

theorem obeys_empty : Namespace.empty.Obeys sees rule := by
  intro path p _ hp
  cases hp

theorem Obeys.of_symbol? (h : ns.Obeys sees rule) {path : PackagePath} {x : String} {s : Symbol}
    (hsees : sees path) (hs : ns.symbol? path x = some s) : s.type.Obeys rule := by
  obtain ⟨p, hp, hfound⟩ := Option.bind_eq_some_iff.mp hs
  exact (h path p hsees hp).symbols s (List.mem_of_find?_eq_some hfound)

theorem Obeys.of_definition? (h : ns.Obeys sees rule) {path : PackagePath} {x : String}
    {d : Definition} (hsees : sees path) (hd : ns.definition? path x = some d) :
    d.path = path ∧ d.Obeys rule := by
  obtain ⟨p, hp, hfound⟩ := Option.bind_eq_some_iff.mp hd
  have hmem := List.mem_of_find?_eq_some hfound
  exact ⟨(h path p hsees hp).paths d hmem, (h path p hsees hp).fields d hmem⟩

end Namespace

end Rule

/-! Contexts within a horizon -/

/-- The packages within the horizon are the same in both. -/
def Horizon.Same (h : Horizon) (ns e : Namespace) : Prop :=
  ∀ path, h.sees path → e.package? path = ns.package? path

/-- Nothing in the context leads out of the horizon. -/
structure Context.Within (h : Horizon) (c : Context) : Prop where
  path : h.sees c.path
  prelude : h.sees Namespace.preludePath
  names : ∀ x i, c.imports.name? x = some i → h.sees i.path
  packages : ∀ x p, c.imports.package? x = some p → h.sees p
  ns : c.ns.Obeys h.sees (h.rule c.ns)
  types : ∀ i, (c.program.type i).Obeys (h.rule c.ns)
  exprs : ∀ x ∈ c.program.exprs, x.expr.Obeys (h.rule c.ns)
  scopes : c.program.scopes.Obeys (h.rule c.ns)

/-- The context in another namespace. -/
def Context.moved (c : Context) (e : Namespace) : Context := { c with ns := e }

/-- The type of a field is the one of a field of some case. -/
theorem Definition.exists_field_of_declaredFieldType? {d : Definition} {case : Option String}
    {x : String} {t : Ty} (h : d.declaredFieldType? case x = some t) :
    ∃ k ∈ d.cases, ∃ f ∈ k.fields, f.type = t := by
  cases case with
  | some name =>
    obtain ⟨k, hk, hfield⟩ := Option.bind_eq_some_iff.mp h
    obtain ⟨f, hf, rfl⟩ := Option.map_eq_some_iff.mp hfield
    exact ⟨k, List.mem_of_find?_eq_some hk, f, List.mem_of_find?_eq_some hf, rfl⟩
  | none =>
    simp only [declaredFieldType?] at h
    split at h
    · cases h
    · rename_i first others hcases
      split at h
      · cases h
      · rename_i f hf
        split at h
        · cases h
          exact ⟨first, hcases ▸ List.mem_cons_self, f, List.mem_of_find?_eq_some hf, rfl⟩
        · cases h

theorem VariantHead.mem_of_lookup_bindings {head : VariantHead} {args : List Ty} {x : String} {t : Ty}
    (h : (head.bindings args).lookup x = some t) : t ∈ args := by
  have hmem : (x, t) ∈ head.bindings args := by
    generalize head.bindings args = bindings at h
    induction bindings with
    | nil => cases h
    | cons b bindings ih =>
      rw [List.lookup_cons] at h
      split at h
      · rename_i hx
        obtain rfl : x = b.1 := eq_of_beq hx
        exact Option.some.inj h ▸ List.mem_cons_self
      · exact List.mem_cons_of_mem b (ih h)
  exact (List.of_mem_zip (List.mem_reverse.mp hmem)).2

section Lookups

variable {h : Horizon} {c : Context} {ns e : Namespace} {x : String} {path : PackagePath} {t : Ty}
  {r : Resolved} {head : VariantHead} {args : List Ty}

theorem Horizon.Same.symbol?_eq (hs : h.Same ns e) (hp : h.sees path) (x : String) :
    e.symbol? path x = ns.symbol? path x := by
  rw [Namespace.symbol?, Namespace.symbol?, hs path hp]

theorem Horizon.Same.definition?_eq (hs : h.Same ns e) (hp : h.sees path) (x : String) :
    e.definition? path x = ns.definition? path x := by
  rw [Namespace.definition?, Namespace.definition?, hs path hp]

theorem Horizon.Same.modifyPackage (hs : h.Same ns e) (path : PackagePath) {f : Package → Package}
    (hf : ∀ p, (f p).path = p.path) :
    h.Same (ns.modifyPackage path f) (e.modifyPackage path f) := by
  intro other hp
  by_cases hother : other = path
  · subst hother
    rw [Namespace.package?_modifyPackage_self _ _ hf, Namespace.package?_modifyPackage_self _ _ hf,
      hs other hp]
  · rw [Namespace.package?_modifyPackage_of_ne _ _ hf hother,
      Namespace.package?_modifyPackage_of_ne _ _ hf hother, hs other hp]

/-- The type of a definition that is found under its own name. -/
theorem Horizon.obeys_type {d : Definition} (hp : h.sees path) (hd : ns.definition? path x = some d)
    (hpath : d.path = path) : d.type.Obeys (h.rule ns) := by
  have hname : d.name = x := ns.name_of_definition? path hd
  refine Ty.obeys_generic ⟨hpath ▸ hp, ?_, List.length_map Ty.param⟩
  have hself : ns.definition? d.path d.name = some d := by rw [hpath, hname, hd]
  exact Option.isSome_of_eq_some hself

namespace Context

/-! What is found is the same in a namespace with the same packages. -/

theorem packageSymbol?_moved (hs : h.Same c.ns e) (hp : h.sees path) (x : String) :
    (c.moved e).packageSymbol? path x = c.packageSymbol? path x := by
  rw [packageSymbol?, packageSymbol?]
  exact congrArg (Option.map _) (hs.symbol?_eq hp x)

theorem Within.resolveName_moved (hw : c.Within h) (hs : h.Same c.ns e) (x : String) :
    (c.moved e).resolveName x = c.resolveName x := by
  have hown : (c.moved e).packageSymbol? c.path x = c.packageSymbol? c.path x :=
    packageSymbol?_moved hs hw.path x
  have hprelude := packageSymbol?_moved (c := c) hs hw.prelude x
  have himported : ((c.imports.name? x).bind fun i => (c.moved e).packageSymbol? i.path i.name) =
      (c.imports.name? x).bind fun i => c.packageSymbol? i.path i.name := by
    cases hi : c.imports.name? x with
    | none => rfl
    | some i => exact packageSymbol?_moved hs (hw.names x i hi) i.name
  have houtside : (c.moved e).resolveOutside x = c.resolveOutside x := by
    simp only [resolveOutside, moved] at himported hown hprelude ⊢
    rw [himported, hown, hprelude]
  rw [resolveName, resolveName, houtside]
  rfl

theorem resolveIn_moved (hs : h.Same c.ns e) (hp : h.sees path) (x : String) :
    (c.moved e).resolveIn path x = c.resolveIn path x := by
  rw [resolveIn, resolveIn, packageSymbol?_moved hs hp]
  rfl

theorem Within.resolveQualified_moved (hw : c.Within h) (hs : h.Same c.ns e) (package x : String) :
    (c.moved e).resolveQualified package x = c.resolveQualified package x := by
  rw [resolveQualified, resolveQualified]
  change (c.imports.package? package).bind _ = _
  cases hp : c.imports.package? package with
  | none => rfl
  | some path => exact resolveIn_moved hs (hw.packages package path hp) x

theorem Within.namesPackage_moved (hw : c.Within h) (hs : h.Same c.ns e) (x : String) :
    (c.moved e).namesPackage x = c.namesPackage x := by
  rw [namesPackage, namesPackage, hw.resolveName_moved hs]
  rfl

theorem hasCase_moved (hs : h.Same c.ns e) (hp : h.sees head.path) (x : String) :
    (c.moved e).ns.hasCase head x = c.ns.hasCase head x := by
  rw [Namespace.hasCase, Namespace.hasCase, Namespace.definitionOf?, Namespace.definitionOf?]
  exact congrArg (Option.any _) (hs.definition?_eq hp head.name)

theorem fieldType?_moved (hs : h.Same c.ns e) (hp : h.sees head.path) (args : List Ty)
    (x : String) : (c.moved e).fieldType? head args x = c.fieldType? head args x := by
  rw [fieldType?, fieldType?, Namespace.definitionOf?, Namespace.definitionOf?]
  exact congrArg (fun d => Option.bind d _) (hs.definition?_eq hp head.name)

theorem Within.lookup_moved (hw : c.Within h) (hs : h.Same c.ns e) (x : String) :
    (c.moved e).typeScope.lookup x = c.typeScope.lookup x := by
  have hown : e.definition? c.path x = c.ns.definition? c.path x := hs.definition?_eq hw.path x
  have himported : (c.moved e).importedType? x = c.importedType? x := by
    rw [importedType?, importedType?]
    change (c.imports.name? x).bind _ = _
    cases hi : c.imports.name? x with
    | none => rfl
    | some i =>
      exact congrArg (fun d => Option.bind d _) (hs.definition?_eq (hw.names x i hi) i.name)
  simp only [typeScope, moved] at himported ⊢
  rw [hown, himported]

/-! What is found obeys the rule. -/

theorem Within.obeys_lookup (hw : c.Within h) (ht : c.typeScope.lookup x = some t) :
    t.Obeys (h.rule c.ns) := by
  simp only [typeScope] at ht
  cases hown : c.ns.definition? c.path x with
  | some d =>
    rw [hown] at ht
    cases ht
    exact Horizon.obeys_type hw.path hown (hw.ns.of_definition? hw.path hown).1
  | none =>
    rw [hown] at ht
    obtain ⟨i, hi, himported⟩ := Option.bind_eq_some_iff.mp ht
    obtain ⟨d, hd, hvisible⟩ := Option.bind_eq_some_iff.mp himported
    split at hvisible
    · cases hvisible
      have hp := hw.names x i hi
      exact Horizon.obeys_type hp hd (hw.ns.of_definition? hp hd).1
    · cases hvisible

theorem Within.obeys_packageSymbol? (hw : c.Within h) (hp : h.sees path)
    (hr : c.packageSymbol? path x = some r) : r.symbol.type.Obeys (h.rule c.ns) := by
  obtain ⟨s, hs, rfl⟩ := Option.map_eq_some_iff.mp hr
  exact hw.ns.of_symbol? hp hs

theorem Within.obeys_resolveName (hw : c.Within h) (hr : c.resolveName x = some r) :
    r.symbol.type.Obeys (h.rule c.ns) := by
  rw [resolveName] at hr
  split at hr
  · rename_i scope s hs
    cases hr
    exact hw.scopes.of_lookup hs
  · rw [resolveOutside] at hr
    split at hr
    · rename_i r' hr'
      cases hr
      obtain ⟨i, hi, hfound⟩ := Option.bind_eq_some_iff.mp hr'
      exact hw.obeys_packageSymbol? (hw.names x i hi) hfound
    · split at hr
      · rename_i r' hr'
        cases hr
        exact hw.obeys_packageSymbol? hw.path hr'
      · exact hw.obeys_packageSymbol? hw.prelude hr

theorem Within.obeys_resolveIn (hw : c.Within h) (hp : h.sees path)
    (hr : c.resolveIn path x = some r) : r.symbol.type.Obeys (h.rule c.ns) := by
  obtain ⟨r', hr', hvisible⟩ := Option.bind_eq_some_iff.mp hr
  split at hvisible
  · cases hvisible
    exact hw.obeys_packageSymbol? hp hr'
  · cases hvisible

theorem Within.obeys_resolveQualified (hw : c.Within h) {package : String}
    (hr : c.resolveQualified package x = some r) : r.symbol.type.Obeys (h.rule c.ns) := by
  obtain ⟨path, hp, hfound⟩ := Option.bind_eq_some_iff.mp hr
  exact hw.obeys_resolveIn (hw.packages package path hp) hfound

theorem Within.obeys_fieldType? (hw : c.Within h) (hv : (Ty.variant head args).Obeys (h.rule c.ns))
    (ht : c.fieldType? head args x = some t) : t.Obeys (h.rule c.ns) := by
  obtain ⟨hhead, hargs⟩ := Ty.obeys_variant.mp hv
  obtain ⟨d, hd, hfield⟩ := Option.bind_eq_some_iff.mp ht
  obtain ⟨declared, hdeclared, rfl⟩ := Option.map_eq_some_iff.mp hfield
  obtain ⟨k, hk, f, hf, rfl⟩ := Definition.exists_field_of_declaredFieldType? hdeclared
  have hdeclares := (hw.ns.of_definition? hhead.1 hd).2 k hk f hf
  refine (h.stable_rule c.ns).substitute ?_ hdeclares
  intro y u hu
  exact hargs u (VariantHead.mem_of_lookup_bindings hu)

end Context

end Lookups

end Tern
