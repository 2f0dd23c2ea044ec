import Tern.Proofs.Check.Signatures
import Tern.Proofs.Twin.Items

/-!
What is registered, as a function of the items. A notice of an item depends on nothing but types, and
notices with different names may be made in any order.
-/

set_option autoImplicit false

namespace Tern

/-- What is made known of an item: declarations in the package, and reports. -/
structure Notice where
  symbols : List Symbol := []
  definitions : List Definition := []
  reports : List Diagnostic := []

namespace Notice

def append (e f : Notice) : Notice :=
  ⟨e.symbols ++ f.symbols, e.definitions ++ f.definitions, e.reports ++ f.reports⟩

/-- The notices for several items, one after the other. -/
def ofAll {α : Type} (notice : α → Notice) (as : List α) : Notice where
  symbols := as.flatMap fun a => (notice a).symbols
  definitions := as.flatMap fun a => (notice a).definitions
  reports := as.flatMap fun a => (notice a).reports

/-- No name is declared twice, and no type defined twice. -/
structure Distinct (e : Notice) : Prop where
  symbols : (e.symbols.map Symbol.name).Nodup
  definitions : (e.definitions.map Definition.name).Nodup

/-- The same declarations, however they are ordered. -/
structure Perm (e f : Notice) : Prop where
  symbols : e.symbols.Perm f.symbols
  definitions : e.definitions.Perm f.definitions
  reports : e.reports.Perm f.reports

theorem ofAll_perm {α : Type} (notice : α → Notice) {as bs : List α} (h : as.Perm bs) :
    (ofAll notice as).Perm (ofAll notice bs) :=
  ⟨h.flatMap_right _, h.flatMap_right _, h.flatMap_right _⟩

end Notice

section

variable {α : Type} {key : α → String} {as bs : List α}

/-- At most one of different names is a given one. -/
theorem filter_key_cases (h : (as.map key).Nodup) (x : String) :
    as.filter (fun a => key a == x) = [] ∨ ∃ a, as.filter (fun a => key a == x) = [a] := by
  have hnodup : ((as.filter fun a => key a == x).map key).Nodup := h.sublist (List.filter_sublist.map key)
  have hkey : ∀ a ∈ as.filter (fun a => key a == x), key a = x := by simp
  generalize as.filter (fun a => key a == x) = found at hnodup hkey
  match found with
  | [] => exact Or.inl rfl
  | [a] => exact Or.inr ⟨a, rfl⟩
  | a :: b :: rest =>
    simp only [List.forall_mem_cons] at hkey
    simp [hkey.1, hkey.2.1] at hnodup

theorem filter_key_of_mem (h : (as.map key).Nodup) {a : α} (ha : a ∈ as) :
    as.filter (fun b => key b == key a) = [a] := by
  have hmem : a ∈ as.filter fun b => key b == key a := by simp [ha]
  rcases filter_key_cases h (key a) with hnil | ⟨b, hb⟩
  · simp [hnil] at hmem
  · rw [hb] at hmem ⊢
    rw [List.mem_singleton.mp hmem]

theorem filter_key_of_perm (hp : as.Perm bs) (h : (bs.map key).Nodup) (x : String) :
    as.filter (fun a => key a == x) = bs.filter fun a => key a == x := by
  have hperm := hp.filter fun a => key a == x
  rcases filter_key_cases h x with hnil | ⟨b, hb⟩
  · rw [hnil] at hperm ⊢
    exact hperm.eq_nil
  · rw [hb] at hperm ⊢
    exact hperm.eq_singleton

theorem nodup_flatMap_of_sublist {f g : α → List String} (hsub : ∀ a, (f a).Sublist (g a))
    (h : (as.flatMap g).Nodup) : (as.flatMap f).Nodup := by
  refine h.sublist ?_
  clear h
  induction as with
  | nil => exact .refl _
  | cons a as ih => exact (hsub a).append ih

end

namespace Namespace

variable {path : PackagePath} {a b c a' b' : Namespace} {e f : Notice}

/-- The package has the declarations of the notice besides those it had. -/
structure Records (path : PackagePath) (e : Notice) (a b : Namespace) : Prop extends a.Grows path b where
  symbol_eq : ∀ x, b.symbol? path x =
    (e.symbols.filter fun s => s.name == x).foldl (fun old s => some (s.over old)) (a.symbol? path x)
  definition_eq : ∀ x, b.definition? path x =
    (e.definitions.filter fun d => d.name == x).getLast?.or (a.definition? path x)

theorem Records.refl (ns : Namespace) : Records path {} ns ns :=
  { Grows.refl ns path with
    symbol_eq := fun _ => rfl
    definition_eq := fun _ => rfl }

theorem Records.trans (h : Records path e a b) (k : Records path f b c) :
    Records path (e.append f) a c :=
  { h.toGrows.trans k.toGrows with
    symbol_eq := fun x => by
      rw [k.symbol_eq, h.symbol_eq, Notice.append, List.filter_append, List.foldl_append]
    definition_eq := fun x => by
      rw [k.definition_eq, h.definition_eq, Notice.append, List.filter_append, List.getLast?_append,
        Option.or_assoc] }

theorem records_addSymbol (ns : Namespace) (path : PackagePath) (s : Symbol) :
    Records path { symbols := [s] } ns (ns.addSymbol path s) :=
  { grows_addSymbol ns path s with
    symbol_eq := fun x => by
      rw [symbol?_addSymbol]
      by_cases h : x = s.name
      · simp [h]
      · simp [h, Ne.symm h]
    definition_eq := fun x => definition?_addSymbol ns path s path x }

theorem records_define (ns : Namespace) (path : PackagePath) (d : Definition) :
    Records path { definitions := [d] } ns (ns.define path d) :=
  { grows_define ns path d with
    symbol_eq := fun x => symbol?_define ns path d path x
    definition_eq := fun x => by
      rw [definition?_define]
      by_cases h : x = d.name
      · simp [h]
      · simp [h, Ne.symm h] }

theorem Records.symbol?_of_mem (h : Records path e a b) (he : e.Distinct) {s : Symbol}
    (hs : s ∈ e.symbols) : b.symbol? path s.name = some (s.over (a.symbol? path s.name)) := by
  rw [h.symbol_eq, filter_key_of_mem he.symbols hs]
  rfl

theorem Records.definition?_of_mem (h : Records path e a b) (he : e.Distinct) {d : Definition}
    (hd : d ∈ e.definitions) : b.definition? path d.name = some d := by
  rw [h.definition_eq, filter_key_of_mem he.definitions hd]
  rfl

/-- Namespaces that look alike do so with the same notices in another order. -/
theorem Like.records {reads : PackagePath → String → Prop} (h : Like path reads a a')
    (hp : (a.package? path).isSome) (hf : f.Distinct) (hperm : e.Perm f)
    (k : Records path e a b) (k' : Records path f a' b') : Like path reads b b' where
  symbol := by
    intro p x hx
    by_cases hown : p = path
    · subst hown
      rw [k'.symbol_eq, k.symbol_eq, h.symbol p x hx, filter_key_of_perm hperm.symbols hf.symbols]
    · rw [k'.toGrows.symbol?_eq hown, k.toGrows.symbol?_eq hown, h.symbol p x hx]
  shown := by
    intro p x hne
    simpa only [shown?, k'.toGrows.symbol?_eq hne, k.toGrows.symbol?_eq hne] using h.shown p x hne
  definition := by
    intro p x
    by_cases hown : p = path
    · subst hown
      rw [k'.definition_eq, k.definition_eq, h.definition,
        filter_key_of_perm hperm.definitions hf.definitions]
    · rw [k'.toGrows.definition?_eq hown, k.toGrows.definition?_eq hown, h.definition]
  package := by
    intro p
    by_cases hown : p = path
    · subst hown
      rw [k.package p hp, k'.package p ((h.package p).trans hp)]
    · rw [k'.others p hown, k.others p hown, h.package]

end Namespace

namespace Context

variable {o : Outlook} {e f : Notice} {c c' c'' d d' : Context}

/-- After the notice is made. -/
def Records (e : Notice) (c c' : Context) : Prop :=
  ∃ ns, c' = c.later ns e.reports ∧ c.ns.Records c.path e ns

theorem Records.refl (c : Context) : c.Records {} c := ⟨c.ns, c.later_nil.symm, .refl _⟩

theorem Records.trans (h : c.Records e c') (k : c'.Records f c'') : c.Records (e.append f) c'' := by
  obtain ⟨ns, rfl, hns⟩ := h
  obtain ⟨ns', rfl, hns'⟩ := k
  exact ⟨ns', later_later c ns ns' _ _, hns.trans hns'⟩

theorem records_ns {ns : Namespace} (h : c.ns.Records c.path e ns) (he : e.reports = []) :
    c.Records e { c with ns } := ⟨ns, by simp [later, he], h⟩

theorem records_reports (c : Context) (ds : List Diagnostic) :
    c.Records { reports := ds } (c.later c.ns ds) :=
  ⟨c.ns, rfl, { Namespace.Records.refl c.ns with }⟩

theorem Records.path_eq (h : c.Records e c') : c'.path = c.path := by
  obtain ⟨ns, rfl, _⟩ := h
  rfl

theorem Records.imports_eq (h : c.Records e c') : c'.imports = c.imports := by
  obtain ⟨ns, rfl, _⟩ := h
  rfl

theorem Records.package (h : c.Records e c') {path : PackagePath}
    (hp : (c.ns.package? path).isSome) : (c'.ns.package? path).isSome := by
  obtain ⟨ns, rfl, hns⟩ := h
  exact hns.package path hp

/-- Without definitions types stay as they were. -/
theorem Records.typeScope_eq (h : c.Records e c') (he : e.definitions = []) :
    c'.typeScope = c.typeScope := by
  obtain ⟨ns, rfl, hns⟩ := h
  refine typeScope_congr rfl rfl rfl fun p x => ?_
  by_cases hp : p = c.path
  · subst hp
    exact (hns.definition_eq x).trans (by simp [he])
  · exact hns.toGrows.definition?_eq hp x

/-- Other types stay as they were. -/
theorem Records.follows {defines : String → Prop} (h : c.Records e c')
    (he : ∀ d ∈ e.definitions, defines d.name) : c.Follows defines c' := by
  obtain ⟨ns, rfl, hns⟩ := h
  refine ⟨rfl, rfl, rfl, { hns.toGrows with symbol_eq := fun _ => Or.inl trivial, definition_eq := ?_ }⟩
  intro x
  have hdefinition := hns.definition_eq x
  cases hlast : (e.definitions.filter fun d => d.name == x).getLast? with
  | none => exact Or.inr (hdefinition.trans (by rw [hlast, Option.none_or]))
  | some d =>
    have hmem := List.mem_of_getLast? hlast
    simp only [List.mem_filter, beq_iff_eq] at hmem
    exact Or.inl (hmem.2 ▸ he d hmem.1)

theorem lookup_typeScope (c : Context) (x : String) : c.typeScope.lookup x =
    ((c.ns.definition? c.path x).map Definition.type).or (c.importedType? x) := by
  simp only [typeScope]
  cases c.ns.definition? c.path x <;> rfl

section

variable (h : c.Records e c')
  (he : ∀ d ∈ e.definitions, (c.ns.definition? c.path d.name).map Definition.type = some d.type)
include h he

/-- Definitions that keep the types of their names. -/
theorem Records.map_type_eq (x : String) : (c'.ns.definition? c.path x).map Definition.type =
    (c.ns.definition? c.path x).map Definition.type := by
  obtain ⟨ns, rfl, hns⟩ := h
  change (ns.definition? c.path x).map Definition.type = _
  rw [hns.definition_eq]
  cases hlast : (e.definitions.filter fun d => d.name == x).getLast? with
  | none => rfl
  | some d =>
    have hmem := List.mem_of_getLast? hlast
    simp only [List.mem_filter, beq_iff_eq] at hmem
    rw [Option.some_or, Option.map_some, ← hmem.2, he d hmem.1]

/-- They are not noticed, apart from their cases. -/
theorem Records.agrees (names : List String) :
    TypeScope.Agrees names false c.typeScope c'.typeScope := by
  have hown := h.map_type_eq he
  obtain ⟨ns, rfl, hns⟩ := h
  refine ⟨rfl, fun x _ => ?_, by simp⟩
  have himported : (c.later ns e.reports).importedType? x = c.importedType? x := by
    rw [importedType?, importedType?]
    refine Option.bind_congr fun i _ => ?_
    by_cases hp : i.path = c.path
    · simpa [hp, later, Option.map_eq_bind, Function.comp_def] using hown i.name
    · rw [later, hns.toGrows.definition?_eq hp]
  rw [lookup_typeScope, lookup_typeScope, himported]
  exact congrArg (Option.or · _) (hown x)

end

/-- The contexts look the same, with the same reports in whatever order. -/
structure Similar (o : Outlook) (c c' : Context) : Prop where
  twin : c.Twin o c'
  reports : c.diagnostics.Perm c'.diagnostics

theorem Similar.records (h : Similar o c c') (hp : (c.ns.package? o.path).isSome) (hf : f.Distinct)
    (hperm : e.Perm f) (k : c.Records e d) (k' : c'.Records f d') : Similar o d d' := by
  obtain ⟨ns, rfl, hns⟩ := k
  obtain ⟨ns', rfl, hns'⟩ := k'
  rw [h.twin.path] at hns
  rw [h.twin.path'] at hns'
  exact ⟨{ h.twin with ns := h.twin.ns.records hp hf hperm hns hns' }, h.reports.append hperm.reports⟩

end Context

/-! The notices of the items -/

def FunctionHead.symbolIn (head : FunctionHead) (s : TypeScope) : Symbol :=
  ⟨head.name, Check.functionType (head.signatureIn s).1 (head.signatureIn s).2, head.isPublic, false⟩

theorem Context.symbolOf_eq (c : Context) (head : FunctionHead) :
    c.symbolOf head = head.symbolIn c.typeScope := rfl

theorem DataDecl.definitionIn_eq {decl : DataDecl} {s s' : TypeScope}
    (h : ∀ r ∈ decl.typeRefs, TypeScope.Agrees r.names r.selects s s') (path : PackagePath) :
    decl.definitionIn path s' = decl.definitionIn path s ∧ decl.faultsIn s' = decl.faultsIn s := by
  have htype (r : TypeRef) (hr : r ∈ decl.typeRefs) :=
    ((h r hr).binding decl.typeParams).typeOf_eq (List.Subset.refl _) id
  constructor
  · rw [definitionIn, definitionIn, Definition.mk.injEq]
    refine ⟨rfl, rfl, rfl, rfl, List.map_congr_left fun c hc => ?_⟩
    congr 1
    refine List.map_congr_left fun f hf => ?_
    rw [(htype f.type (List.mem_flatMap.mpr ⟨c, hc, List.mem_map_of_mem hf⟩)).1]
  · rw [faultsIn, faultsIn]
    exact List.flatMap_congr fun r hr => (htype r hr).2

namespace Node

/-- The names of the types that an item defines. -/
def definedNames : Node → List String
  | data decl _ => [decl.name]
  | _ => []

def shellNotice (path : PackagePath) : Node → Notice
  | data decl _ => { definitions := [⟨path, decl.name, decl.typeParams, decl.isPublic, []⟩] }
  | _ => {}

def dataNotice (path : PackagePath) (s : TypeScope) : Node → Notice
  | data decl _ =>
    ⟨(decl.definitionIn path s).constructors, [decl.definitionIn path s], decl.faultsIn s⟩
  | _ => {}

def functionNotice (s : TypeScope) : Node → Notice
  | function head _ _ => ⟨[head.symbolIn s], [], head.faultsIn s⟩
  | _ => {}

end Node

/-- One of the items defines a type of this name. -/
def Defines (items : List Node) (x : String) : Prop := ∃ n ∈ items, x ∈ n.definedNames

/-- No two items declare the same name or define the same type, and where a field selects a case, it is
of a type that none of them defines. -/
structure Registrable (items : List Node) (imports : Imports) : Prop where
  names : (items.flatMap Node.declaredNames).Nodup
  types : (items.flatMap Node.definedNames).Nodup
  fields : ∀ decl span, .data decl span ∈ items → ∀ r ∈ decl.typeRefs, r.selects = true →
    ∀ x ∈ r.names, ¬ Defines items x ∧ ∀ i, imports.name? x = some i → ¬ Defines items i.name

namespace Registrable

variable {items items' : List Node} {imports : Imports}

theorem of_perm (h : Registrable items imports) (hp : items'.Perm items) :
    Registrable items' imports where
  names := (hp.flatMap_right _).nodup_iff.mpr h.names
  types := (hp.flatMap_right _).nodup_iff.mpr h.types
  fields := by
    intro decl span hmem r hr hselects x hx
    have hdefines (y : String) : Defines items' y → Defines items y :=
      fun ⟨n, hn, hy⟩ => ⟨n, hp.subset hn, hy⟩
    obtain ⟨hown, himported⟩ := h.fields decl span (hp.subset hmem) r hr hselects x hx
    exact ⟨mt (hdefines x) hown, fun i hi => mt (hdefines i.name) (himported i hi)⟩

/-- Entries for items have different names if each has only those of its item. -/
theorem distinct (h : Registrable items imports) {notice : Node → Notice}
    (hs : ∀ n, ((notice n).symbols.map Symbol.name).Sublist n.declaredNames)
    (hd : ∀ n, ((notice n).definitions.map Definition.name).Sublist n.definedNames) :
    (Notice.ofAll notice items).Distinct where
  symbols := by
    rw [Notice.ofAll, List.map_flatMap]
    exact nodup_flatMap_of_sublist hs h.names
  definitions := by
    rw [Notice.ofAll, List.map_flatMap]
    exact nodup_flatMap_of_sublist hd h.types

theorem distinct_shells (h : Registrable items imports) (path : PackagePath) :
    (Notice.ofAll (Node.shellNotice path) items).Distinct := by
  refine h.distinct (fun n => ?_) fun n => ?_
  · cases n <;> exact List.nil_sublist _
  · cases n <;> exact .refl _

theorem distinct_data (h : Registrable items imports) (path : PackagePath) (s : TypeScope) :
    (Notice.ofAll (Node.dataNotice path s) items).Distinct := by
  refine h.distinct (fun n => ?_) fun n => ?_
  · cases n with
    | data decl span =>
      simp [Node.dataNotice, Definition.constructors, DataDecl.definitionIn, Node.declaredNames,
        Function.comp_def]
    | _ => exact List.nil_sublist _
  · cases n <;> exact .refl _

theorem distinct_functions (h : Registrable items imports) (s : TypeScope) :
    (Notice.ofAll (Node.functionNotice s) items).Distinct := by
  refine h.distinct (fun n => ?_) fun n => ?_
  · cases n with
    | function head body span => exact .refl _
    | _ => exact List.nil_sublist _
  · cases n <;> exact List.nil_sublist _

end Registrable

namespace Check

variable {c : Context}

theorem records_declare (s : Symbol) :
    Yields (declare s) c fun _ c' => c.Records { symbols := [s] } c' :=
  Context.records_ns (Namespace.records_addSymbol _ _ s) rfl

/-- Entries are made one after the other, and what holds along the way is known. -/
theorem records_forM {α : Type} {f : α → Check Unit} (notice : α → Notice) {J : Context → Prop}
    (as : List α) (hc : J c) (hf : ∀ a ∈ as, ∀ c, J c →
      Yields (f a) c fun _ c' => c.Records (notice a) c' ∧ J c') :
    Yields (as.forM f) c fun _ c' => c.Records (.ofAll notice as) c' ∧ J c' := by
  induction as generalizing c with
  | nil => exact ⟨.refl c, hc⟩
  | cons a as ih =>
    refine (hf a List.mem_cons_self c hc).bind fun _ c₁ ⟨h₁, hc₁⟩ => ?_
    refine (ih hc₁ fun b hb => hf b (List.mem_cons_of_mem a hb)).mono fun _ c₂ ⟨h₂, hc₂⟩ => ?_
    exact ⟨h₁.trans h₂, hc₂⟩

theorem records_define (d : Definition) :
    Yields (define d) c fun _ c' => c.Records ⟨d.constructors, [d], []⟩ c' := by
  unfold define
  refine (records_forM (J := fun _ => True)
    (fun k : Case => { symbols := [⟨k.name, d.constructorType k, k.isPublic, false⟩] })
    d.cases trivial fun k _ c _ => (records_declare _).mono fun _ _ h => ⟨h, trivial⟩).bind ?_
  rintro _ c₁ ⟨h₁, _⟩
  have h₂ := Context.records_ns (c := c₁) (Namespace.records_define _ _ d) rfl
  have hnotice : (Notice.ofAll (fun k : Case =>
      { symbols := [⟨k.name, d.constructorType k, k.isPublic, false⟩] }) d.cases).append
        { definitions := [d] } = ⟨d.constructors, [d], []⟩ := by
    simp [Notice.ofAll, Notice.append, Definition.constructors, List.map_eq_flatMap]
  exact hnotice ▸ h₁.trans h₂

theorem records_shellOf (n : Node) :
    Yields (shellOf n) c fun _ c' => c.Records (n.shellNotice c.path) c' := by
  cases n with
  | data decl span =>
    exact Context.records_ns (Namespace.records_define _ _ ⟨c.path, decl.name, _, _, []⟩) rfl
  | _ => exact .refl c

theorem records_definitionOf (n : Node) :
    Yields (definitionOf n) c fun _ c' => c.Records (n.dataNotice c.path c.typeScope) c' := by
  cases n with
  | data decl span =>
    unfold definitionOf
    have hread : Yields (definition decl) c fun d c₁ => d = decl.definitionIn c.path c.typeScope ∧
        c.Records { reports := decl.faultsIn c.typeScope } c₁ := by
      rw [Yields, run_definition]
      exact ⟨rfl, c.records_reports _⟩
    refine hread.bind ?_
    rintro _ c₁ ⟨rfl, h₁⟩
    refine (records_define _).mono fun _ c₂ h₂ => ?_
    simpa [Notice.append, Node.dataNotice] using h₁.trans h₂
  | _ => exact .refl c

theorem records_functionOf (n : Node) :
    Yields (functionOf n) c fun _ c' => c.Records (n.functionNotice c.typeScope) c' := by
  cases n with
  | function head body span =>
    rw [Yields, run_functionOf]
    have hread := c.records_reports (head.faultsIn c.typeScope)
    have hdeclared := records_declare (c := c.later c.ns (head.faultsIn c.typeScope)) (c.symbolOf head)
    have hnotice : ({ reports := head.faultsIn c.typeScope } : Notice).append
        { symbols := [c.symbolOf head] } = (Node.function head body span).functionNotice c.typeScope := by
      simp [Notice.append, Node.functionNotice, Context.symbolOf_eq]
    exact hnotice ▸ hread.trans hdeclared
  | _ => exact .refl c

/-- The types of the items are known, and otherwise types are as they were in `c`. -/
structure Shelled (items : List Node) (c c' : Context) : Prop where
  follows : c.Follows (Defines items) c'
  agrees : ∀ names, TypeScope.Agrees names false c.typeScope c'.typeScope
  types : ∀ decl span, .data decl span ∈ items → (c'.ns.definition? c'.path decl.name).map
    Definition.type = some (.generic c'.path decl.name decl.typeParams)

section Items

variable {items : List Node} (hitems : Registrable items c.imports)
include hitems

theorem shelled_of_records {c' : Context}
    (h : c.Records (.ofAll (Node.shellNotice c.path) items) c') : Shelled items c' c' := by
  refine ⟨.refl c', fun _ => ⟨rfl, fun _ _ => rfl, fun _ _ _ _ _ _ _ _ => rfl⟩, ?_⟩
  intro decl span hmem
  let shell : Definition := ⟨c.path, decl.name, decl.typeParams, decl.isPublic, []⟩
  have hshell : shell ∈ (Notice.ofAll (Node.shellNotice c.path) items).definitions :=
    List.mem_flatMap.mpr ⟨_, hmem, List.mem_singleton.mpr rfl⟩
  obtain ⟨ns, rfl, hns⟩ := h
  have hdefinition := hns.definition?_of_mem (hitems.distinct_shells c.path) hshell
  exact congrArg (Option.map Definition.type) hdefinition

/-- A definition does not change how the next ones are read. -/
theorem Shelled.definitionOf {c' : Context} {n : Node} (hc : Shelled items c c') (hn : n ∈ items) :
    Yields (definitionOf n) c' fun _ c'' =>
      c'.Records (n.dataNotice c.path c.typeScope) c'' ∧ Shelled items c c'' := by
  have hnotice : n.dataNotice c'.path c'.typeScope = n.dataNotice c.path c.typeScope := by
    cases n with
    | data decl span =>
      have hagrees (r : TypeRef) (hr : r ∈ decl.typeRefs) :
          TypeScope.Agrees r.names r.selects c.typeScope c'.typeScope := by
        cases hselects : r.selects with
        | false => exact hc.agrees r.names
        | true => exact hc.follows.agrees (hitems.fields decl span hn r hr hselects)
      have heq := decl.definitionIn_eq hagrees c.path
      rw [hc.follows.path, Node.dataNotice, heq.1, heq.2]
      rfl
    | _ => rfl
  refine (records_definitionOf n).mono fun _ c'' h => ?_
  rw [hnotice] at h
  have hdefined : ∀ d ∈ (n.dataNotice c.path c.typeScope).definitions, Defines items d.name ∧
      (c'.ns.definition? c'.path d.name).map Definition.type = some d.type := by
    cases n with
    | data decl span =>
      intro d hd
      obtain rfl := List.mem_singleton.mp hd
      refine ⟨⟨_, hn, List.mem_singleton.mpr rfl⟩, (hc.types decl span hn).trans ?_⟩
      rw [hc.follows.path]
      rfl
    | _ => simp [Node.dataNotice]
  have htypes := fun d hd => (hdefined d hd).2
  refine ⟨h, hc.follows.trans (h.follows fun d hd => (hdefined d hd).1),
    fun names => (hc.agrees names).trans (h.agrees htypes names), ?_⟩
  intro decl span hmem
  rw [h.path_eq, h.map_type_eq htypes, hc.types decl span hmem]

/-- What all items enter when they are registered. -/
theorem records_register : Yields (register items) c fun _ c' => ∃ c₁ c₂,
    c.Records (.ofAll (Node.shellNotice c.path) items) c₁ ∧
      c₁.Records (.ofAll (Node.dataNotice c₁.path c₁.typeScope) items) c₂ ∧
      c₂.Records (.ofAll (Node.functionNotice c₂.typeScope) items) c' := by
  unfold register
  refine (records_forM (Node.shellNotice c.path) (J := fun d => d.path = c.path) items rfl
    ?_).bind fun _ c₁ ⟨h₁, _⟩ => ?_
  · intro n _ d hd
    refine (records_shellOf n).mono fun _ d' h => ?_
    rw [hd] at h
    exact ⟨h, h.path_eq.trans hd⟩
  have hitems₁ : Registrable items c₁.imports := h₁.imports_eq ▸ hitems
  refine (records_forM (J := Shelled items c₁) _ items (shelled_of_records hitems h₁)
    fun n hn d hd => hd.definitionOf hitems₁ hn).bind fun _ c₂ ⟨h₂, _⟩ => ?_
  refine (records_forM (Node.functionNotice c₂.typeScope)
    (J := fun d => d.typeScope = c₂.typeScope) items rfl ?_).mono
    fun _ c₃ ⟨h₃, _⟩ => ⟨c₁, c₂, h₁, h₂, h₃⟩
  intro n _ d hd
  refine (records_functionOf n).mono fun _ d' h => ?_
  rw [hd] at h
  exact ⟨h, (h.typeScope_eq (by cases n <;> rfl)).trans hd⟩

/-- When all is registered, one more declaration of a function changes nothing. -/
theorem symbol?_register {head : FunctionHead} {body : List Node} {span : Span}
    (hn : .function head body span ∈ items) : Yields (register items) c fun _ c' =>
      c'.ns.symbol? c'.path head.name =
        some (Symbol.over (c'.symbolOf head) (c'.ns.symbol? c'.path head.name)) := by
  refine (records_register hitems).mono fun _ c₃ ⟨c₁, c₂, _, _, h₃⟩ => ?_
  have hsymbol : c₃.symbolOf head = head.symbolIn c₂.typeScope := by
    rw [Context.symbolOf_eq, h₃.typeScope_eq (List.flatMap_eq_nil_iff.mpr fun n _ => by cases n <;> rfl)]
  have hmem : head.symbolIn c₂.typeScope ∈
      (Notice.ofAll (Node.functionNotice c₂.typeScope) items).symbols :=
    List.mem_flatMap.mpr ⟨_, hn, List.mem_singleton.mpr rfl⟩
  obtain ⟨ns, rfl, hns⟩ := h₃
  have hdeclared : ns.symbol? c₂.path head.name = _ :=
    hns.symbol?_of_mem (hitems.distinct_functions _) hmem
  change ns.symbol? c₂.path head.name = some (Symbol.over _ (ns.symbol? c₂.path head.name))
  rw [hsymbol, hdeclared]
  exact congrArg some (Symbol.over_over rfl _).symm

/-- Items are registered alike in whatever order they are written. -/
theorem similar_register {o : Outlook} {c' : Context} {items' : List Node} (hp : items'.Perm items)
    (h : c.Similar o c') (hpackage : (c.ns.package? o.path).isSome) :
    ((register items').run c).2.Similar o ((register items).run c').2 := by
  have himports : c'.imports = c.imports := h.twin.imports'.trans h.twin.imports.symm
  obtain ⟨c₁, c₂, h₁, h₂, h₃⟩ := records_register (c := c) (hitems.of_perm hp)
  obtain ⟨c₁', c₂', h₁', h₂', h₃'⟩ := records_register (c := c') (himports ▸ hitems)
  rw [h.twin.path'.trans h.twin.path.symm] at h₁'
  have k₁ := h.records hpackage (hitems.distinct_shells _) (Notice.ofAll_perm _ hp) h₁ h₁'
  rw [k₁.twin.typeScope_eq, k₁.twin.path'.trans k₁.twin.path.symm] at h₂'
  have k₂ := k₁.records (h₁.package hpackage) (hitems.distinct_data _ _) (Notice.ofAll_perm _ hp) h₂ h₂'
  rw [k₂.twin.typeScope_eq] at h₃'
  exact k₂.records (h₂.package (h₁.package hpackage)) (hitems.distinct_functions _)
    (Notice.ofAll_perm _ hp) h₃ h₃'

end Items

end Check

end Tern
