import Tern.Check.Rules
import Tern.Proofs.Blame
import Tern.Proofs.Namespace
import Tern.Proofs.Place

/-!
What checking can do to a context. `Built` says it once for all nodes: expressions are made after
their parts, a scope is open only for what stands in it, and nothing is taken back. All that holds
of every checked unit is proved by induction on `Built`.
-/

set_option autoImplicit false

namespace Tern

def ExprPart.ids : ExprPart → List Nat
  | text _ => []
  | expr id => [id]

namespace Expr

/-- The numbers of the parts, in order. -/
def parts : Expr → List Nat
  | literal _ _ | read _ | defineData _ _ | error _ => []
  | interpolation ps _ => ps.flatMap ExprPart.ids
  | defineFunction _ v _ | defineVariable _ v _ | defineLocal _ _ _ v _ | assign _ v _
  | function _ _ _ v _ | field v _ _ | unary _ v _ | test v _ _ => [v]
  | assignIndex r i v _ => [r, i, v]
  | block _ body _ => body
  | call callee args _ => callee :: args
  | index r i _ => [r, i]
  | binary _ l r _ => [l, r]
  | branch c t e _ => c :: t :: e.toList
  | loop c body _ => [c, body]
  | ret v _ => v.toList
  | array es _ => es

/-- The expression has no scope of its own, declares no local name and is no error. -/
def IsSimple : Expr → Prop
  | defineLocal _ _ _ _ _ | function _ _ _ _ _ | block _ _ _ | error _ => False
  | _ => True

end Expr

/-- What is returned fits the type. -/
def Program.Gives (p : Program) (t : Ty) : Option Nat → Prop
  | some v => t.isAssignable (p.type v)
  | none => t.isUnit ∨ t.isAny

def ScopeTree.addParameters (t : ScopeTree) (id : Nat) (ps : List TypedParam) : ScopeTree :=
  ps.foldl (fun t p => t.addParameter id p.name p.type) t

namespace Context

/-! The single changes -/

def alloc (c : Context) (e : Expr) (t : Ty) : Context := { c with program := c.program.alloc e t }

/-- More in the namespace, and more reports. -/
def later (c : Context) (ns : Namespace) (ds : List Diagnostic) : Context :=
  { c with ns, diagnostics := c.diagnostics ++ ds }

def declareLocal (c : Context) (s : Symbol) : Context :=
  { c with program := { c.program with scopes := c.program.scopes.addSymbol c.scope s } }

/-- In a new scope, the last one of the tree. -/
def inside (c : Context) (t : ScopeTree) (returnTypes : List Ty) : Context :=
  { c with program := { c.program with scopes := t }, scope := c.program.scopes.size, returnTypes }

/-- Out of a new scope again. -/
def leave (c c' : Context) : Context := { c' with scope := c.scope, returnTypes := c.returnTypes }

/-- In a new scope. -/
def enter (c : Context) (kind : ScopeKind) : Context :=
  c.inside (c.program.scopes.createChild c.scope kind) c.returnTypes

/-- In the scope of a new function. -/
def enterFunction (c : Context) (ps : List TypedParam) (ret : Ty) : Context :=
  c.inside ((c.program.scopes.createChild c.scope .function).addParameters c.program.scopes.size ps)
    (ret :: c.returnTypes)

/-- Out of a new function again, with its body made. -/
def leaveFunction (c : Context) (ids : List Nat) (span : Span) (t : Ty) (c' : Context) : Context :=
  c.leave (c'.alloc (.block (c.program.scopes.size + 1) ids span) t)

/-- A symbol of a package that may be used here: one of the same module, a built-in one, a public
one, or an imported one. -/
def Shows (c : Context) (path : PackagePath) (name : String) (s : Symbol) : Prop :=
  path.module = c.path.module ∨ path = Namespace.preludePath ∨ s.isPublic ∨
    ∃ x, c.imports.name? x = some ⟨path, name⟩

/-- What a name refers to is there. -/
def Reaches (c : Context) : Target → Prop
  | .package path name => ∃ s, c.ns.symbol? path name = some s ∧ c.Shows path name s
  | .nested declaring name => c.program.scopes.Sees c.scope declaring name

/-- A use of a variable that is made here. -/
structure Sees (c : Context) (a : Access) : Prop where
  scope : a.scope = c.scope
  target : c.Reaches a.target

/-- A context after something was checked in it. -/
structure Grows (c c' : Context) : Prop where
  path : c'.path = c.path
  imports : c'.imports = c.imports
  scope : c'.scope = c.scope
  returnTypes : c'.returnTypes = c.returnTypes
  generics : c'.generics = c.generics
  home : c'.program.path = c.program.path
  items : c'.program.items = c.program.items
  ns : c.ns.Grows c.path c'.ns
  diagnostics : c.diagnostics <+: c'.diagnostics
  exprs : ∀ (i : Nat) (e : TypedExpr), c.program.exprs[i]? = some e → c'.program.exprs[i]? = some e
  scopes : c.program.scopes.Grows c.scope c'.program.scopes

end Context

/-- What checking may do besides making expressions. -/
structure Permit where
  /-- Names that may be reported as unrecognized. -/
  unknown : String → Prop
  /-- Names that may be declared in the package. -/
  declares : String → Prop
  /-- Types that may be defined in the package. -/
  defines : String → Prop
  /-- The places of functions whose result may be inferred. -/
  infers : Span → Prop
  /-- Names of fields that may be read. -/
  selects : String → Prop

namespace Permit

def all : Permit :=
  ⟨fun _ => True, fun _ => True, fun _ => True, fun _ => True, fun _ => True⟩

/-- What the node itself does, apart from the nodes inside it, is permitted. -/
def Covers (permit : Permit) : Node → Prop
  | .data decl _ => permit.defines decl.name ∧ ∀ x ∈ decl.cases.map CaseDecl.name, permit.declares x
  | .lambda _ none _ span => permit.infers span
  | .member _ x _ _ => permit.selects x
  | _ => True

theorem covers_all (n : Node) : all.Covers n := by
  unfold Covers
  split <;> simp [all]

/-- The problem may be reported. -/
def Allows (permit : Permit) (problem : Problem) : Prop :=
  problem.SparesAny ∧ ∀ x, problem = .unrecognizedName x → permit.unknown x

/-- What is known of an expression that is made here: a `return` fits the function around, or there
is a report; and the receiver of a field has it. -/
def Warrants (permit : Permit) (c : Context) : Expr → Prop
  | .ret v _ =>
    c.diagnostics ≠ [] ∨ ∃ t, c.returnTypes.head? = some t ∧ c.program.Gives t v
  | .field r x _ => permit.selects x ∧ (Check.memberType? c x (c.program.type r)).isSome
  | _ => True

/-- The result of a function that was checked against `ret` is `ret'`: the declared one, which the
body fits, or else the type of the body. -/
def Results (permit : Permit) (c : Context) (ret ret' bodyType : Ty) (span : Span) : Prop :=
  (ret' = ret ∧ (c.diagnostics ≠ [] ∨ ret.isUnit ∨ ret.isAssignable bodyType)) ∨
    (ret = .any ∧ ret' = bodyType ∧ permit.infers span)

end Permit

/-- From the context `c`, checking makes expressions with the numbers `ids` that are not yet parts of
others, and ends in the context `c'`; all else that it does is permitted. If `strict` holds, local
names are declared by statements only. -/
inductive Built (permit : Permit) (strict : Bool) :
    Place → Context → List Nat → Context → Prop
  | nil (p : Place) (c : Context) : Built permit strict p c [] c
  | append {p : Place} {c₁ c₂ c₃ : Context} {is js : List Nat}
      (h : Built permit strict p c₁ is c₂) (k : Built permit strict p c₂ js c₃) :
      Built permit strict p c₁ (is ++ js) c₃
  | later (p : Place) {c : Context} {ns : Namespace} {ds : List Diagnostic}
      (hns : c.ns.Alters c.path permit.declares permit.defines ns)
      (hds : ∀ d ∈ ds, permit.Allows d.problem) :
      Built permit strict p c [] (c.later ns ds)
  | node (p : Place) {c c' : Context} {ids : List Nat} {e : Expr} (t : Ty)
      (h : Built permit strict .part c ids c') (he : e.IsSimple) (hp : e.parts.Perm ids)
      (ha : ∀ a, e.access? = some a → c'.Sees a) (hw : permit.Warrants c' e) :
      Built permit strict p c [c'.program.exprs.size] (c'.alloc e t)
  /-- What failed is not used any more, and there is a report. -/
  | error (p : Place) {c c' : Context} {ids : List Nat} (span : Span)
      (h : Built permit strict .part c ids c') (hd : c'.diagnostics ≠ []) :
      Built permit strict p c [c'.program.exprs.size] (c'.alloc (.error span) .any)
  | variableDecl {c c' : Context} {v : Nat} (s : Symbol) (span : Span)
      (h : Built permit strict .part c [v] c') :
      Built permit strict .statement c [c'.program.exprs.size]
        ((c'.declareLocal s).alloc (.defineLocal c'.scope s.name s.isMutable v span) .unit)
  | localFunction {c c' : Context} {v : Nat} (s : Symbol) (isMutable : Bool) (span : Span)
      (h : Built permit strict .part (c.declareLocal s) [v] c') :
      Built permit strict .statement c [c'.program.exprs.size]
        (c'.alloc (.defineLocal c.scope s.name isMutable v span) .unit)
  | block (p : Place) {c c' : Context} {ids : List Nat} (span : Span) (t : Ty)
      (h : Built permit strict .statement (c.enter .block) ids c') :
      Built permit strict p c [c'.program.exprs.size]
        ((c.leave c').alloc (.block c.program.scopes.size ids span) t)
  /-- The body of a function is a block. -/
  | function (p : Place) {c c₁ c₂ : Context} {ids : List Nat} (ps : List TypedParam)
      (ret ret' : Ty) (bodySpan span : Span) (bodyType t : Ty)
      (h : Built permit strict .statement ((c.enterFunction ps ret).enter .block) ids c₁)
      (k : Built permit strict .part (c.leaveFunction ids bodySpan bodyType c₁) [] c₂)
      (hr : permit.Results c₂ ret ret' bodyType span) :
      Built permit strict p c [c₂.program.exprs.size]
        (c₂.alloc (.function c.program.scopes.size ps ret' c₁.program.exprs.size span) t)
  | generics {p : Place} {c c' : Context} {ids : List Nat} (names : List String)
      (h : Built permit strict p { c with generics := c.generics ++ names } ids c') :
      Built permit strict p c ids { c' with generics := c.generics }
  | statement {c c' : Context} {ids : List Nat} (h : Built permit strict .part c ids c') :
      Built permit strict .statement c ids c'
  | anywhere {c c' : Context} {ids : List Nat} (hs : strict = false)
      (h : Built permit strict .statement c ids c') : Built permit strict .part c ids c'

namespace ScopeTree

theorem addParameter_other (t : ScopeTree) {id other : Nat} (name : String) (type : Ty)
    (hne : other ≠ id) : (t.addParameter id name type).scope? other = t.scope? other :=
  scope?_modify_of_ne t _ hne

theorem size_addParameters (t : ScopeTree) (id : Nat) (ps : List TypedParam) :
    (t.addParameters id ps).size = t.size := by
  induction ps generalizing t with
  | nil => rfl
  | cons p ps ih => exact (ih _).trans (size_modify _ _ _)

theorem addParameters_other (t : ScopeTree) {id other : Nat} (ps : List TypedParam)
    (hne : other ≠ id) : (t.addParameters id ps).scope? other = t.scope? other := by
  induction ps generalizing t with
  | nil => rfl
  | cons p ps ih => exact (ih _).trans (addParameter_other t p.name p.type hne)

/-- The older scopes in the tree of a new function. -/
theorem extends_addParameters (t : ScopeTree) (parent : Nat) (kind : ScopeKind)
    (ps : List TypedParam) :
    t.Extends ((t.createChild parent kind).addParameters t.size ps) := by
  intro id s hs
  have hlt := lt_size_of_scope? hs
  rw [addParameters_other _ ps (by omega)]
  exact extends_createChild t parent kind id s hs

/-- The scope of a new function has its parameters and declares nothing else. -/
theorem scope?_addParameters_self {t : ScopeTree} {id : Nat} {s : Scope} (ps : List TypedParam)
    (h : t.scope? id = some s) :
    ∃ s', (t.addParameters id ps).scope? id = some s' ∧ s'.parent = s.parent ∧ s'.kind = s.kind ∧
      s'.parameters = s.parameters ++ ps.map TypedParam.name ∧
      ∀ x, s'.Declares x ↔ x ∈ ps.map TypedParam.name ∨ s.Declares x := by
  induction ps generalizing t s with
  | nil => exact ⟨s, h, rfl, rfl, by simp, by simp⟩
  | cons p ps ih =>
    have hp : (t.addParameter id p.name p.type).scope? id =
        some { s with
          parameters := s.parameters ++ [p.name]
          symbols := Symbol.declare ⟨p.name, p.type, false, false⟩ s.symbols } := by
      rw [addParameter, scope?_modify_self, h]
      rfl
    obtain ⟨s', hs', hparent, hkind, hparams, hdecl⟩ := ih hp
    refine ⟨s', hs', hparent, hkind, by simp [hparams], ?_⟩
    intro x
    rw [hdecl, Scope.Declares, Symbol.find?_declare_iff, List.map_cons, List.mem_cons, Scope.Declares,
      or_left_comm, or_assoc]

/-- The way outwards from a new scope. -/
theorem Extends.ancestors_new {t t' : ScopeTree} {current : Nat} {s : Scope} (h : t.Extends t')
    (hs : t'.scope? t.size = some s) (hp : s.parent = some current) (hc : current < t.size) :
    t'.ancestors t.size = t.size :: t.ancestors current := by
  rw [ancestors_eq t' hs, hp]
  simp only [hc, if_true, h.refines.ancestors_eq hc]

end ScopeTree

namespace Context

variable {c c' c'' : Context}

theorem Grows.refl (c : Context) : c.Grows c where
  path := rfl
  imports := rfl
  scope := rfl
  returnTypes := rfl
  generics := rfl
  home := rfl
  items := rfl
  ns := .refl _ _
  diagnostics := List.prefix_refl _
  exprs := fun _ _ h => h
  scopes := .refl _ _

theorem Grows.trans (h : c.Grows c') (k : c'.Grows c'') : c.Grows c'' where
  path := k.path.trans h.path
  imports := k.imports.trans h.imports
  scope := k.scope.trans h.scope
  returnTypes := k.returnTypes.trans h.returnTypes
  generics := k.generics.trans h.generics
  home := k.home.trans h.home
  items := k.items.trans h.items
  ns := h.ns.trans (h.path ▸ k.ns)
  diagnostics := h.diagnostics.trans k.diagnostics
  exprs := fun i e he => k.exprs i e (h.exprs i e he)
  scopes := h.scopes.trans (h.scope ▸ k.scopes)

theorem Grows.size_le (h : c.Grows c') : c.program.exprs.size ≤ c'.program.exprs.size := by
  refine Nat.le_of_not_lt fun hlt => ?_
  have he := h.exprs _ _ (Array.getElem?_eq_getElem hlt)
  rw [Array.getElem?_eq_none (Nat.le_refl _)] at he
  simp at he

theorem Grows.placed (h : c.Grows c') (hc : c.scope < c.program.scopes.size) :
    c'.scope < c'.program.scopes.size :=
  h.scope ▸ Nat.lt_of_lt_of_le hc h.scopes.refines.size_le

theorem grows_later {ns : Namespace} (hns : c.ns.Grows c.path ns) (ds : List Diagnostic) :
    c.Grows (c.later ns ds) :=
  { Grows.refl c with ns := hns, diagnostics := List.prefix_append _ _ }

theorem exprs_alloc {i : Nat} {x : TypedExpr} (e : Expr) (t : Ty)
    (h : c.program.exprs[i]? = some x) : (c.alloc e t).program.exprs[i]? = some x := by
  have hlt := (Array.getElem?_eq_some_iff.mp h).1
  simp only [alloc, Program.alloc]
  rw [Array.getElem?_push_lt hlt, ← h, Array.getElem?_eq_getElem hlt]

theorem type_alloc_self (c : Context) (e : Expr) (t : Ty) :
    (c.alloc e t).program.type c.program.exprs.size = t := by
  simp [alloc, Program.alloc, Program.type]

theorem grows_alloc (c : Context) (e : Expr) (t : Ty) : c.Grows (c.alloc e t) :=
  { Grows.refl c with exprs := fun _ _ h => exprs_alloc e t h }

theorem grows_declareLocal (c : Context) (s : Symbol) : c.Grows (c.declareLocal s) :=
  { Grows.refl c with scopes := ScopeTree.grows_addSymbol _ _ s }

/-- Back from a new scope, the scopes around are as they were. -/
theorem Grows.extends {t : ScopeTree} {returnTypes : List Ty} (h : (c.inside t returnTypes).Grows c')
    (ht : c.program.scopes.Extends t) : c.program.scopes.Extends c'.program.scopes :=
  ht.trans_grows h.scopes (Nat.le_refl _)

theorem Grows.leave {t : ScopeTree} {returnTypes : List Ty} (h : (c.inside t returnTypes).Grows c')
    (ht : c.program.scopes.Extends t) : c.Grows (c.leave c') :=
  { h with
    scope := rfl
    returnTypes := rfl
    scopes := (h.extends ht).grows c.scope }

theorem Grows.leaveBlock (h : (c.enter .block).Grows c') : c.Grows (c.leave c') :=
  h.leave (ScopeTree.extends_createChild _ _ _)

theorem Grows.leaveFunction {ps : List TypedParam} {ret : Ty} {ids : List Nat} (span : Span) (t : Ty)
    (h : ((c.enterFunction ps ret).enter .block).Grows c') :
    c.Grows (c.leaveFunction ids span t c') := by
  have hbody := h.leaveBlock.trans (grows_alloc _ (.block (c.program.scopes.size + 1) ids span) t)
  exact hbody.leave (ScopeTree.extends_addParameters _ _ _ ps)

end Context

namespace Built

variable {permit : Permit} {strict : Bool} {p : Place} {c c' : Context} {ids : List Nat}

/-- Whatever is checked leaves the surroundings as they were and takes nothing away. -/
theorem grows (h : Built permit strict p c ids c') : c.Grows c' := by
  induction h with
  | nil p c => exact .refl c
  | append _ _ ih ik => exact ih.trans ik
  | later p hns _ => exact Context.grows_later hns.toGrows _
  | node p t _ _ _ _ _ ih => exact ih.trans (Context.grows_alloc _ _ t)
  | error p span _ _ ih => exact ih.trans (Context.grows_alloc _ _ _)
  | variableDecl s span _ ih =>
    exact (ih.trans (Context.grows_declareLocal _ s)).trans (Context.grows_alloc _ _ _)
  | localFunction s m span _ ih =>
    exact ((Context.grows_declareLocal _ s).trans ih).trans (Context.grows_alloc _ _ _)
  | block p span t _ ih => exact ih.leaveBlock.trans (Context.grows_alloc _ _ t)
  | function p ps ret ret' bodySpan span bodyType t _ _ _ ih ik =>
    exact ((ih.leaveFunction bodySpan bodyType).trans ik).trans (Context.grows_alloc _ _ t)
  | generics names _ ih => exact { ih with generics := rfl }
  | statement _ ih => exact ih
  | anywhere _ _ ih => exact ih

/-- In the package only what is permitted has changed. -/
theorem alters (h : Built permit strict p c ids c') :
    c.ns.Alters c.path permit.declares permit.defines c'.ns := by
  induction h with
  | nil p c => exact .refl _
  | append h _ ih ik => exact ih.trans (h.grows.path ▸ ik)
  | later p hns _ => exact hns
  | node p t _ _ _ _ _ ih => exact ih
  | error p span _ _ ih => exact ih
  | variableDecl s span _ ih => exact ih
  | localFunction s m span _ ih => exact ih
  | block p span t _ ih => exact ih
  | function p ps ret ret' bodySpan span bodyType t h _ _ ih ik =>
    exact ih.trans ((h.grows.leaveFunction bodySpan bodyType).path ▸ ik)
  | generics names _ ih => exact ih
  | statement _ ih => exact ih
  | anywhere _ _ ih => exact ih

/-- There are more reports, all of them allowed. -/
theorem allows (h : Built permit strict p c ids c') :
    ∃ ds, c'.diagnostics = c.diagnostics ++ ds ∧ ∀ d ∈ ds, permit.Allows d.problem := by
  have htrans {c₁ c₂ c₃ : Context}
      (h₁ : ∃ ds, c₂.diagnostics = c₁.diagnostics ++ ds ∧ ∀ d ∈ ds, permit.Allows d.problem)
      (h₂ : ∃ ds, c₃.diagnostics = c₂.diagnostics ++ ds ∧ ∀ d ∈ ds, permit.Allows d.problem) :
      ∃ ds, c₃.diagnostics = c₁.diagnostics ++ ds ∧ ∀ d ∈ ds, permit.Allows d.problem := by
    obtain ⟨ds, heq, hds⟩ := h₁
    obtain ⟨ds', heq', hds'⟩ := h₂
    exact ⟨ds ++ ds', by rw [heq', heq, List.append_assoc], List.forall_mem_append.mpr ⟨hds, hds'⟩⟩
  induction h with
  | nil => exact ⟨[], by simp, by simp⟩
  | append _ _ ih ik => exact htrans ih ik
  | later p _ hds => exact ⟨_, rfl, hds⟩
  | node p t _ _ _ _ _ ih => exact ih
  | error p span _ _ ih => exact ih
  | variableDecl s span _ ih => exact ih
  | localFunction s m span _ ih => exact ih
  | block p span t _ ih => exact ih
  | function p ps ret ret' bodySpan span bodyType t _ _ _ ih ik => exact htrans ih ik
  | generics names _ ih => exact ih
  | statement _ ih => exact ih
  | anywhere _ _ ih => exact ih

/-- What is no statement declares nothing in the scopes around it. -/
theorem extends_of_strict (h : Built permit strict p c ids c') (hs : strict = true) (hp : p = .part) :
    c.program.scopes.Extends c'.program.scopes := by
  induction h with
  | nil => exact .refl _
  | append _ _ ih ik => exact (ih hp).trans (ik hp)
  | later => exact .refl _
  | node p t _ _ _ _ _ ih => exact ih rfl
  | error p span _ _ ih => exact ih rfl
  | variableDecl => cases hp
  | localFunction => cases hp
  | block p span t h _ => exact h.grows.extends (ScopeTree.extends_createChild _ _ _)
  | function p ps ret ret' bodySpan span bodyType t h _ _ _ ik =>
    have hbody := h.grows.leaveBlock.extends (ScopeTree.extends_addParameters _ _ _ ps)
    exact hbody.trans (ik rfl)
  | generics names _ ih => exact ih hp
  | statement => cases hp
  | anywhere hloose => simp [hs] at hloose

end Built

end Tern
