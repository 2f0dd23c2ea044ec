import Tern.Imports
import Tern.Program

/-!
The state in which a unit is checked: the namespace it is compiled into, the program made so far,
what has been reported, and the surroundings of the current expression.
-/

set_option autoImplicit false

namespace Tern

structure Context where
  ns : Namespace
  path : PackagePath
  program : Program
  imports : Imports
  diagnostics : List Diagnostic
  scope : Nat
  /-- What the functions around return, the innermost first. -/
  returnTypes : List Ty
  generics : List String

abbrev Check (α : Type) := StateM Context α

structure Resolved where
  target : Target
  symbol : Symbol

namespace Context

def init (ns : Namespace) (path : PackagePath) : Context :=
  { ns := ns.ensurePackage path, path, program := .init path, imports := {}, diagnostics := []
    scope := ScopeTree.root, returnTypes := [], generics := [] }

def isAtPackageLevel (c : Context) : Bool := c.scope == ScopeTree.root

/-- A type that is imported: a public one, or one of the same module. -/
def importedType? (c : Context) (name : String) : Option Ty :=
  (c.imports.name? name).bind fun i =>
    (c.ns.definition? i.path i.name).bind fun d =>
      if d.isPublic || i.path.module == c.path.module then some d.type else none

/-- The types that a unit knows: those of its own package, and then the imported ones. -/
def typeScope (c : Context) : TypeScope :=
  { generics := c.generics
    lookup := fun name =>
      match c.ns.definition? c.path name with
      | some d => some d.type
      | none => c.importedType? name
    hasCase := c.ns.hasCase }

def packageSymbol? (c : Context) (path : PackagePath) (name : String) : Option Resolved :=
  (c.ns.symbol? path name).map fun s => ⟨.package path s.name, s⟩

/-- A name that no scope of the unit declares: an imported one, one of the package, or one of the
built-in ones. -/
def resolveOutside (c : Context) (name : String) : Option Resolved :=
  match (c.imports.name? name).bind fun i => c.packageSymbol? i.path i.name with
  | some r => some r
  | none =>
    match c.packageSymbol? c.path name with
    | some r => some r
    | none => c.packageSymbol? Namespace.preludePath name

def resolveName (c : Context) (name : String) : Option Resolved :=
  match c.program.scopes.lookup c.scope name with
  | some (scope, s) => some ⟨.nested scope name, s⟩
  | none => c.resolveOutside name

/-- A name in a certain package, which has to be public in another module. -/
def resolveIn (c : Context) (path : PackagePath) (name : String) : Option Resolved :=
  (c.packageSymbol? path name).bind fun r =>
    if path == c.path || r.symbol.isPublic || path.module == c.path.module then some r else none

/-- A name in a package that is bound to the name `package`. -/
def resolveQualified (c : Context) (package name : String) : Option Resolved :=
  (c.imports.package? package).bind fun path => c.resolveIn path name

/-- The name stands for a package and not for a value. -/
def namesPackage (c : Context) (name : String) : Bool :=
  (c.imports.package? name).isSome && (c.resolveName name).isNone

def fieldType? (c : Context) (head : VariantHead) (args : List Ty) (field : String) : Option Ty :=
  (c.ns.definitionOf? head).bind fun d => d.fieldType? head args field

end Context

namespace Check

def report (problem : Problem) (span : Span) : Check Unit :=
  modify fun c => { c with diagnostics := c.diagnostics ++ [⟨problem, span⟩] }

def alloc (e : Expr) (t : Ty) : Check Nat :=
  modifyGet fun c => (c.program.exprs.size, { c with program := c.program.alloc e t })

def error (span : Span) : Check Nat := alloc (.error span) .any

def typeOf (id : Nat) : Check Ty := do return (← get).program.type id

def spanOf (id : Nat) : Check Span := do return (← get).program.span id

def modifyScopes (f : ScopeTree → ScopeTree) : Check Unit :=
  modify fun c => { c with program := { c.program with scopes := f c.program.scopes } }

def modifyNamespace (f : Namespace → Namespace) : Check Unit :=
  modify fun c => { c with ns := f c.ns }

/-- Runs a step in a new scope inside the current one. -/
def inScope {α : Type} (kind : ScopeKind) (step : Nat → Check α) : Check α := do
  let outer := (← get).scope
  let inner := (← get).program.scopes.size
  modifyScopes fun t => t.createChild outer kind
  modify fun c => { c with scope := inner }
  let a ← step inner
  modify fun c => { c with scope := outer }
  return a

/-- Runs a step in a function that returns the given type. -/
def returning {α : Type} (t : Ty) (step : Check α) : Check α := do
  let outer := (← get).returnTypes
  modify fun c => { c with returnTypes := t :: outer }
  let a ← step
  modify fun c => { c with returnTypes := outer }
  return a

/-- Runs a step with more type parameters in scope. -/
def withGenerics {α : Type} (names : List String) (step : Check α) : Check α := do
  let outer := (← get).generics
  modify fun c => { c with generics := outer ++ names }
  let a ← step
  modify fun c => { c with generics := outer }
  return a

/-- The type that is written, or `any` if it does not resolve. -/
def resolveType (reports : Bool) (r : TypeRef) : Check Ty := do
  match (← get).typeScope.resolve r with
  | .ok t => return t
  | .error e =>
    if reports then
      let d := Diagnostic.ofTypeRefError e
      report d.problem d.span
    return .any

def read (r : Resolved) (span : Span) : Check Nat := do
  let scope := (← get).scope
  alloc (.read ⟨r.target, scope, span⟩) r.symbol.type

end Check

end Tern
