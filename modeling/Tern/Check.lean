import Tern.Check.Expr
import Tern.Order

/-!
Checking a whole unit. Its declarations are registered, and its items are checked in an order in
which nothing is used before it is declared.
-/

set_option autoImplicit false

namespace Tern

/-- What was registered is no longer there. -/
inductive CheckFault
  | missingFunction (path : PackagePath) (name : String)
  | missingData (path : PackagePath) (name : String)
  deriving DecidableEq, Repr

def CheckFault.message : CheckFault → String
  | missingFunction path name =>
    "function `" ++ path.text ++ "." ++ name ++ "` was not registered before conversion"
  | missingData path name =>
    "variant type `" ++ path.text ++ "." ++ name ++ "` was not registered before conversion"

namespace Check

/-- A function of the package. What is wrong with its signature was reported when it was
registered. -/
def packageFunction (head : FunctionHead) (body : List Node) (span : Span) :
    Check (Except CheckFault Nat) := do
  let c ← get
  if (c.ns.symbol? c.path head.name).isNone then
    return .error (.missingFunction c.path head.name)
  else
    let (ps, ret) ← signature false head
    declare ⟨head.name, functionType ps ret, head.isPublic, false⟩
    let value ← withGenerics head.typeParams
      (function ps (some ret) (exprs body) (lastSpan body span) span)
    let item : PackageItem := ⟨c.path, head.name, head.isPublic, false⟩
    return .ok (← alloc (.defineFunction item value span) .unit)

def packageData (decl : DataDecl) (span : Span) : Check (Except CheckFault Nat) := do
  let c ← get
  match c.ns.definition? c.path decl.name with
  | some d => return .ok (← alloc (.defineData d span) .unit)
  | none => return .error (.missingData c.path decl.name)

def item : Node → Check (Except CheckFault Nat)
  | .function head body span => packageFunction head body span
  | .data decl span => packageData decl span
  | other => do return .ok (← expr other)

/-- Checks items one after the other and puts them into the program. -/
def items : List Node → Check (Except CheckFault Unit)
  | [] => return .ok ()
  | n :: ns => do
    match ← item n with
    | .error fault => return .error fault
    | .ok id =>
      modify fun c => { c with program := { c.program with items := c.program.items ++ [id] } }
      items ns

def reportCycle (cycle : Cycle) : Check Unit :=
  report (.cyclicDeclaration cycle.names) cycle.span

def setImports (decls : List ImportDecl) : Check Unit :=
  modify fun c =>
    let (imports, diagnostics) := Imports.ofDecls c.ns c.path.module decls
    { c with imports, diagnostics := c.diagnostics ++ diagnostics }

def unit (u : SourceUnit) : Check (Except CheckFault Unit) := do
  setImports u.imports
  let order := Order.ofItems u.items
  order.cycles.forM reportCycle
  register u.items
  items (order.order.filterMap fun i => u.items[i]?)

end Check

/-- The package of a unit: the one it names, or the given one. -/
def SourceUnit.path (u : SourceUnit) (default : PackagePath) : PackagePath :=
  (u.package.map PackageDecl.path).getD default

/-- Checks a unit in a namespace. The context at the end holds the program, the reports and the
namespace with the declarations of the unit. -/
def SourceUnit.check (u : SourceUnit) (ns : Namespace) (default : PackagePath) :
    Except CheckFault Unit × Context :=
  (Check.unit u).run (Context.init ns (u.path default))

end Tern
