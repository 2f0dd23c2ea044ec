import Tern.Check
import Tern.Proofs.Check.Built

/-!
Checking with surroundings that are pushed and popped. Entering a scope makes it the current one, and
leaving it goes out to its parent, whatever scope is current; the types that functions return and the
type parameters in scope are stacks. All else is done as in `Tern.Check`.
-/

set_option autoImplicit false

namespace Tern.Check

/-- Opens a scope inside the current one. -/
def enterScope (kind : ScopeKind) : Check Nat :=
  modifyGet fun c => (c.program.scopes.size, c.enter kind)

/-- Goes out to the scope around the current one. -/
def exitScope : Check Unit :=
  modify fun c =>
    match c.program.scopes.parent? c.scope with
    | some outer => { c with scope := outer }
    | none => c

def pushReturnType (t : Ty) : Check Unit :=
  modify fun c => { c with returnTypes := t :: c.returnTypes }

def popReturnType : Check Unit :=
  modify fun c => { c with returnTypes := c.returnTypes.tail }

/-- Adds type parameters and gives the number of those before. -/
def pushGenerics (names : List String) : Check Nat :=
  modifyGet fun c => (c.generics.length, { c with generics := c.generics ++ names })

/-- Drops the type parameters behind the first ones. -/
def popGenerics (mark : Nat) : Check Unit :=
  modify fun c => { c with generics := c.generics.take mark }

/-! The surroundings of a step, pushed before and popped behind it -/

def pushedScope {α : Type} (kind : ScopeKind) (step : Nat → Check α) : Check α := do
  let scope ← enterScope kind
  let a ← step scope
  exitScope
  return a

def pushedReturn {α : Type} (t : Ty) (step : Check α) : Check α := do
  pushReturnType t
  let a ← step
  popReturnType
  return a

def pushedGenerics {α : Type} (names : List String) (step : Check α) : Check α := do
  let mark ← pushGenerics names
  let a ← step
  popGenerics mark
  return a

/-- As `block`, with a scope that is entered and left. -/
def pushedBlock (body : Check (List Nat)) (span : Span) : Check Nat := do
  let (scope, ids) ← pushedScope .block fun scope => do return (scope, ← body)
  let type ← match ids.getLast? with
    | some id => typeOf id
    | none => pure .unit
  alloc (.block scope ids span) type

/-- As `function`, with a scope that is entered and left, and a result that is pushed and popped. -/
def pushedFunction (ps : List TypedParam) (ret? : Option Ty) (body : Check (List Nat))
    (lastSpan span : Span) : Check Nat := do
  let (scope, bodyId) ← pushedScope .function fun scope => do
    ps.forM fun p => modifyScopes fun t => t.addParameter scope p.name p.type
    return (scope, ← pushedReturn (ret?.getD .any) (pushedBlock body span))
  let bodyType ← typeOf bodyId
  let ret ← match ret? with
    | some ret => do
      functionResult ret bodyType lastSpan span
      pure ret
    | none => pure bodyType
  alloc (.function scope ps ret bodyId span) (functionType ps ret)

/-- As `signature`, with type parameters that are pushed and popped. -/
def pushedSignature (reports : Bool) (head : FunctionHead) : Check (List TypedParam × Ty) :=
  pushedGenerics head.typeParams do
    let ps ← params reports head.params
    let ret ← optionalType reports head.returnType
    return (ps, ret.getD .unit)

/-- As `definition`, with type parameters that are pushed and popped. -/
def pushedDefinition (decl : DataDecl) : Check Definition := do
  let cs ← pushedGenerics decl.typeParams (cases decl.isPublic decl.cases)
  return ⟨(← get).path, decl.name, decl.typeParams, decl.isPublic, cs⟩

/-- As `localFunction`, with type parameters that are pushed and popped. -/
def pushedLocalFunction (head : FunctionHead) (body : Check (List Nat)) (lastSpan span : Span) :
    Check Nat := do
  let (ps, ret) ← pushedSignature true head
  let scope := (← get).scope
  modifyScopes fun t => t.addSymbol scope ⟨head.name, functionType ps ret, false, false⟩
  let value ← pushedGenerics head.typeParams (pushedFunction ps (some ret) body lastSpan span)
  alloc (.defineLocal scope head.name false value span) .unit

def pushedLambda (ps : List Param) (ret : Option TypeRef) (body : Check (List Nat))
    (lastSpan span : Span) : Check Nat := do
  let ps ← params true ps
  let ret ← optionalType true ret
  pushedFunction ps ret body lastSpan span

def pushedNestedData (decl : DataDecl) (span : Span) : Check Nat := do
  let d ← pushedDefinition decl
  define d
  alloc (.defineData d span) .unit

mutual
/-- As `expr`, with surroundings that are pushed and popped at every level. -/
def pushedExpr : Node → Check Nat
  | .literal value span => alloc (.literal value span) value.type
  | .interpolation parts span => do
    let parts ← pushedExprParts parts
    alloc (.interpolation parts span) .string
  | .name x span => name x span
  | .qualified path x nameSpan span => qualifiedName path x nameSpan span
  | .define head value span => variableDecl head (pushedExpr value) span
  | .function head body span =>
    pushedLocalFunction head (pushedExprs body) (lastSpan body span) span
  | .data decl span => pushedNestedData decl span
  | .lambda ps ret body span => pushedLambda ps ret (pushedExprs body) (lastSpan body span) span
  | .block body span => pushedBlock (pushedExprs body) span
  | .call (.member receiver method methodSpan _) args span =>
    methodCall receiver (pushedExpr receiver) method methodSpan (pushedExprs args) span
  | .call callee args span => do
    let id ← pushedExpr callee
    let args ← pushedExprs args
    call (calleeName callee) id args span
  | .member receiver x memberSpan span => member receiver (pushedExpr receiver) x memberSpan span
  | .index receiver i span => do
    let receiver ← pushedExpr receiver
    let i ← pushedExpr i
    index receiver i span
  | .assign x nameSpan value span => assignment x nameSpan (pushedExpr value) span
  | .assignIndex receiver i value span => do
    let receiver ← pushedExpr receiver
    let i ← pushedExpr i
    let value ← pushedExpr value
    assignIndex receiver i value span
  | .binary op left right span => do
    let left ← pushedExpr left
    let right ← pushedExpr right
    binary op left right span
  | .unary op operand span => do
    let operand ← pushedExpr operand
    unary op operand span
  | .branch condition thenBranch elseBranch span =>
    branch (pushedExpr condition) (pushedExpr thenBranch) (pushedExprOption elseBranch) span
  | .loop condition body span => loop (pushedExpr condition) (pushedExpr body) span
  | .ret value span => do
    let value ← pushedExprOption value
    ret value span
  | .test value case span => do
    let value ← pushedExpr value
    caseTest value case span
  | .array elements span => do
    let elements ← pushedExprs elements
    array elements span
def pushedExprs : List Node → Check (List Nat)
  | [] => pure []
  | n :: ns => do
    let id ← pushedExpr n
    let ids ← pushedExprs ns
    return id :: ids
def pushedExprOption : Option Node → Check (Option Nat)
  | none => pure none
  | some n => do return some (← pushedExpr n)
def pushedExprParts : List Part → Check (List ExprPart)
  | [] => pure []
  | .text s :: ps => do
    let parts ← pushedExprParts ps
    return .text s :: parts
  | .expr n :: ps => do
    let id ← pushedExpr n
    let parts ← pushedExprParts ps
    return .expr id :: parts
end

/-! Items and units -/

def pushedPackageFunction (head : FunctionHead) (body : List Node) (span : Span) :
    Check (Except CheckFault Nat) := do
  let c ← get
  if (c.ns.symbol? c.path head.name).isNone then
    return .error (.missingFunction c.path head.name)
  else
    let (ps, ret) ← pushedSignature false head
    declare ⟨head.name, functionType ps ret, head.isPublic, false⟩
    let value ← pushedGenerics head.typeParams
      (pushedFunction ps (some ret) (pushedExprs body) (lastSpan body span) span)
    let item : PackageItem := ⟨c.path, head.name, head.isPublic, false⟩
    return .ok (← alloc (.defineFunction item value span) .unit)

/-- As `item`, with surroundings that are pushed and popped at every level. -/
def pushedItem : Node → Check (Except CheckFault Nat)
  | .function head body span => pushedPackageFunction head body span
  | .data decl span => packageData decl span
  | other => do return .ok (← pushedExpr other)

def pushedItems : List Node → Check (Except CheckFault Unit)
  | [] => return .ok ()
  | n :: ns => do
    match ← pushedItem n with
    | .error fault => return .error fault
    | .ok id =>
      modify fun c => { c with program := { c.program with items := c.program.items ++ [id] } }
      pushedItems ns

def pushedDefinitionOf : Node → Check Unit
  | .data decl _ => do define (← pushedDefinition decl)
  | _ => pure ()

def pushedFunctionOf : Node → Check Unit
  | .function head _ _ => do
    let (ps, ret) ← pushedSignature true head
    declare ⟨head.name, functionType ps ret, head.isPublic, false⟩
  | _ => pure ()

def pushedRegister (items : List Node) : Check Unit := do
  items.forM shellOf
  items.forM pushedDefinitionOf
  items.forM pushedFunctionOf

/-- As `unit`, with surroundings that are pushed and popped at every level. -/
def pushedUnit (u : SourceUnit) : Check (Except CheckFault Unit) := do
  setImports u.imports
  let order := Order.ofItems u.items
  order.cycles.forM reportCycle
  pushedRegister u.items
  pushedItems (order.order.filterMap fun i => u.items[i]?)

end Tern.Check
