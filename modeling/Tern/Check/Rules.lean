import Tern.Check.Register
import Tern.Ty.Unify

/-!
The rules for single expressions whose parts are checked already, or are given as steps that check
them. What does not fit is reported, and its type becomes `any`, so that one mistake is reported
once.
-/

set_option autoImplicit false

namespace Tern

def Literal.type : Literal → Ty
  | int _ => .int
  | float _ => .float
  | bool _ => .bool
  | string _ => .string
  | unit => .unit

def Ty.isNumeric (t : Ty) : Bool := t == .int || t == .float

namespace Check

/-- Reports the expression unless it may stand where `expected` is required. -/
def expectType (expected : Ty) (id : Nat) : Check Unit := do
  let actual ← typeOf id
  unless expected.isAssignable actual do
    report (.typeMismatch expected actual) (← spanOf id)

/-! Names and declarations -/

def name (name : String) (span : Span) : Check Nat := do
  match (← get).resolveName name with
  | some r => read r span
  | none =>
    report (.unrecognizedName name) span
    error span

def qualifiedName (path : PackagePath) (name : String) (nameSpan span : Span) : Check Nat := do
  let c ← get
  if (c.ns.package? path).isNone then
    report (.unknownPackage path.text) span
    error span
  else
    match c.resolveIn path name with
    | some r => read r span
    | none =>
      report (.unrecognizedName (path.text ++ "." ++ name)) nameSpan
      error span

/-- Declares a name in the current scope or, outside all scopes, in the package. -/
def declareVariable (head : VariableHead) (type : Ty) (value : Nat) (span : Span) : Check Nat := do
  let c ← get
  if c.isAtPackageLevel then
    declare ⟨head.name, type, head.isPublic, head.isMutable⟩
    let item : PackageItem := ⟨c.path, head.name, head.isPublic, head.isMutable⟩
    if type.isCallable then alloc (.defineFunction item value span) .unit
    else alloc (.defineVariable item value span) .unit
  else
    modifyScopes fun t => t.addSymbol c.scope ⟨head.name, type, false, head.isMutable⟩
    alloc (.defineLocal c.scope head.name head.isMutable value span) .unit

/-- The name is declared after its value is checked, so that the value sees an earlier one. -/
def variableDecl (head : VariableHead) (value : Check Nat) (span : Span) : Check Nat := do
  let written ← optionalType true head.type
  let value ← value
  match written with
  | some type =>
    expectType type value
    declareVariable head type value span
  | none => declareVariable head (← typeOf value) value span

def assignment (name : String) (nameSpan : Span) (value : Check Nat) (span : Span) : Check Nat := do
  let resolved := (← get).resolveName name
  let value ← value
  match resolved with
  | none =>
    report (.unrecognizedName name) nameSpan
    error span
  | some r =>
    unless r.symbol.isMutable do
      report (.immutableAssignment name) nameSpan
    expectType r.symbol.type value
    let scope := (← get).scope
    alloc (.assign ⟨r.target, scope, nameSpan⟩ value span) .unit

/-- A `data` declaration inside a body belongs to the package. -/
def nestedData (decl : DataDecl) (span : Span) : Check Nat := do
  let d ← definition decl
  define d
  alloc (.defineData d span) .unit

/-! Functions and blocks -/

/-- Statements in a scope of their own; the last one gives the type. -/
def block (body : Check (List Nat)) (span : Span) : Check Nat := do
  let (scope, ids) ← inScope .block fun scope => do return (scope, ← body)
  let type ← match ids.getLast? with
    | some id => typeOf id
    | none => pure .unit
  alloc (.block scope ids span) type

/-- Reports a body that does not give the declared result. A result `unit` or `any` takes all. -/
def functionResult (ret bodyType : Ty) (lastSpan span : Span) : Check Unit := do
  if ret.isUnit || ret.isAny then return
  if bodyType.isUnit then report (.missingReturnValue ret) span
  else unless ret.isAssignable bodyType do
    report (.typeMismatch ret bodyType) lastSpan

/-- A function; without a declared result the type of its body is taken. `lastSpan` is the place of
its last statement. -/
def function (ps : List TypedParam) (ret? : Option Ty) (body : Check (List Nat))
    (lastSpan span : Span) : Check Nat := do
  let (scope, bodyId) ← inScope .function fun scope => do
    ps.forM fun p => modifyScopes fun t => t.addParameter scope p.name p.type
    return (scope, ← returning (ret?.getD .any) (block body span))
  let bodyType ← typeOf bodyId
  let ret ← match ret? with
    | some ret => do
      functionResult ret bodyType lastSpan span
      pure ret
    | none => pure bodyType
  alloc (.function scope ps ret bodyId span) (functionType ps ret)

/-- A function inside a body is declared before its own body is checked. -/
def localFunction (head : FunctionHead) (body : Check (List Nat)) (lastSpan span : Span) :
    Check Nat := do
  let (ps, ret) ← signature true head
  let scope := (← get).scope
  modifyScopes fun t => t.addSymbol scope ⟨head.name, functionType ps ret, false, false⟩
  let value ← withGenerics head.typeParams (function ps (some ret) body lastSpan span)
  alloc (.defineLocal scope head.name false value span) .unit

def lambda (ps : List Param) (ret : Option TypeRef) (body : Check (List Nat))
    (lastSpan span : Span) : Check Nat := do
  let ps ← params true ps
  let ret ← optionalType true ret
  function ps ret body lastSpan span

/-! Operators -/

/-- Strings are joined with anything by `+`, and mixed numbers give a float. -/
def arithmetic (op : BinaryOp) (left right : Nat) : Check Ty := do
  let l ← typeOf left
  let r ← typeOf right
  if op == .add && (l == .string || r == .string) then return .string
  else if l.isAny || r.isAny then return .any
  else if !l.isNumeric then
    report (.typeMismatch .int l) (← spanOf left)
    return .any
  else if !r.isNumeric then
    report (.typeMismatch l r) (← spanOf right)
    return .any
  else if l == .int && r == .int then return .int
  else return .float

/-- Any two values that fit each other can be tested for equality; only numbers and strings have an
order. -/
def areComparable (op : BinaryOp) (l r : Ty) : Bool :=
  match op with
  | .eq | .notEq => (l.isNumeric && r.isNumeric) || l.isAssignable r || r.isAssignable l
  | _ => l.isAny || r.isAny || (l.isNumeric && r.isNumeric) || (l == .string && r == .string)

def comparison (op : BinaryOp) (left right : Nat) (span : Span) : Check Unit := do
  let l ← typeOf left
  let r ← typeOf right
  unless areComparable op l r do
    report (.typeMismatch l r) span

def binary (op : BinaryOp) (left right : Nat) (span : Span) : Check Nat := do
  let type ←
    if op.isArithmetic then arithmetic op left right
    else if op.isComparison then do
      comparison op left right span
      pure .bool
    else do
      expectType .bool left
      expectType .bool right
      pure .bool
  alloc (.binary op left right span) type

def negation (operand : Nat) : Check Ty := do
  let t ← typeOf operand
  if t.isNumeric || t.isAny then return t
  else
    report (.typeMismatch .int t) (← spanOf operand)
    return .any

def unary (op : UnaryOp) (operand : Nat) (span : Span) : Check Nat := do
  let type ← match op with
    | .not => do
      expectType .bool operand
      pure .bool
    | .negate => negation operand
  alloc (.unary op operand span) type

/-! Control flow -/

/-- Both branches have to fit each other; without an `else` there is no value. -/
def branchType (thenBranch : Nat) (elseBranch : Option Nat) (span : Span) : Check Ty := do
  match elseBranch with
  | none => return .unit
  | some other =>
    let t ← typeOf thenBranch
    let e ← typeOf other
    if t.isAssignable e && e.isAssignable t then return if t.isAny then e else t
    else
      report (.branchMismatch t e) span
      return .any

def branch (condition thenBranch : Check Nat) (elseBranch : Check (Option Nat)) (span : Span) :
    Check Nat := do
  let condition ← condition
  expectType .bool condition
  let thenBranch ← thenBranch
  let elseBranch ← elseBranch
  let type ← branchType thenBranch elseBranch span
  alloc (.branch condition thenBranch elseBranch span) type

def loop (condition body : Check Nat) (span : Span) : Check Nat := do
  let condition ← condition
  expectType .bool condition
  let body ← body
  alloc (.loop condition body span) .unit

/-- What is returned has to fit the innermost function around. -/
def ret (value : Option Nat) (span : Span) : Check Nat := do
  match (← get).returnTypes.head?, value with
  | none, _ => report .returnOutsideFunction span
  | some expected, some value => expectType expected value
  | some expected, none =>
    unless expected.isUnit || expected.isAny do
      report (.missingReturnValue expected) span
  alloc (.ret value span) .any

/-! Values -/

def elementType? : Ty → Option Ty
  | .array element => some element
  | t => if t == .string || t.isAny then some t else none

def index (receiver index : Nat) (span : Span) : Check Nat := do
  expectType .int index
  let t ← typeOf receiver
  match elementType? t with
  | some element => alloc (.index receiver index span) element
  | none =>
    report (.notIndexable t) (← spanOf receiver)
    alloc (.index receiver index span) .any

/-- Arrays can be changed, strings cannot. -/
def assignIndex (receiver index value : Nat) (span : Span) : Check Nat := do
  expectType .int index
  match ← typeOf receiver with
  | .array element => expectType element value
  | t =>
    unless t.isAny do
      report (.notIndexable t) (← spanOf receiver)
  alloc (.assignIndex receiver index value span) .unit

def knowsCase (c : Context) (case : String) : Ty → Bool
  | .variant head _ => c.ns.hasCase head case
  | t => t.isAny

def caseTest (value : Nat) (case : String) (span : Span) : Check Nat := do
  let t ← typeOf value
  unless knowsCase (← get) case t do
    report (.unknownMember t case) span
  alloc (.test value case span) .bool

/-- The first element that is not `any` gives the type of the elements. -/
def array (elements : List Nat) (span : Span) : Check Nat := do
  let types ← elements.mapM typeOf
  let element := (types.find? fun t => !t.isAny).getD .any
  elements.forM (expectType element)
  alloc (.array elements span) (.array element)

/-! Calls and members -/

/-- The result of a call whose arguments fit the signature. -/
def resultOf? (s : Signature) (args : List Ty) : Option Ty :=
  if s.params.length = args.length then
    let fitted := (s.params.zip args).foldl
      (fun (u? : Option Unifier) (param, arg) =>
        u?.bind fun u =>
          match u.unify param arg with
          | (u', none) => some u'
          | (_, some _) => none)
      (some {})
    fitted.map fun u => u.apply s.ret
  else none

/-- Unifies arguments with parameters, and reports those that do not fit. -/
def arguments (u : Unifier) : List (Ty × Nat) → Check Unifier
  | [] => pure u
  | (param, arg) :: rest => do
    let actual ← typeOf arg
    match u.unify param actual with
    | (u', none) => arguments u' rest
    | (u', some _) =>
      report (.typeMismatch (u'.apply param) actual) (← spanOf arg)
      arguments u' rest

def signatureCall (s : Signature) (args : List Nat) (span : Span) : Check Ty := do
  if s.params.length = args.length then
    let u ← arguments {} (s.params.zip args)
    return u.apply s.ret
  else
    report (.functionArity s.params.length args.length) span
    return if s.ret.hasParams then .any else s.ret

def callType (name : String) (callee : Nat) (args : List Nat) (span : Span) : Check Ty := do
  match ← typeOf callee with
  | .function s => signatureCall s args span
  | .overloaded ss =>
    let types ← args.mapM typeOf
    match ss.findSome? fun s => resultOf? s types with
    | some t => return t
    | none =>
      report (.noMatchingOverload name types) span
      return .any
  | t =>
    unless t.isAny do
      report (.notAFunction name t) (← spanOf callee)
    return .any

/-- Type parameters that the arguments do not fix do not leave the call. -/
def call (name : String) (callee : Nat) (args : List Nat) (span : Span) : Check Nat := do
  let type ← callType name callee args span
  let generics := (← get).generics
  alloc (.call callee args span) (type.erase generics)

def calleeName : Node → String
  | .name name _ => name
  | .qualified _ name _ _ => name
  | other => other.describe

def packageCall (package method : String) (methodSpan : Span) (args : Check (List Nat))
    (span : Span) : Check Nat := do
  let args ← args
  match (← get).resolveQualified package method with
  | some r =>
    let callee ← read r methodSpan
    call method callee args span
  | none =>
    report (.unrecognizedName (package ++ "." ++ method)) methodSpan
    error span

/-- A function that takes the receiver as its first argument. -/
def receiverCall (r : Resolved) (receiver : Nat) (method : String) (methodSpan : Span)
    (args : Check (List Nat)) (span : Span) : Check Nat := do
  let callee ← read r methodSpan
  let args ← args
  call method callee (receiver :: args) span

def fieldCall (type : Ty) (receiver : Nat) (method : String) (methodSpan : Span)
    (args : Check (List Nat)) (span : Span) : Check Nat := do
  let receiverSpan ← spanOf receiver
  let callee ← alloc (.field receiver method (receiverSpan.join methodSpan)) type
  let args ← args
  call method callee args span

def plainMethodCall (receiver : Nat) (method : String) (methodSpan : Span)
    (args : Check (List Nat)) (span : Span) : Check Nat := do
  match (← get).resolveName method with
  | some r => receiverCall r receiver method methodSpan args span
  | none =>
    report (.unrecognizedName method) methodSpan
    let _ ← args
    error span

/-- A method is looked for in the package of the receiver's type, then among its fields, then as a
plain name. -/
def valueMethodCall (receiver : Nat) (method : String) (methodSpan : Span)
    (args : Check (List Nat)) (span : Span) : Check Nat := do
  let c ← get
  match c.program.type receiver with
  | .variant head typeArgs =>
    match c.resolveIn head.path method, c.fieldType? head typeArgs method with
    | some r, _ => receiverCall r receiver method methodSpan args span
    | none, some type => fieldCall type receiver method methodSpan args span
    | none, none => plainMethodCall receiver method methodSpan args span
  | _ => plainMethodCall receiver method methodSpan args span

/-- The package that a receiver stands for, if it is no value. -/
def packageName? (c : Context) : Node → Option String
  | .name name _ => if c.namesPackage name then some name else none
  | _ => none

/-- A call of a member; `receiverNode` is the receiver as it is written. -/
def methodCall (receiverNode : Node) (receiver : Check Nat) (method : String) (methodSpan : Span)
    (args : Check (List Nat)) (span : Span) : Check Nat := do
  match packageName? (← get) receiverNode with
  | some package => packageCall package method methodSpan args span
  | none =>
    let receiver ← receiver
    valueMethodCall receiver method methodSpan args span

def memberType? (c : Context) (member : String) : Ty → Option Ty
  | .variant head args => c.fieldType? head args member
  | t => if t.isAny then some .any else none

def valueMember (receiver : Nat) (member : String) (memberSpan span : Span) : Check Nat := do
  let c ← get
  let t := c.program.type receiver
  match memberType? c member t with
  | some type => alloc (.field receiver member span) type
  | none =>
    report (.unknownMember t member) memberSpan
    error span

def member (receiverNode : Node) (receiver : Check Nat) (member : String) (memberSpan span : Span) :
    Check Nat := do
  let c ← get
  match packageName? c receiverNode with
  | some package =>
    match c.resolveQualified package member with
    | some r => read r span
    | none =>
      report (.unrecognizedName (package ++ "." ++ member)) memberSpan
      error span
  | none =>
    let receiver ← receiver
    valueMember receiver member memberSpan span

end Check

end Tern
