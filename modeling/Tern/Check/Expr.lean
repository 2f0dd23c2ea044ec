import Tern.Check.Rules

/-!
Checking an expression with all its parts, in the order in which they are written.
-/

set_option autoImplicit false

namespace Tern.Check

/-- Where the last of some statements is, or else all of it. -/
def lastSpan (body : List Node) (span : Span) : Span := (body.getLast?.map Node.span).getD span

mutual
/-- Checks a node in the current scope and gives the number of its expression. -/
def expr : Node → Check Nat
  | .literal value span => alloc (.literal value span) value.type
  | .interpolation parts span => do
    let parts ← exprParts parts
    alloc (.interpolation parts span) .string
  | .name x span => name x span
  | .qualified path x nameSpan span => qualifiedName path x nameSpan span
  | .define head value span => variableDecl head (expr value) span
  | .function head body span => localFunction head (exprs body) (lastSpan body span) span
  | .data decl span => nestedData decl span
  | .lambda ps ret body span => lambda ps ret (exprs body) (lastSpan body span) span
  | .block body span => block (exprs body) span
  | .call (.member receiver method methodSpan _) args span =>
    methodCall receiver (expr receiver) method methodSpan (exprs args) span
  | .call callee args span => do
    let id ← expr callee
    let args ← exprs args
    call (calleeName callee) id args span
  | .member receiver x memberSpan span => member receiver (expr receiver) x memberSpan span
  | .index receiver i span => do
    let receiver ← expr receiver
    let i ← expr i
    index receiver i span
  | .assign x nameSpan value span => assignment x nameSpan (expr value) span
  | .assignIndex receiver i value span => do
    let receiver ← expr receiver
    let i ← expr i
    let value ← expr value
    assignIndex receiver i value span
  | .binary op left right span => do
    let left ← expr left
    let right ← expr right
    binary op left right span
  | .unary op operand span => do
    let operand ← expr operand
    unary op operand span
  | .branch condition thenBranch elseBranch span =>
    branch (expr condition) (expr thenBranch) (exprOption elseBranch) span
  | .loop condition body span => loop (expr condition) (expr body) span
  | .ret value span => do
    let value ← exprOption value
    ret value span
  | .test value case span => do
    let value ← expr value
    caseTest value case span
  | .array elements span => do
    let elements ← exprs elements
    array elements span
def exprs : List Node → Check (List Nat)
  | [] => pure []
  | n :: ns => do
    let id ← expr n
    let ids ← exprs ns
    return id :: ids
def exprOption : Option Node → Check (Option Nat)
  | none => pure none
  | some n => do return some (← expr n)
def exprParts : List Part → Check (List ExprPart)
  | [] => pure []
  | .text s :: ps => do
    let parts ← exprParts ps
    return .text s :: parts
  | .expr n :: ps => do
    let id ← expr n
    let parts ← exprParts ps
    return .expr id :: parts
end

end Tern.Check
