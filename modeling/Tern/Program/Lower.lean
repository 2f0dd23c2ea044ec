import Tern.Code

/-!
Lowering: every use of a variable is replaced by the place where the variable lives. The parts of an
expression have smaller numbers than the expression, and this bounds the descent.
-/

set_option autoImplicit false

namespace Tern

/-- The types of the parameters of a function. -/
def Ty.parameters : Ty → List Ty
  | .function s => s.params
  | _ => []

def Case.shape (c : Case) : CaseShape := ⟨c.name, c.fields.map Field.name⟩

def ExprPart.lower (part : Nat → Except LowerFault Code) (span : Span) :
    ExprPart → Except LowerFault Code
  | .text s => .ok (.value (.string s) span)
  | .expr id => part id

/-- The code of an expression of a program, from the code of its parts. -/
def Expr.lower (p : Program) (part : Nat → Except LowerFault Code) :
    Expr → Except LowerFault Code
  | .literal v s => .ok (.value v s)
  | .interpolation parts s => do
    return .interpolation (← parts.mapM (ExprPart.lower part s)) s
  | .read access => do return .read (← Storage.classify p.scopes access) access.span
  | .defineFunction item v s => do
    return .defineFunction item (p.type v).parameters (← part v) s
  | .defineVariable item v s => do return .defineVariable item (← part v) s
  | .defineLocal _ name isMutable v s => do return .declareLocal name isMutable (← part v) s
  | .assign target v s => do
    return .write (← Storage.classify p.scopes target) (← part v) s
  | .assignIndex r i v s => do return .writeIndex (← part r) (← part i) (← part v) s
  | .function _ params _ body s => do
    return .function (params.map TypedParam.name) (← part body) s
  | .block _ body s => do return .block (← body.mapM part) s
  | .call callee args s => do return .call (← part callee) (← args.mapM part) s
  | .field r name s => do return .field (← part r) name s
  | .index r i s => do return .index (← part r) (← part i) s
  | .binary op l r s => do return .binary op (← part l) (← part r) s
  | .unary op e s => do return .unary op (← part e) s
  | .branch c t e s => do return .branch (← part c) (← part t) (← e.mapM part) s
  | .loop c body s => do return .loop (← part c) (← part body) s
  | .ret v s => do return .ret (← v.mapM part) s
  | .test v case s => do return .test (← part v) case s
  | .array es s => do return .array (← es.mapM part) s
  | .defineData d s => .ok (.defineData d.path d.name (d.cases.map Case.shape) s)
  | .error s => .error (.errorNode s)

namespace Program

/-- The code of the expression `id`, found within `n` steps inwards. -/
def lowerWithin (p : Program) : Nat → Nat → Except LowerFault Code
  | 0, id => .error (.errorNode (p.span id))
  | n + 1, id =>
    match p.expr? id with
    | some e => e.lower p (p.lowerWithin n)
    | none => .error (.errorNode (p.span id))

/-- An expression is no deeper than its number. -/
def lowerExpr (p : Program) (id : Nat) : Except LowerFault Code := p.lowerWithin (id + 1) id

def lower (p : Program) : Except LowerFault LoweredProgram := do
  return ⟨p.path, ← p.items.mapM p.lowerExpr⟩

end Program

end Tern
