import Tern.Definition
import Tern.Storage

/-!
A unit whose names are resolved and whose types are known. Expressions are numbered in the order in
which they are made, so that the parts of an expression have smaller numbers than the expression.
-/

set_option autoImplicit false

namespace Tern

def Target.name : Target → String
  | package _ name | nested _ name => name

/-- A declaration of a package, with its flags. -/
structure PackageItem where
  path : PackagePath
  name : String
  isPublic : Bool
  isMutable : Bool
  deriving DecidableEq, Repr

structure TypedParam where
  name : String
  type : Ty

/-- A part of a string: text, or the number of an expression. -/
inductive ExprPart
  | text (text : String)
  | expr (id : Nat)
  deriving DecidableEq, Repr

/-- An expression; its parts are given by their numbers. -/
inductive Expr
  | literal (value : Literal) (span : Span)
  | interpolation (parts : List ExprPart) (span : Span)
  | read (access : Access)
  | defineFunction (item : PackageItem) (value : Nat) (span : Span)
  | defineVariable (item : PackageItem) (value : Nat) (span : Span)
  | defineLocal (scope : Nat) (name : String) (isMutable : Bool) (value : Nat) (span : Span)
  | assign (target : Access) (value : Nat) (span : Span)
  | assignIndex (receiver index value : Nat) (span : Span)
  | function (scope : Nat) (params : List TypedParam) (ret : Ty) (body : Nat) (span : Span)
  | block (scope : Nat) (body : List Nat) (span : Span)
  | call (callee : Nat) (args : List Nat) (span : Span)
  | field (receiver : Nat) (field : String) (span : Span)
  | index (receiver index : Nat) (span : Span)
  | binary (op : BinaryOp) (left right : Nat) (span : Span)
  | unary (op : UnaryOp) (operand : Nat) (span : Span)
  | branch (condition thenBranch : Nat) (elseBranch : Option Nat) (span : Span)
  | loop (condition body : Nat) (span : Span)
  | ret (value : Option Nat) (span : Span)
  | test (value : Nat) (case : String) (span : Span)
  | array (elements : List Nat) (span : Span)
  | defineData (definition : Definition) (span : Span)
  /-- What failed to check. -/
  | error (span : Span)

namespace Expr

def span : Expr → Span
  | read access => access.span
  | literal _ s | interpolation _ s | defineFunction _ _ s | defineVariable _ _ s
  | defineLocal _ _ _ _ s | assign _ _ s | assignIndex _ _ _ s | function _ _ _ _ s | block _ _ s
  | call _ _ s | field _ _ s | index _ _ s | binary _ _ _ s | unary _ _ s | branch _ _ _ s
  | loop _ _ s | ret _ s | test _ _ s | array _ s | defineData _ s | error s => s

/-- The use of a variable that the expression is. -/
def access? : Expr → Option Access
  | read access => some access
  | assign target _ _ => some target
  | _ => none

end Expr

structure TypedExpr where
  expr : Expr
  type : Ty

structure Program where
  path : PackagePath
  /-- The numbers of the items, in the order of conversion. -/
  items : List Nat
  scopes : ScopeTree
  exprs : Array TypedExpr

namespace Program

def init (path : PackagePath) : Program := ⟨path, [], .init, #[]⟩

/-- Adds an expression; its number is the number of expressions before. -/
def alloc (p : Program) (e : Expr) (t : Ty) : Program := { p with exprs := p.exprs.push ⟨e, t⟩ }

def expr? (p : Program) (id : Nat) : Option Expr := p.exprs[id]?.map TypedExpr.expr

def type (p : Program) (id : Nat) : Ty := (p.exprs[id]?.map TypedExpr.type).getD .any

def span (p : Program) (id : Nat) : Span := ((p.expr? id).map Expr.span).getD ⟨0, 0⟩

/-- Every use of a variable, in the order in which the expressions were made. -/
def accesses (p : Program) : List Access := p.exprs.toList.filterMap fun e => e.expr.access?

/-- The storage of every use of a variable, with the name of the variable. -/
def storages (p : Program) : Except LowerFault (List (String × Storage)) :=
  p.accesses.mapM fun a => (Storage.classify p.scopes a).map (a.target.name, ·)

end Program

end Tern
