import Tern.Tree

/-!
The free names of a top-level item: what it reads or writes and does not bind itself. A reference is
eager if it is used when the item itself runs, and not only when a function in it is called.
-/

set_option autoImplicit false

namespace Tern

structure Reference where
  name : String
  eager : Bool
  deriving DecidableEq, Repr

namespace Node

/-- The names that an item declares. A `data` declaration declares its cases. -/
def declaredNames : Node → List String
  | function head _ _ => [head.name]
  | define head _ _ => [head.name]
  | data decl _ => decl.cases.map CaseDecl.name
  | _ => []

def isFunction : Node → Bool
  | function _ _ _ => true
  | _ => false

end Node

namespace Reference

/-- A use of a name, unless it is bound. -/
def use (bound : List String) (eager : Bool) (name : String) : List Reference :=
  if bound.contains name then [] else [⟨name, eager⟩]

def paramNames (params : List Param) : List String := params.map Param.name

mutual
/-- The free names of a node, in the order in which they are met. -/
def ofNode (bound : List String) (eager : Bool) : Node → List Reference
  | .literal _ _ => []
  | .qualified _ _ _ _ => []
  | .data _ _ => []
  | .interpolation parts _ => ofParts bound eager parts
  | .name name _ => use bound eager name
  | .define _ value _ => ofNode bound eager value
  | .function head body _ => ofStatements (paramNames head.params ++ bound) false body
  | .lambda params _ body _ => ofStatements (paramNames params ++ bound) false body
  | .block body _ => ofStatements bound eager body
  | .call (.member receiver member _ _) args _ =>
    ofNode bound eager receiver ++ use bound eager member ++ ofNodes bound eager args
  | .call callee args _ => ofNode bound eager callee ++ ofNodes bound eager args
  | .member receiver _ _ _ => ofNode bound eager receiver
  | .index receiver index _ => ofNode bound eager receiver ++ ofNode bound eager index
  | .assign name _ value _ => use bound eager name ++ ofNode bound eager value
  | .assignIndex receiver index value _ =>
    ofNode bound eager receiver ++ ofNode bound eager index ++ ofNode bound eager value
  | .binary _ left right _ => ofNode bound eager left ++ ofNode bound eager right
  | .unary _ operand _ => ofNode bound eager operand
  | .branch condition thenBranch elseBranch _ =>
    ofNode bound eager condition ++ ofNode bound eager thenBranch
      ++ ofOption bound eager elseBranch
  | .loop condition body _ => ofNode bound eager condition ++ ofNode bound eager body
  | .ret value _ => ofOption bound eager value
  | .test value _ _ => ofNode bound eager value
  | .array elements _ => ofNodes bound eager elements
def ofNodes (bound : List String) (eager : Bool) : List Node → List Reference
  | [] => []
  | n :: ns => ofNode bound eager n ++ ofNodes bound eager ns
def ofOption (bound : List String) (eager : Bool) : Option Node → List Reference
  | none => []
  | some n => ofNode bound eager n
def ofParts (bound : List String) (eager : Bool) : List Part → List Reference
  | [] => []
  | .text _ :: ps => ofParts bound eager ps
  | .expr n :: ps => ofNode bound eager n ++ ofParts bound eager ps
/-- Statements of a block: a declaration binds its name for what follows, and a function also in
its own body. -/
def ofStatements (bound : List String) (eager : Bool) : List Node → List Reference
  | [] => []
  | .define head value _ :: rest =>
    ofNode bound eager value ++ ofStatements (head.name :: bound) eager rest
  | .function head body _ :: rest =>
    ofStatements (paramNames head.params ++ head.name :: bound) false body
      ++ ofStatements (head.name :: bound) eager rest
  | .data decl _ :: rest => ofStatements (decl.cases.map CaseDecl.name ++ bound) eager rest
  | n :: rest => ofNode bound eager n ++ ofStatements bound eager rest
end

/-- The free names of an item; the name it declares is not bound in it. -/
def ofItem (item : Node) : List Reference := ofNode [] true item

end Reference

end Tern
