import Tern.Span
import Tern.Binary64

/-!
The tree of a source unit as it is written: type references, expressions, declarations and imports,
each with its place in the source.
-/

set_option autoImplicit false

namespace Tern

/-- The name of a package, written `module/package`. -/
structure PackagePath where
  module : String
  package : String
  deriving DecidableEq, Repr, Inhabited

def PackagePath.text (p : PackagePath) : String := p.module ++ "/" ++ p.package

/-- A type as it is written. -/
inductive TypeRef
  | named (name : String) (span : Span)
  | function (params : List TypeRef) (ret : TypeRef) (span : Span)
  | applied (base : TypeRef) (args : List TypeRef) (span : Span)
  | selected (base : TypeRef) (case : String) (span : Span)
  deriving Repr, Inhabited

namespace TypeRef

def span : TypeRef → Span
  | named _ s | function _ _ s | applied _ _ s | selected _ _ s => s

mutual
def text : TypeRef → String
  | named name _ => name
  | function params ret _ => "(" ++ ", ".intercalate (texts params) ++ ") -> " ++ ret.text
  | applied base args _ => base.text ++ "[" ++ ", ".intercalate (texts args) ++ "]"
  | selected base case _ => base.text ++ "." ++ case
def texts : List TypeRef → List String
  | [] => []
  | r :: rs => r.text :: texts rs
end

end TypeRef

inductive Literal
  | int (value : Int)
  | float (value : Binary64)
  | bool (value : Bool)
  | string (value : String)
  | unit
  deriving DecidableEq, Repr

inductive BinaryOp
  | add | sub | mul | div | rem
  | eq | notEq | lt | ltEq | gt | gtEq
  | and | or
  deriving DecidableEq, Repr

namespace BinaryOp

def isArithmetic : BinaryOp → Bool
  | add | sub | mul | div | rem => true
  | _ => false

def isComparison : BinaryOp → Bool
  | eq | notEq | lt | ltEq | gt | gtEq => true
  | _ => false

def text : BinaryOp → String
  | add => "+"
  | sub => "-"
  | mul => "*"
  | div => "/"
  | rem => "%"
  | eq => "=="
  | notEq => "!="
  | lt => "<"
  | ltEq => "<="
  | gt => ">"
  | gtEq => ">="
  | and => "&&"
  | or => "||"

end BinaryOp

inductive UnaryOp
  | not
  | negate
  deriving DecidableEq, Repr

def UnaryOp.text : UnaryOp → String
  | .not => "!"
  | .negate => "-"

structure Param where
  name : String
  type : TypeRef
  span : Span
  deriving Repr

/-- What a `val` or `var` declaration says besides its value. -/
structure VariableHead where
  name : String
  isPublic : Bool
  isMutable : Bool
  type : Option TypeRef
  deriving Repr

/-- What a `fn` declaration says besides its body. -/
structure FunctionHead where
  name : String
  isPublic : Bool
  typeParams : List String
  params : List Param
  returnType : Option TypeRef
  deriving Repr

structure FieldDecl where
  name : String
  isPublic : Bool
  type : TypeRef
  span : Span
  deriving Repr

structure CaseDecl where
  name : String
  isPublic : Bool
  fields : List FieldDecl
  span : Span
  deriving Repr

/-- A `data` declaration. -/
structure DataDecl where
  name : String
  isPublic : Bool
  typeParams : List String
  cases : List CaseDecl
  deriving Repr

mutual
/-- An expression, statement or declaration. -/
inductive Node
  | literal (value : Literal) (span : Span)
  | interpolation (parts : List Part) (span : Span)
  | name (name : String) (span : Span)
  | qualified (path : PackagePath) (name : String) (nameSpan span : Span)
  | define (head : VariableHead) (value : Node) (span : Span)
  | function (head : FunctionHead) (body : List Node) (span : Span)
  | data (decl : DataDecl) (span : Span)
  | lambda (params : List Param) (returnType : Option TypeRef) (body : List Node) (span : Span)
  | block (body : List Node) (span : Span)
  | call (callee : Node) (args : List Node) (span : Span)
  | member (receiver : Node) (member : String) (memberSpan span : Span)
  | index (receiver index : Node) (span : Span)
  | assign (name : String) (nameSpan : Span) (value : Node) (span : Span)
  | assignIndex (receiver index value : Node) (span : Span)
  | binary (op : BinaryOp) (left right : Node) (span : Span)
  | unary (op : UnaryOp) (operand : Node) (span : Span)
  | branch (condition thenBranch : Node) (elseBranch : Option Node) (span : Span)
  | loop (condition body : Node) (span : Span)
  | ret (value : Option Node) (span : Span)
  | test (value : Node) (case : String) (span : Span)
  | array (elements : List Node) (span : Span)
/-- A part of a string with expressions in it. -/
inductive Part
  | text (text : String)
  | expr (node : Node)
end

namespace Node

def span : Node → Span
  | literal _ s | interpolation _ s | name _ s | qualified _ _ _ s | define _ _ s | function _ _ s
  | data _ s | lambda _ _ _ s | block _ s | call _ _ s | member _ _ _ s | index _ _ s
  | assign _ _ _ s | assignIndex _ _ _ s | binary _ _ _ s | unary _ _ s | branch _ _ _ s
  | loop _ _ s | ret _ s | test _ _ s | array _ s => s

/-- A few words that tell which node it is. -/
def describe : Node → String
  | define head _ _ => (if head.isMutable then "var " else "val ") ++ head.name
  | function head _ _ => "fn " ++ head.name
  | data decl _ => "data " ++ decl.name
  | assign target _ _ _ => target ++ " ="
  | name text _ => text
  | qualified path item _ _ => path.text ++ "." ++ item
  | literal _ _ => "literal"
  | interpolation _ _ => "interpolation"
  | lambda _ _ _ _ => "lambda"
  | block _ _ => "block"
  | call _ _ _ => "call"
  | member _ field _ _ => "." ++ field
  | index _ _ _ => "index"
  | assignIndex _ _ _ _ => "index assignment"
  | binary op _ _ _ => "binary " ++ op.text
  | unary op _ _ => "unary " ++ op.text
  | branch _ _ _ _ => "if"
  | loop _ _ _ => "while"
  | ret _ _ => "return"
  | test _ case _ => "is " ++ case
  | array _ _ => "array"

end Node

/-- The line that names the package of a unit. -/
structure PackageDecl where
  path : PackagePath
  span : Span
  deriving DecidableEq, Repr

structure ImportEntry where
  name : String
  /-- The name after `as`. -/
  newName : Option String
  span : Span
  deriving DecidableEq, Repr

/-- The name under which the entry is seen in the importing unit. -/
def ImportEntry.localName (e : ImportEntry) : String := e.newName.getD e.name

structure ImportDecl where
  path : PackagePath
  /-- The name after `as`, for the whole package. -/
  packageName : Option String
  entries : List ImportEntry
  span : Span
  deriving DecidableEq, Repr

structure SourceUnit where
  package : Option PackageDecl
  imports : List ImportDecl
  items : List Node

end Tern
