import Tern.Program
import Tern.Binary64.Shortest
import Tern.Text.Outline
import Tern.Text.Quoted

/-!
Lowered code. No scopes and no look-ups are left in it: every use of a variable says where the
variable lives.
-/

set_option autoImplicit false

namespace Tern

open Text (Outline)

/-- What a constructor needs to know of its case. -/
structure CaseShape where
  name : String
  /-- The names of the fields, in the order of the arguments. -/
  fields : List String
  deriving DecidableEq, Repr

inductive Code
  | value (value : Literal) (span : Span)
  | interpolation (parts : List Code) (span : Span)
  | read (storage : Storage) (span : Span)
  | write (storage : Storage) (value : Code) (span : Span)
  /-- The types of the parameters tell apart functions of one name. -/
  | defineFunction (item : PackageItem) (params : List Ty) (function : Code) (span : Span)
  | defineVariable (item : PackageItem) (value : Code) (span : Span)
  | declareLocal (name : String) (isMutable : Bool) (value : Code) (span : Span)
  | function (params : List String) (body : Code) (span : Span)
  | block (body : List Code) (span : Span)
  | call (callee : Code) (args : List Code) (span : Span)
  | field (receiver : Code) (field : String) (span : Span)
  | index (receiver index : Code) (span : Span)
  | writeIndex (receiver index value : Code) (span : Span)
  | binary (op : BinaryOp) (left right : Code) (span : Span)
  | unary (op : UnaryOp) (operand : Code) (span : Span)
  | branch (condition thenBranch : Code) (elseBranch : Option Code) (span : Span)
  | loop (condition body : Code) (span : Span)
  | ret (value : Option Code) (span : Span)
  | test (value : Code) (case : String) (span : Span)
  | array (elements : List Code) (span : Span)
  | defineData (path : PackagePath) (name : String) (cases : List CaseShape) (span : Span)
  deriving Inhabited

def CaseShape.text (c : CaseShape) : String :=
  "case " ++ c.name ++ "(" ++ ", ".intercalate c.fields ++ ")"

namespace Code

def valueText : Literal → String
  | .int n => "int " ++ toString n
  | .float x => "float " ++ x.text
  | .bool b => "bool " ++ toString b
  | .string s => "string " ++ Text.quoted s
  | .unit => "unit"

def variableWord (isMutable : Bool) : String := if isMutable then "var" else "val"

def flag (isSet : Bool) (word : String) : String := if isSet then " " ++ word else ""

def itemText (item : PackageItem) : String := item.path.text ++ "." ++ item.name

mutual
/-- One line for the code itself, and below it the parts. -/
def outline : Code → Outline
  | value v _ => .leaf (valueText v)
  | interpolation parts _ => .node "interpolate" (outlines parts)
  | read s _ => .leaf ("read " ++ s.text)
  | write s v _ => .node ("write " ++ s.text) [outline v]
  | defineFunction item params f _ =>
    .node ("define fn " ++ itemText item ++ "(" ++ ", ".intercalate (Ty.texts params) ++ ")"
      ++ flag item.isPublic "pub" ++ flag item.isMutable "mut") [outline f]
  | defineVariable item v _ =>
    .node ("define " ++ variableWord item.isMutable ++ " " ++ itemText item
      ++ flag item.isPublic "pub") [outline v]
  | declareLocal name isMutable v _ =>
    .node ("local " ++ variableWord isMutable ++ " " ++ name) [outline v]
  | function params body _ =>
    .node ("function(" ++ ", ".intercalate params ++ ")") [outline body]
  | block body _ => .node "block" (outlines body)
  | call callee args _ => .node "call" (outline callee :: outlines args)
  | field receiver name _ => .node ("field " ++ name) [outline receiver]
  | index receiver i _ => .node "index" [outline receiver, outline i]
  | writeIndex receiver i v _ => .node "write index" [outline receiver, outline i, outline v]
  | binary op l r _ => .node ("binary " ++ op.text) [outline l, outline r]
  | unary op e _ => .node ("unary " ++ op.text) [outline e]
  | branch c t e _ => .node "if" (outline c :: outline t :: outlineOption e)
  | loop c body _ => .node "while" [outline c, outline body]
  | ret v _ => .node "return" (outlineOption v)
  | test v case _ => .node ("is " ++ case) [outline v]
  | array es _ => .node "array" (outlines es)
  | defineData path name cases _ =>
    .node ("define data " ++ path.text ++ "." ++ name) (cases.map fun c => .leaf c.text)
def outlines : List Code → List Outline
  | [] => []
  | c :: cs => outline c :: outlines cs
def outlineOption : Option Code → List Outline
  | none => []
  | some c => [outline c]
end

def text (c : Code) : String := c.outline.text

end Code

/-- A lowered unit. -/
structure LoweredProgram where
  path : PackagePath
  /-- The items in the order in which they run. -/
  items : List Code

def LoweredProgram.outline (p : LoweredProgram) : Outline :=
  .node ("program " ++ p.path.text) (Code.outlines p.items)

def LoweredProgram.text (p : LoweredProgram) : String := p.outline.text

end Tern
