import Tern.Tree

/-!
Types. A name may stand for several functions, so a type can be a set of signatures. Two such sets
are equal when they have as many members and each member of the first is in the second, in whatever
order: this is the equality of types that the language uses, and `==` stands for it. A member is in
a set when one of the set equals it, which is asked from the side of the set.
-/

set_option autoImplicit false

namespace Tern

inductive Primitive
  | unit | int | float | bool | string
  /-- Compatible with every type. -/
  | any
  deriving DecidableEq, Repr

namespace Primitive

def text : Primitive → String
  | unit => "unit"
  | int => "int"
  | float => "float"
  | bool => "bool"
  | string => "string"
  | any => "any"

def all : List Primitive := [unit, int, float, bool, string, any]

def ofText? (name : String) : Option Primitive := all.find? fun p => p.text == name

end Primitive

/-- What a reference to a variant type says besides its arguments. -/
structure VariantHead where
  path : PackagePath
  name : String
  typeParams : List String
  /-- The case that the type is narrowed to. -/
  case : Option String
  deriving DecidableEq, Repr

namespace VariantHead

def SameDefinition (a b : VariantHead) : Prop := a.path = b.path ∧ a.name = b.name

instance (a b : VariantHead) : Decidable (a.SameDefinition b) :=
  inferInstanceAs (Decidable (_ ∧ _))

end VariantHead

mutual
inductive Ty
  | primitive (primitive : Primitive)
  | function (signature : Signature)
  | overloaded (members : List Signature)
  /-- A type parameter, known by its name. -/
  | param (name : String)
  | variant (head : VariantHead) (args : List Ty)
  | array (element : Ty)
/-- The parameters and the result of a function. -/
inductive Signature
  | mk (params : List Ty) (ret : Ty)
end

namespace Signature

def params : Signature → List Ty
  | mk ps _ => ps

def ret : Signature → Ty
  | mk _ r => r

end Signature

namespace Ty

abbrev unit : Ty := primitive .unit
abbrev int : Ty := primitive .int
abbrev float : Ty := primitive .float
abbrev bool : Ty := primitive .bool
abbrev string : Ty := primitive .string
abbrev any : Ty := primitive .any

def isAny : Ty → Bool
  | primitive .any => true
  | _ => false

def isUnit : Ty → Bool
  | primitive .unit => true
  | _ => false

def isCallable : Ty → Bool
  | function _ | overloaded _ => true
  | _ => false

def signature? : Ty → Option Signature
  | function s => some s
  | _ => none

def variant? : Ty → Option (VariantHead × List Ty)
  | variant head args => some (head, args)
  | _ => none

/-- A variant type whose arguments are its own parameters. -/
def generic (path : PackagePath) (name : String) (typeParams : List String) : Ty :=
  variant ⟨path, name, typeParams, none⟩ (typeParams.map param)

end Ty

mutual
/-- Asks the first type whether it equals the second, or the second whether it equals the first if
`turned`. It makes a difference for sets of signatures: every member of the set that is asked needs
a member of the other set that, asked in its turn, equals it. -/
def Ty.equals (turned : Bool) : Ty → Ty → Bool
  | .primitive p, .primitive q => p == q
  | .function s, .function t => s.equals turned t
  | .overloaded ss, .overloaded ts =>
    ss.length == ts.length &&
      if turned then ts.all (Signature.isMet ss) else Signature.areMet ss ts
  | .param a, .param b => a == b
  | .variant h as, .variant k bs => h == k && Ty.allEqual turned as bs
  | .array a, .array b => a.equals turned b
  | _, _ => false
termination_by structural x => x
/-- Compares pairwise. -/
def Ty.allEqual (turned : Bool) : List Ty → List Ty → Bool
  | [], [] => true
  | a :: as, b :: bs => a.equals turned b && Ty.allEqual turned as bs
  | _, _ => false
termination_by structural x => x
def Signature.equals (turned : Bool) : Signature → Signature → Bool
  | .mk ps r, .mk qs q => Ty.allEqual turned ps qs && r.equals turned q
termination_by structural x => x
/-- A member of the list, when asked, equals the signature. -/
def Signature.isMet : List Signature → Signature → Bool
  | [], _ => false
  | s :: ss, t => s.equals false t || Signature.isMet ss t
termination_by structural x => x
/-- Every member of the first list is equal to one of the second, which is asked. -/
def Signature.areMet : List Signature → List Signature → Bool
  | [], _ => true
  | s :: ss, ts => ts.any (s.equals true) && Signature.areMet ss ts
termination_by structural x => x
end

instance : BEq Ty := ⟨Ty.equals false⟩
instance : BEq Signature := ⟨Signature.equals false⟩

mutual
def Ty.text : Ty → String
  | .primitive p => p.text
  | .function s => s.text
  | .overloaded ss => " & ".intercalate (Signature.texts ss)
  | .param name => name
  | .variant head args =>
    let argText := match args with
      | [] => ""
      | _ :: _ => "[" ++ ", ".intercalate (Ty.texts args) ++ "]"
    let caseText := match head.case with
      | none => ""
      | some case => "." ++ case
    head.name ++ argText ++ caseText
  | .array element => "array[" ++ element.text ++ "]"
def Ty.texts : List Ty → List String
  | [] => []
  | t :: ts => t.text :: Ty.texts ts
def Signature.text : Signature → String
  | .mk params ret => "(" ++ ", ".intercalate (Ty.texts params) ++ ") -> " ++ ret.text
def Signature.texts : List Signature → List String
  | [] => []
  | s :: ss => s.text :: Signature.texts ss
end

end Tern
