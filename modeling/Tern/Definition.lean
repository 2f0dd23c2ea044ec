import Tern.Table
import Tern.Ty.Substitution

/-!
Definitions of variant types: their cases and the fields of each case.
-/

set_option autoImplicit false

namespace Tern

structure Field where
  name : String
  type : Ty
  isPublic : Bool

structure Case where
  name : String
  fields : List Field
  isPublic : Bool

def Case.field? (c : Case) (name : String) : Option Field := Table.find? Field.name name c.fields

structure Definition where
  path : PackagePath
  name : String
  typeParams : List String
  isPublic : Bool
  cases : List Case

namespace Definition

/-- The type with its parameters as its arguments. -/
def type (d : Definition) : Ty := .generic d.path d.name d.typeParams

def case? (d : Definition) (name : String) : Option Case := Table.find? Case.name name d.cases

/-- A constructor takes the fields of its case. -/
def constructorType (d : Definition) (c : Case) : Ty :=
  .function (.mk (c.fields.map Field.type) d.type)

/-- The type of a field as it is declared. If no case is selected, every case has to have the field
with the same type. -/
def declaredFieldType? (d : Definition) (case : Option String) (field : String) : Option Ty :=
  match case with
  | some name => (d.case? name).bind fun c => (c.field? field).map Field.type
  | none =>
    match d.cases with
    | [] => none
    | first :: others =>
      match first.field? field with
      | none => none
      | some f =>
        if others.all fun c => (c.field? field).any fun g => g.type == f.type then some f.type
        else none

/-- The type of a field of a value whose type is a variant with these arguments. -/
def fieldType? (d : Definition) (head : VariantHead) (args : List Ty) (field : String) :
    Option Ty :=
  (d.declaredFieldType? head.case field).map fun t => t.substitute (head.bindings args)

def beqFields (a b : List Field) : Bool :=
  a.length == b.length && (a.zip b).all fun (f, g) =>
    f.name == g.name && f.type == g.type && f.isPublic == g.isPublic

def beqCases (a b : List Case) : Bool :=
  a.length == b.length && (a.zip b).all fun (c, d) =>
    c.name == d.name && beqFields c.fields d.fields && c.isPublic == d.isPublic

def beq (a b : Definition) : Bool :=
  a.path == b.path && a.name == b.name && a.typeParams == b.typeParams
    && a.isPublic == b.isPublic && beqCases a.cases b.cases

/-- The definitions of a package after one more; an earlier one of the same name is replaced. -/
def define (new : Definition) (definitions : List Definition) : List Definition :=
  Table.put Definition.name new.name (fun _ => new) definitions

def find? (name : String) (definitions : List Definition) : Option Definition :=
  Table.find? Definition.name name definitions

/-- The first definition that has the case. -/
def findCase? (case : String) (definitions : List Definition) : Option (Definition × Case) :=
  definitions.findSome? fun d => (d.case? case).map (d, ·)

end Definition

end Tern
