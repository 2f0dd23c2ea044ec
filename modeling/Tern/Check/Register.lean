import Tern.Check.Context

/-!
The declarations of a unit are made known before any body is checked, so that a body may refer to
what is declared further down.
-/

set_option autoImplicit false

namespace Tern.Check

def params (reports : Bool) (ps : List Param) : Check (List TypedParam) :=
  ps.mapM fun p => do return ⟨p.name, ← resolveType reports p.type⟩

def optionalType (reports : Bool) (r : Option TypeRef) : Check (Option Ty) :=
  match r with
  | some r => some <$> resolveType reports r
  | none => pure none

/-- The parameters and the result of a function; without a written result it is `unit`. -/
def signature (reports : Bool) (head : FunctionHead) : Check (List TypedParam × Ty) :=
  withGenerics head.typeParams do
    let ps ← params reports head.params
    let ret ← optionalType reports head.returnType
    return (ps, ret.getD .unit)

def functionType (ps : List TypedParam) (ret : Ty) : Ty :=
  .function (.mk (ps.map TypedParam.type) ret)

def fields (isPublic : Bool) (fs : List FieldDecl) : Check (List Field) :=
  fs.mapM fun f => do return ⟨f.name, ← resolveType true f.type, f.isPublic || isPublic⟩

def cases (isPublic : Bool) (cs : List CaseDecl) : Check (List Case) :=
  cs.mapM fun c => do return ⟨c.name, ← fields isPublic c.fields, c.isPublic || isPublic⟩

/-- The definition of a `data` type. With the type, all its cases and fields are public. -/
def definition (decl : DataDecl) : Check Definition := do
  let cs ← withGenerics decl.typeParams (cases decl.isPublic decl.cases)
  return ⟨(← get).path, decl.name, decl.typeParams, decl.isPublic, cs⟩

/-- Declares a symbol of the package. -/
def declare (s : Symbol) : Check Unit := do
  let path := (← get).path
  modifyNamespace fun ns => ns.addSymbol path s

/-- Makes a definition known, with its constructors. -/
def define (d : Definition) : Check Unit := do
  d.cases.forM fun c => declare ⟨c.name, d.constructorType c, c.isPublic, false⟩
  let path := (← get).path
  modifyNamespace fun ns => ns.define path d

/-- A type without its cases, so that cases can refer to it. -/
def defineShell (decl : DataDecl) : Check Unit := do
  let path := (← get).path
  modifyNamespace fun ns => ns.define path ⟨path, decl.name, decl.typeParams, decl.isPublic, []⟩

def shellOf : Node → Check Unit
  | .data decl _ => defineShell decl
  | _ => pure ()

def definitionOf : Node → Check Unit
  | .data decl _ => do define (← definition decl)
  | _ => pure ()

def functionOf : Node → Check Unit
  | .function head _ _ => do
    let (ps, ret) ← signature true head
    declare ⟨head.name, functionType ps ret, head.isPublic, false⟩
  | _ => pure ()

/-- Types come first, then their cases, then functions. -/
def register (items : List Node) : Check Unit := do
  items.forM shellOf
  items.forM definitionOf
  items.forM functionOf

end Tern.Check
