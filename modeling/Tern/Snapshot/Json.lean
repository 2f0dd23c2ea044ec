import Tern.Snapshot
import Tern.Json.Read

/-!
The JSON form of types, symbols, definitions and snapshots. A record may be written as an object or
as an array of its fields in order; fields that are not known are passed over, and a known field
stands at most once. Values nest at most 127 deep.
-/

set_option autoImplicit false

namespace Tern

namespace Json

def strings (xs : List String) : Json := array (xs.map string)

def ofOption {α : Type} (f : α → Json) : Option α → Json
  | some a => f a
  | none => null

end Json

def Primitive.tag : Primitive → String
  | .unit => "Unit"
  | .int => "Int"
  | .float => "Float"
  | .bool => "Bool"
  | .string => "String"
  | .any => "Any"

/-- The fields of a reference to a variant type; its arguments are given in their JSON form. -/
def VariantHead.toJson (h : VariantHead) (args : List Json) : Json :=
  .object [("module", .string h.path.module), ("package", .string h.path.package),
    ("name", .string h.name), ("type_params", .strings h.typeParams), ("type_args", .array args),
    ("case", .ofOption .string h.case)]

mutual
def Ty.toJson : Ty → Json
  | .primitive p => .object [("Primitive", .string p.tag)]
  | .function s => .object [("Function", s.toJson)]
  | .overloaded ss => .object [("Overloaded", .object [("members", .array (Signature.toJsons ss))])]
  | .param name => .object [("TypeParameter", .string name)]
  | .variant head args => .object [("Variant", head.toJson (Ty.toJsons args))]
  | .array t => .object [("Array", t.toJson)]
def Ty.toJsons : List Ty → List Json
  | [] => []
  | t :: ts => t.toJson :: Ty.toJsons ts
def Signature.toJson : Signature → Json
  | .mk params ret => .object [("params", .array (Ty.toJsons params)), ("ret", ret.toJson)]
def Signature.toJsons : List Signature → List Json
  | [] => []
  | s :: ss => s.toJson :: Signature.toJsons ss
end

def Symbol.toJson (s : Symbol) : Json :=
  .object [("name", .string s.name), ("ty", s.type.toJson), ("public", .bool s.isPublic),
    ("mutable", .bool s.isMutable)]

def Field.toJson (f : Field) : Json :=
  .object [("name", .string f.name), ("ty", f.type.toJson), ("public", .bool f.isPublic)]

def Case.toJson (c : Case) : Json :=
  .object [("name", .string c.name), ("fields", .array (c.fields.map Field.toJson)),
    ("public", .bool c.isPublic)]

def Definition.toJson (d : Definition) : Json :=
  .object [("module", .string d.path.module), ("package", .string d.path.package),
    ("name", .string d.name), ("type_params", .strings d.typeParams), ("public", .bool d.isPublic),
    ("cases", .array (d.cases.map Case.toJson))]

def PackageImage.toJson (p : PackageImage) : Json :=
  .object [("name", .string p.name), ("symbols", .array (p.symbols.map Symbol.toJson)),
    ("variants", .array (p.definitions.map Definition.toJson))]

def ModuleImage.toJson (m : ModuleImage) : Json :=
  .object [("name", .string m.name), ("packages", .array (m.packages.map PackageImage.toJson))]

def Snapshot.toJson (s : Snapshot) : Json :=
  .object [("modules", .array (s.modules.map ModuleImage.toJson))]

namespace Json

/-- How many levels of nesting a value may open; what is left has to stay above zero. -/
def maxDepth : Nat := 128

def string? : Json → Option String
  | string s => some s
  | _ => none

def bool? : Json → Option Bool
  | bool b => some b
  | _ => none

/-- The elements of an array. -/
def elements? (depth : Nat) : Json → Option (List Json)
  | array xs => if 2 ≤ depth then some xs else none
  | _ => none

def list? {α : Type} (depth : Nat) (read : Nat → Json → Option α) (j : Json) :
    Option (List α) :=
  (j.elements? depth).bind fun xs => xs.mapM (read (depth - 1))

def strings? (depth : Nat) (j : Json) : Option (List String) := j.list? depth fun _ => string?

/-- The value of a field that stands at most once. -/
def single? (name : String) (fields : List (String × Json)) : Option (Option Json) :=
  match fields.filter fun f => f.1 == name with
  | [] => some none
  | [f] => some (some f.2)
  | _ => none

/-- The fields of a record by their names, in order. An array holds the first fields, at least
`least` of them. -/
def record? (depth : Nat) (names : List String) (least : Nat) : Json → Option (List (Option Json))
  | object fields => if 2 ≤ depth then names.mapM (single? · fields) else none
  | array xs =>
    if 2 ≤ depth ∧ least ≤ xs.length ∧ xs.length ≤ names.length then
      some (names.zipIdx.map fun (_, i) => xs[i]?)
    else none
  | _ => none

/-- The tag and the content of a tagged value. -/
def tagged? (depth : Nat) : Json → Option (String × Json)
  | object [(tag, content)] => if 2 ≤ depth then some (tag, content) else none
  | _ => none

end Json

def Primitive.ofTag? (tag : String) : Option Primitive :=
  Primitive.all.find? fun p => p.tag == tag

/-- A tag alone, or with `null` as its content. -/
def Primitive.ofJson? (depth : Nat) (j : Json) : Option Primitive :=
  match j with
  | .string tag => Primitive.ofTag? tag
  | _ =>
    match j.tagged? depth with
    | some (tag, .null) => Primitive.ofTag? tag
    | _ => none

mutual
def Ty.ofJson? (depth : Nat) (j : Json) : Option Ty :=
  if _ : depth < 2 then none
  else
    match j.tagged? depth with
    | some ("Primitive", content) => (Primitive.ofJson? (depth - 1) content).map .primitive
    | some ("Function", content) => (Signature.ofJson? (depth - 1) content).map .function
    | some ("Overloaded", content) =>
      match content.record? (depth - 1) ["members"] 1 with
      | some [some members] =>
        ((members.elements? (depth - 2)).bind fun xs =>
          xs.mapM fun x => Signature.ofJson? (depth - 3) x).map .overloaded
      | _ => none
    | some ("TypeParameter", content) => content.string?.map .param
    | some ("Variant", content) =>
      match content.record? (depth - 1)
          ["module", "package", "name", "type_params", "type_args", "case"] 6 with
      | some [some module, some package, some name, some params, some args, case] =>
        match module.string?, package.string?, name.string?, params.strings? (depth - 2),
            (args.elements? (depth - 2)).bind (fun xs => xs.mapM fun x => Ty.ofJson? (depth - 3) x)
            with
        | some module, some package, some name, some params, some args =>
          match case with
          | none | some .null => some (.variant ⟨⟨module, package⟩, name, params, none⟩ args)
          | some (.string case) =>
            some (.variant ⟨⟨module, package⟩, name, params, some case⟩ args)
          | some _ => none
        | _, _, _, _, _ => none
      | _ => none
    | some ("Array", content) => (Ty.ofJson? (depth - 1) content).map .array
    | _ => none
termination_by depth
def Signature.ofJson? (depth : Nat) (j : Json) : Option Signature :=
  if _ : depth < 2 then none
  else
    match j.record? depth ["params", "ret"] 2 with
    | some [some params, some ret] =>
      match (params.elements? (depth - 1)).bind
          (fun xs => xs.mapM fun x => Ty.ofJson? (depth - 2) x),
          Ty.ofJson? (depth - 1) ret with
      | some params, some ret => some (.mk params ret)
      | _, _ => none
    | _ => none
termination_by depth
end

def Symbol.ofJson? (depth : Nat) (j : Json) : Option Symbol :=
  match j.record? depth ["name", "ty", "public", "mutable"] 4 with
  | some [some name, some type, some isPublic, some isMutable] => do
    some ⟨← name.string?, ← Ty.ofJson? (depth - 1) type, ← isPublic.bool?, ← isMutable.bool?⟩
  | _ => none

def Field.ofJson? (depth : Nat) (j : Json) : Option Field :=
  match j.record? depth ["name", "ty", "public"] 3 with
  | some [some name, some type, some isPublic] => do
    some ⟨← name.string?, ← Ty.ofJson? (depth - 1) type, ← isPublic.bool?⟩
  | _ => none

def Case.ofJson? (depth : Nat) (j : Json) : Option Case :=
  match j.record? depth ["name", "fields", "public"] 3 with
  | some [some name, some fields, some isPublic] => do
    some ⟨← name.string?, ← fields.list? (depth - 1) Field.ofJson?, ← isPublic.bool?⟩
  | _ => none

def Definition.ofJson? (depth : Nat) (j : Json) : Option Definition :=
  match j.record? depth ["module", "package", "name", "type_params", "public", "cases"] 6 with
  | some [some module, some package, some name, some params, some isPublic, some cases] => do
    some ⟨⟨← module.string?, ← package.string?⟩, ← name.string?, ← params.strings? (depth - 1),
      ← isPublic.bool?, ← cases.list? (depth - 1) Case.ofJson?⟩
  | _ => none

/-- Symbols and definitions may be left out. -/
def PackageImage.ofJson? (depth : Nat) (j : Json) : Option PackageImage :=
  match j.record? depth ["name", "symbols", "variants"] 1 with
  | some [some name, symbols, definitions] => do
    some ⟨← name.string?, ← (symbols.getD (.array [])).list? (depth - 1) Symbol.ofJson?,
      ← (definitions.getD (.array [])).list? (depth - 1) Definition.ofJson?⟩
  | _ => none

def ModuleImage.ofJson? (depth : Nat) (j : Json) : Option ModuleImage :=
  match j.record? depth ["name", "packages"] 2 with
  | some [some name, some packages] => do
    some ⟨← name.string?, ← packages.list? (depth - 1) PackageImage.ofJson?⟩
  | _ => none

def Snapshot.ofJson? (j : Json) : Option Snapshot :=
  match j.record? Json.maxDepth ["modules"] 1 with
  | some [some modules] => (modules.list? (Json.maxDepth - 1) ModuleImage.ofJson?).map .mk
  | _ => none

namespace Namespace

def toJson (ns : Namespace) : String := ns.snapshot.toJson.pretty 0

def ofJson? (text : String) : Option Namespace :=
  ((Json.ofText? text).bind Snapshot.ofJson?).map ofSnapshot

end Namespace

end Tern
