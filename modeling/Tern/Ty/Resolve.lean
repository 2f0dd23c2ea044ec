import Tern.Ty

/-!
From a written type to a type. A name is a type parameter in scope, a type that the surroundings
know, or a primitive type, in this order; `array` stands for arrays unless it is one of the first
two.
-/

set_option autoImplicit false

namespace Tern

inductive TypeRefError
  | unresolved (name : String) (span : Span)
  | arity (name : String) (expected actual : Nat) (span : Span)
  deriving DecidableEq, Repr

namespace TypeRefError

def span : TypeRefError → Span
  | unresolved _ s | arity _ _ _ s => s

def message : TypeRefError → String
  | unresolved name _ => "unresolved type reference `" ++ name ++ "`"
  | arity name expected actual _ =>
    "type `" ++ name ++ "` expects " ++ toString expected ++ " type argument(s), found "
      ++ toString actual

end TypeRefError

/-- What the surroundings of a written type know. -/
structure TypeScope where
  generics : List String
  lookup : String → Option Ty
  hasCase : VariantHead → String → Bool

namespace TypeScope

def name? (scope : TypeScope) (name : String) : Option Ty :=
  if scope.generics.contains name then some (.param name)
  else
    match scope.lookup name with
    | some t => some t
    | none => (Primitive.ofText? name).map .primitive

/-- The base of an applied type stands for arrays. -/
def isArrayName (scope : TypeScope) : TypeRef → Bool
  | .named name _ =>
    name == "array" && !scope.generics.contains name && (scope.lookup name).isNone
  | _ => false

def applyArray (args : List Ty) (span : Span) : Except TypeRefError Ty :=
  match args with
  | [element] => .ok (.array element)
  | _ => .error (.arity "array" 1 args.length span)

def applyBase (base : Ty) (args : List Ty) (span : Span) : Except TypeRefError Ty :=
  match base with
  | .variant head _ =>
    if head.typeParams.length = args.length then .ok (.variant head args)
    else .error (.arity head.name head.typeParams.length args.length span)
  | other => .error (.arity other.text 0 args.length span)

mutual
def resolve (scope : TypeScope) : TypeRef → Except TypeRefError Ty
  | .named name span =>
    match scope.name? name with
    | some t => .ok t
    | none => .error (.unresolved name span)
  | .function params ret _ =>
    match resolveAll scope params with
    | .error e => .error e
    | .ok ps =>
      match resolve scope ret with
      | .error e => .error e
      | .ok r => .ok (.function (.mk ps r))
  | .applied base args span =>
    match resolveAll scope args with
    | .error e => .error e
    | .ok as =>
      if scope.isArrayName base then applyArray as span
      else
        match resolve scope base with
        | .error e => .error e
        | .ok b => applyBase b as span
  | .selected base case span =>
    match resolve scope base with
    | .error e => .error e
    | .ok (.variant head args) =>
      if scope.hasCase head case then .ok (.variant { head with case := some case } args)
      else .error (.unresolved (base.text ++ "." ++ case) span)
    | .ok _ => .error (.unresolved (base.text ++ "." ++ case) span)
def resolveAll (scope : TypeScope) : List TypeRef → Except TypeRefError (List Ty)
  | [] => .ok []
  | r :: rs =>
    match resolve scope r with
    | .error e => .error e
    | .ok t =>
      match resolveAll scope rs with
      | .error e => .error e
      | .ok ts => .ok (t :: ts)
end

end TypeScope

end Tern
