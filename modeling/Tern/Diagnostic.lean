import Tern.Ty.Resolve

/-!
What can be wrong with the meaning of a unit, and the words in which it is reported.
-/

set_option autoImplicit false

namespace Tern

inductive Problem
  | unrecognizedName (name : String)
  | notAFunction (name : String) (type : Ty)
  | functionArity (expected actual : Nat)
  | typeMismatch (expected actual : Ty)
  | notIndexable (type : Ty)
  | missingReturnValue (expected : Ty)
  | branchMismatch (thenType elseType : Ty)
  | unresolvedType (name : String)
  | typeArity (name : String) (expected actual : Nat)
  | cyclicDeclaration (names : List String)
  | noMatchingOverload (name : String) (args : List Ty)
  | immutableAssignment (name : String)
  | unknownMember (type : Ty) (member : String)
  | unknownPackage (path : String)
  | returnOutsideFunction

namespace Problem

def code : Problem → String
  | unrecognizedName _ => "tern::unrecognized_name"
  | notAFunction _ _ => "tern::not_a_function"
  | functionArity _ _ => "tern::function_arity_mismatch"
  | typeMismatch _ _ => "tern::type_mismatch"
  | notIndexable _ => "tern::type_is_not_indexable"
  | missingReturnValue _ => "tern::missing_return_value"
  | branchMismatch _ _ => "tern::if_else_branches_type_mismatch"
  | unresolvedType _ => "tern::unresolved_type_reference"
  | typeArity _ _ _ => "tern::type_arity_mismatch"
  | cyclicDeclaration _ => "tern::cyclic_declaration"
  | noMatchingOverload _ _ => "tern::no_matching_overload"
  | immutableAssignment _ => "tern::immutable_assignment"
  | unknownMember _ _ => "tern::unknown_member"
  | unknownPackage _ => "tern::unknown_package"
  | returnOutsideFunction => "tern::return_outside_function"

def message : Problem → String
  | unrecognizedName name => "unrecognized name `" ++ name ++ "`"
  | notAFunction name type => "`" ++ name ++ "` is not a function, its type is " ++ type.text
  | functionArity expected actual =>
    "expected " ++ toString expected ++ " argument(s), found " ++ toString actual
  | typeMismatch expected actual =>
    "type mismatch: expected " ++ expected.text ++ ", found " ++ actual.text
  | notIndexable type => "type " ++ type.text ++ " cannot be indexed"
  | missingReturnValue expected => "missing return value of type " ++ expected.text
  | branchMismatch thenType elseType =>
    "if and else branches have different types: " ++ thenType.text ++ " and " ++ elseType.text
  | unresolvedType name => (TypeRefError.unresolved name ⟨0, 0⟩).message
  | typeArity name expected actual => (TypeRefError.arity name expected actual ⟨0, 0⟩).message
  | cyclicDeclaration names => "cyclic declaration: " ++ " -> ".intercalate names
  | noMatchingOverload name args =>
    "no overload of `" ++ name ++ "` accepts (" ++ ", ".intercalate (Ty.texts args) ++ ")"
  | immutableAssignment name => "cannot assign to immutable `" ++ name ++ "`"
  | unknownMember type member => "type " ++ type.text ++ " has no member `" ++ member ++ "`"
  | unknownPackage path => "unknown package `" ++ path ++ "`"
  | returnOutsideFunction => "`return` outside of a function"

/-- What stands under the place in the source. -/
def label : Problem → String
  | unrecognizedName _ => "not found in this scope"
  | notAFunction _ _ => "called here"
  | functionArity expected _ => "expected " ++ toString expected ++ " argument(s)"
  | typeMismatch expected _ => "expected " ++ expected.text
  | notIndexable _ => "indexed here"
  | missingReturnValue _ => "function body produces no value"
  | branchMismatch _ _ => "branches disagree"
  | unresolvedType _ => "unknown type"
  | typeArity _ expected _ => "expected " ++ toString expected ++ " type argument(s)"
  | cyclicDeclaration _ => "declared in a cycle"
  | noMatchingOverload _ _ => "no matching signature"
  | immutableAssignment _ => "assigned here"
  | unknownMember _ _ => "unknown member"
  | unknownPackage _ => "unknown package"
  | returnOutsideFunction => "not inside a function"

end Problem

structure Diagnostic where
  problem : Problem
  span : Span

def Diagnostic.ofTypeRefError : TypeRefError → Diagnostic
  | .unresolved name span => ⟨.unresolvedType name, span⟩
  | .arity name expected actual span => ⟨.typeArity name expected actual, span⟩

end Tern
