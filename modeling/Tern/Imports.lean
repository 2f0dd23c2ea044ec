import Tern.Namespace
import Tern.Diagnostic

/-!
What the imports of a unit bind: names for whole packages, and names for single symbols and types.
-/

set_option autoImplicit false

namespace Tern

structure ImportedName where
  path : PackagePath
  name : String
  deriving DecidableEq, Repr

structure Imports where
  /-- Packages by their names in the unit, the newest first. -/
  packages : List (String × PackagePath) := []
  /-- Imported names by their names in the unit, the newest first. -/
  names : List (String × ImportedName) := []

namespace Imports

def package? (i : Imports) (name : String) : Option PackagePath := i.packages.lookup name

def name? (i : Imports) (name : String) : Option ImportedName := i.names.lookup name

/-- The name that an import binds to the whole package. Without a list of names it is the name of
the package itself. -/
def packageName? (decl : ImportDecl) : Option String :=
  match decl.packageName with
  | some name => some name
  | none => if decl.entries.isEmpty then some decl.path.package else none

/-- A name can be imported if its symbol is public, or, if there is no such symbol, its type; in
the same module in any case. -/
def isVisible (package : Package) (sameModule : Bool) (name : String) : Bool :=
  match package.symbol? name, package.definition? name with
  | some s, _ => s.isPublic || sameModule
  | none, some d => d.isPublic || sameModule
  | none, none => false

abbrev Outcome := Imports × List Diagnostic

def addEntry (package : Package) (path : PackagePath) (sameModule : Bool) (o : Outcome)
    (entry : ImportEntry) : Outcome :=
  if isVisible package sameModule entry.name then
    ({ o.1 with names := (entry.localName, ⟨path, entry.name⟩) :: o.1.names }, o.2)
  else (o.1, o.2 ++ [⟨.unrecognizedName entry.name, entry.span⟩])

def addDecl (ns : Namespace) (module : String) (o : Outcome) (decl : ImportDecl) : Outcome :=
  match ns.package? decl.path with
  | none => (o.1, o.2 ++ [⟨.unknownPackage decl.path.text, decl.span⟩])
  | some package =>
    let packages := ((packageName? decl).map fun name => (name, decl.path)).toList ++ o.1.packages
    decl.entries.foldl (addEntry package decl.path (decl.path.module == module))
      ({ o.1 with packages }, o.2)

/-- The imports of a unit in the given module, with reports on what is not there. -/
def ofDecls (ns : Namespace) (module : String) (decls : List ImportDecl) : Outcome :=
  decls.foldl (addDecl ns module) ({}, [])

end Imports

end Tern
