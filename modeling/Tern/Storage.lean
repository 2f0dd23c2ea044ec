import Tern.Scope

/-!
Where a variable lives when the program runs. It follows from the scope that declares it and the
scope that uses it.
-/

set_option autoImplicit false

namespace Tern

/-- What a use of a variable refers to. -/
inductive Target
  | package (path : PackagePath) (name : String)
  | nested (scope : Nat) (name : String)
  deriving DecidableEq, Repr

/-- A use of a variable, in a scope. -/
structure Access where
  target : Target
  scope : Nat
  span : Span
  deriving DecidableEq, Repr

inductive Storage
  | frame (name : String)
  /-- Declared `depth` functions further out. -/
  | outer (name : String) (depth : Nat)
  /-- A parameter of the function itself. -/
  | argument (index : Nat)
  | package (path : PackagePath) (name : String)
  deriving DecidableEq, Repr

def Storage.text : Storage → String
  | .frame name => "local " ++ name
  | outer name depth => "outer " ++ name ++ " depth " ++ toString depth
  | argument index => "arg " ++ toString index
  | package path name => "package " ++ path.text ++ "." ++ name

inductive LowerFault
  | errorNode (span : Span)
  | unreachable (name : String) (span : Span)
  deriving DecidableEq, Repr

def LowerFault.message : LowerFault → String
  | errorNode span =>
    "error node at " ++ toString span.start ++ ".." ++ toString span.stop ++ " reached lowering"
  | unreachable name _ => "`" ++ name ++ "` is used outside the scope declaring it"

/-- The number of functions that are left on the way from the first scope of the list to the scope
`declaring`, which is in the list. -/
def ScopeTree.boundaries? (t : ScopeTree) (declaring : Nat) : List Nat → Option Nat
  | [] => none
  | s :: rest =>
    if s = declaring then some 0
    else (t.boundaries? declaring rest).map fun n => if t.isFunction s then n + 1 else n

/-- A parameter that is used in its own function is an argument; behind a function it is captured
like any variable. -/
def Storage.classify (t : ScopeTree) (access : Access) : Except LowerFault Storage :=
  match access.target with
  | .package path name => .ok (.package path name)
  | .nested declaring name =>
    match t.boundaries? declaring (t.ancestors access.scope) with
    | none => .error (.unreachable name access.span)
    | some (depth + 1) => .ok (.outer name (depth + 1))
    | some 0 =>
      if t.isFunction declaring then
        match t.parameterIndex? declaring name with
        | some index => .ok (.argument index)
        | none => .ok (.frame name)
      else .ok (.frame name)

end Tern
