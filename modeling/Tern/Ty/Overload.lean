import Tern.Ty

/-!
Sets of signatures under one name, at most one for each list of parameters, and the type of a name
that is declared again.
-/

set_option autoImplicit false

namespace Tern

namespace Overload

/-- Adds a signature at the end, or in the place of the one with the same parameters. -/
def insert (s : Signature) : List Signature → List Signature
  | [] => [s]
  | t :: ts => if t.params == s.params then s :: ts else t :: insert s ts

/-- Adds signatures one after the other. -/
def extend (set : List Signature) (more : List Signature) : List Signature :=
  more.foldl (fun set s => insert s set) set

def ofList (members : List Signature) : List Signature := extend [] members

end Overload

/-- The type of a name after it is declared again. A function replaces one with the same parameters
and joins others; all else is replaced. -/
def Ty.redeclare : Ty → Ty → Ty
  | .function old, .function new =>
    if old.params == new.params then .function new else .overloaded (Overload.ofList [old, new])
  | .overloaded set, .function new => .overloaded (Overload.insert new set)
  | .function old, .overloaded new => .overloaded (Overload.extend [old] new)
  | .overloaded set, .overloaded new => .overloaded (Overload.extend set new)
  | _, incoming => incoming

end Tern
