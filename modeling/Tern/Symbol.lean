import Tern.Table
import Tern.Ty.Overload

/-!
Names with their types, as a scope or a package declares them.
-/

set_option autoImplicit false

namespace Tern

structure Symbol where
  name : String
  type : Ty
  /-- Seen from other modules. -/
  isPublic : Bool
  /-- Can be assigned to. -/
  isMutable : Bool

namespace Symbol

/-- The symbol after its name is declared again: the types are joined, and the flags are the new
ones. -/
def redeclare (old new : Symbol) : Symbol := { new with type := old.type.redeclare new.type }

def beq (a b : Symbol) : Bool :=
  a.name == b.name && a.type == b.type && a.isPublic == b.isPublic && a.isMutable == b.isMutable

/-- The declarations of a scope after one more. -/
def declare (new : Symbol) (symbols : List Symbol) : List Symbol :=
  Table.put Symbol.name new.name
    (fun old? => match old? with
      | some old => old.redeclare new
      | none => new)
    symbols

def find? (name : String) (symbols : List Symbol) : Option Symbol :=
  Table.find? Symbol.name name symbols

end Symbol

end Tern
