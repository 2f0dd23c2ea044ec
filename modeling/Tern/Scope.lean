import Tern.Symbol

/-!
The tree of nested scopes of one unit. Scopes are numbered in the order of their creation, so that
an enclosing scope has a smaller number than what it encloses; the root, number 0, stands for the
package, whose symbols are kept elsewhere.
-/

set_option autoImplicit false

namespace Tern

inductive ScopeKind
  | package | function | block
  deriving DecidableEq, Repr

structure Scope where
  parent : Option Nat
  kind : ScopeKind
  symbols : List Symbol
  /-- Names of the parameters of a function, in order. -/
  parameters : List String

structure ScopeTree where
  /-- All scopes, the newest first. -/
  scopes : List Scope

namespace ScopeTree

/-- Only the root. -/
def init : ScopeTree := ⟨[⟨none, .package, [], []⟩]⟩

def root : Nat := 0

def size (t : ScopeTree) : Nat := t.scopes.length

/-- A new scope; its number is the size of the tree before. -/
def createChild (t : ScopeTree) (parent : Nat) (kind : ScopeKind) : ScopeTree :=
  ⟨⟨some parent, kind, [], []⟩ :: t.scopes⟩

def scopeIn? : List Scope → Nat → Option Scope
  | [], _ => none
  | s :: older, id => if id = older.length then some s else scopeIn? older id

def scope? (t : ScopeTree) (id : Nat) : Option Scope := scopeIn? t.scopes id

def kind? (t : ScopeTree) (id : Nat) : Option ScopeKind := (t.scope? id).map Scope.kind

def isFunction (t : ScopeTree) (id : Nat) : Bool := t.kind? id == some .function

def parent? (t : ScopeTree) (id : Nat) : Option Nat := (t.scope? id).bind Scope.parent

def modifyIn (f : Scope → Scope) : List Scope → Nat → List Scope
  | [], _ => []
  | s :: older, id => if id = older.length then f s :: older else s :: modifyIn f older id

def modify (t : ScopeTree) (id : Nat) (f : Scope → Scope) : ScopeTree :=
  ⟨modifyIn f t.scopes id⟩

def addSymbol (t : ScopeTree) (id : Nat) (s : Symbol) : ScopeTree :=
  t.modify id fun scope => { scope with symbols := s.declare scope.symbols }

/-- Adds the next parameter of a function. -/
def addParameter (t : ScopeTree) (id : Nat) (name : String) (type : Ty) : ScopeTree :=
  t.modify id fun scope =>
    { scope with
      parameters := scope.parameters ++ [name]
      symbols := Symbol.declare ⟨name, type, false, false⟩ scope.symbols }

/-- The last place of a name in a list. -/
def lastIndexOf? (name : String) : List String → Option Nat
  | [] => none
  | x :: xs =>
    match lastIndexOf? name xs with
    | some i => some (i + 1)
    | none => if x == name then some 0 else none

/-- The place of a parameter; of a name that is repeated, the last one. -/
def parameterIndex? (t : ScopeTree) (id : Nat) (name : String) : Option Nat :=
  (t.scope? id).bind fun scope => lastIndexOf? name scope.parameters

def ancestorsIn : List Scope → Nat → List Nat
  | [], _ => []
  | s :: older, id =>
    if id = older.length then
      id :: match s.parent with
        | some p => ancestorsIn older p
        | none => []
    else ancestorsIn older id

/-- The scope and those around it, from the inside out. -/
def ancestors (t : ScopeTree) (id : Nat) : List Nat := ancestorsIn t.scopes id

/-- The nearest scope around that declares the name. -/
def lookup (t : ScopeTree) (id : Nat) (name : String) : Option (Nat × Symbol) :=
  (t.ancestors id).findSome? fun a =>
    (t.scope? a).bind fun scope => (Symbol.find? name scope.symbols).map (a, ·)

/-- The nearest scope around of the given kind. -/
def enclosing? (t : ScopeTree) (id : Nat) (kind : ScopeKind) : Option Nat :=
  (t.ancestors id).find? fun a => t.kind? a == some kind

end ScopeTree

end Tern
