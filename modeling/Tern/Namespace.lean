import Tern.Symbol
import Tern.Definition

/-!
All packages that are known, by module. Units are compiled into a namespace one after the other;
what is declared again is joined with what was there.
-/

set_option autoImplicit false

namespace Tern

structure Package where
  path : PackagePath
  symbols : List Symbol := []
  definitions : List Definition := []

namespace Package

def addSymbol (p : Package) (s : Symbol) : Package := { p with symbols := s.declare p.symbols }

def symbol? (p : Package) (name : String) : Option Symbol := Symbol.find? name p.symbols

def define (p : Package) (d : Definition) : Package :=
  { p with definitions := d.define p.definitions }

def definition? (p : Package) (name : String) : Option Definition :=
  Definition.find? name p.definitions

def same (a b : Package) : Bool :=
  a.path == b.path && Table.same Symbol.name Symbol.beq a.symbols b.symbols
    && Table.same Definition.name Definition.beq a.definitions b.definitions

end Package

structure Module where
  name : String
  packages : List Package := []

namespace Module

def key (p : Package) : String := p.path.package

def package? (m : Module) (name : String) : Option Package := Table.find? key name m.packages

def same (a b : Module) : Bool :=
  a.name == b.name && Table.same key Package.same a.packages b.packages

end Module

structure Namespace where
  modules : List Module := []

namespace Namespace

def empty : Namespace := {}

def module? (ns : Namespace) (name : String) : Option Module :=
  Table.find? Module.name name ns.modules

def package? (ns : Namespace) (path : PackagePath) : Option Package :=
  (ns.module? path.module).bind fun m => m.package? path.package

/-- All packages, module by module. -/
def packages (ns : Namespace) : List Package := ns.modules.flatMap Module.packages

/-- Changes a package, which is created if it is not there. -/
def modifyPackage (ns : Namespace) (path : PackagePath) (f : Package → Package) : Namespace :=
  { modules := Table.put Module.name path.module
      (fun m? =>
        { name := path.module
          packages := Table.put Module.key path.package
            (fun p? => f (p?.getD { path })) ((m?.map Module.packages).getD []) })
      ns.modules }

def ensurePackage (ns : Namespace) (path : PackagePath) : Namespace := ns.modifyPackage path id

def addSymbol (ns : Namespace) (path : PackagePath) (s : Symbol) : Namespace :=
  ns.modifyPackage path fun p => p.addSymbol s

def define (ns : Namespace) (path : PackagePath) (d : Definition) : Namespace :=
  ns.modifyPackage path fun p => p.define d

def symbol? (ns : Namespace) (path : PackagePath) (name : String) : Option Symbol :=
  (ns.package? path).bind fun p => p.symbol? name

def definition? (ns : Namespace) (path : PackagePath) (name : String) : Option Definition :=
  (ns.package? path).bind fun p => p.definition? name

/-- The definition behind a variant type. -/
def definitionOf? (ns : Namespace) (head : VariantHead) : Option Definition :=
  ns.definition? head.path head.name

def hasCase (ns : Namespace) (head : VariantHead) (case : String) : Bool :=
  (ns.definitionOf? head).any fun d => (d.case? case).isSome

/-- Equal up to the order in which things were declared. -/
def same (a b : Namespace) : Bool := Table.same Module.name Module.same a.modules b.modules

/-- The package of the built-in functions. -/
def preludePath : PackagePath := ⟨"std", "lang"⟩

def builtIn (name : String) (params : List Ty) (ret : Ty) : Symbol :=
  ⟨name, .function (.mk params ret), true, false⟩

def builtIns : List Symbol :=
  [builtIn "println" [.any] .unit, builtIn "print" [.any] .unit, builtIn "len" [.string] .int,
    builtIn "len" [.array .any] .int, builtIn "to_string" [.any] .string]

def loadPrelude (ns : Namespace) : Namespace :=
  ns.modifyPackage preludePath fun p => builtIns.foldl Package.addSymbol p

def withPrelude : Namespace := empty.loadPrelude

end Namespace

end Tern
