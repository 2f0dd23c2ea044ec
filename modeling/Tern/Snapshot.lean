import Tern.Namespace

/-!
Images of a namespace, from which it can be restored.
-/

set_option autoImplicit false

namespace Tern

structure PackageImage where
  name : String
  symbols : List Symbol
  definitions : List Definition

structure ModuleImage where
  name : String
  packages : List PackageImage

structure Snapshot where
  modules : List ModuleImage

namespace Namespace

def snapshot (ns : Namespace) : Snapshot :=
  ⟨ns.modules.map fun m => ⟨m.name, m.packages.map fun p =>
    ⟨p.path.package, p.symbols, p.definitions⟩⟩⟩

def loadPackage (module : String) (ns : Namespace) (image : PackageImage) : Namespace :=
  ns.modifyPackage ⟨module, image.name⟩ fun p =>
    image.definitions.foldl Package.define (image.symbols.foldl Package.addSymbol p)

/-- Joins an image with what is there. A module without packages leaves no trace. -/
def load (ns : Namespace) (s : Snapshot) : Namespace :=
  s.modules.foldl (fun ns m => m.packages.foldl (loadPackage m.name) ns) ns

def ofSnapshot (s : Snapshot) : Namespace := empty.load s

end Namespace

end Tern
