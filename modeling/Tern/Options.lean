import Tern.Namespace

/-!
How a unit is compiled.
-/

set_option autoImplicit false

namespace Tern

structure Options where
  /-- The package of a unit that names none. -/
  defaultPath : PackagePath
  /-- The name of the source in reports. -/
  fileName : String
  /-- New namespaces have the built-in functions. -/
  hasPrelude : Bool
  deriving DecidableEq, Repr

namespace Options

def default : Options := ⟨⟨"user", "default"⟩, "<input>", true⟩

/-- The namespace of a new session. -/
def freshNamespace (o : Options) : Namespace := if o.hasPrelude then .withPrelude else .empty

end Options

end Tern
