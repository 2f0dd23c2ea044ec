import Tern.Ty.Overload

/-!
Type parameters inside types: whether they occur, their replacement by other types, and their
erasure to `any`.
-/

set_option autoImplicit false

namespace Tern

mutual
def Ty.hasParams : Ty → Bool
  | .primitive _ => false
  | .param _ => true
  | .function s => s.hasParams
  | .overloaded ss => Signature.anyHasParams ss
  | .variant _ args => Ty.anyHasParams args
  | .array t => t.hasParams
def Ty.anyHasParams : List Ty → Bool
  | [] => false
  | t :: ts => t.hasParams || Ty.anyHasParams ts
def Signature.hasParams : Signature → Bool
  | .mk params ret => Ty.anyHasParams params || ret.hasParams
def Signature.anyHasParams : List Signature → Bool
  | [] => false
  | s :: ss => s.hasParams || Signature.anyHasParams ss
end

mutual
/-- The type parameter `name` occurs in the type. -/
def Ty.mentions (name : String) : Ty → Bool
  | .primitive _ => false
  | .param x => x == name
  | .function s => s.mentions name
  | .overloaded ss => Signature.anyMentions name ss
  | .variant _ args => Ty.anyMentions name args
  | .array t => t.mentions name
def Ty.anyMentions (name : String) : List Ty → Bool
  | [] => false
  | t :: ts => t.mentions name || Ty.anyMentions name ts
def Signature.mentions (name : String) : Signature → Bool
  | .mk params ret => Ty.anyMentions name params || ret.mentions name
def Signature.anyMentions (name : String) : List Signature → Bool
  | [] => false
  | s :: ss => s.mentions name || Signature.anyMentions name ss
end

mutual
/-- Number of occurrences of type parameters. -/
def Ty.paramCount : Ty → Nat
  | .primitive _ => 0
  | .param _ => 1
  | .function s => s.paramCount
  | .overloaded ss => Signature.paramCounts ss
  | .variant _ args => Ty.paramCounts args
  | .array t => t.paramCount
def Ty.paramCounts : List Ty → Nat
  | [] => 0
  | t :: ts => t.paramCount + Ty.paramCounts ts
def Signature.paramCount : Signature → Nat
  | .mk params ret => Ty.paramCounts params + ret.paramCount
def Signature.paramCounts : List Signature → Nat
  | [] => 0
  | s :: ss => s.paramCount + Signature.paramCounts ss
end

mutual
/-- Replaces every type parameter that is not in scope by `any`. -/
def Ty.erase (inScope : List String) : Ty → Ty
  | .primitive p => .primitive p
  | .param name => if inScope.contains name then .param name else .any
  | .function s => .function (s.erase inScope)
  | .overloaded ss =>
    if Signature.anyHasParams ss then .overloaded (Overload.ofList (Signature.eraseAll inScope ss))
    else .overloaded ss
  | .variant head args => .variant head (Ty.eraseAll inScope args)
  | .array t => .array (t.erase inScope)
def Ty.eraseAll (inScope : List String) : List Ty → List Ty
  | [] => []
  | t :: ts => t.erase inScope :: Ty.eraseAll inScope ts
def Signature.erase (inScope : List String) : Signature → Signature
  | .mk params ret => .mk (Ty.eraseAll inScope params) (ret.erase inScope)
def Signature.eraseAll (inScope : List String) : List Signature → List Signature
  | [] => []
  | s :: ss => s.erase inScope :: Signature.eraseAll inScope ss
end

/-- Types for parameters; the first one for a name counts. -/
abbrev Bindings := List (String × Ty)

mutual
/-- Replaces parameters by their types. -/
def Ty.replace (bindings : Bindings) : Ty → Ty
  | .primitive p => .primitive p
  | .param name => (bindings.lookup name).getD (.param name)
  | .function s => .function (s.replace bindings)
  | .overloaded ss => .overloaded (Overload.ofList (Signature.replaceAll bindings ss))
  | .variant head args => .variant head (Ty.replaceAll bindings args)
  | .array t => .array (t.replace bindings)
def Ty.replaceAll (bindings : Bindings) : List Ty → List Ty
  | [] => []
  | t :: ts => t.replace bindings :: Ty.replaceAll bindings ts
def Signature.replace (bindings : Bindings) : Signature → Signature
  | .mk params ret => .mk (Ty.replaceAll bindings params) (ret.replace bindings)
def Signature.replaceAll (bindings : Bindings) : List Signature → List Signature
  | [] => []
  | s :: ss => s.replace bindings :: Signature.replaceAll bindings ss
end

/-- Replaces parameters by their types; without bindings nothing is touched. -/
def Ty.substitute (bindings : Bindings) (t : Ty) : Ty :=
  if bindings.isEmpty then t else t.replace bindings

/-- The arguments of a variant type by the names of its parameters; of a name that is repeated, the
last argument counts. -/
def VariantHead.bindings (head : VariantHead) (args : List Ty) : Bindings :=
  (head.typeParams.zip args).reverse

end Tern
