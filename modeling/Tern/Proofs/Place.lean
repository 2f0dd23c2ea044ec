import Tern.Tree

/-!
Where a node may stand, and what is inside it: nodes, places in the source and calls. Only statements
declare names; what is inside an expression does not, but for the statements of the blocks in it.
-/

set_option autoImplicit false

namespace Tern

/-- Where something stands: inside an expression, or among the statements of a block. -/
inductive Place
  | part
  | statement
  deriving DecidableEq, Repr

mutual
/-- Declarations stand among statements only. -/
def Node.FitsIn : Node → Place → Prop
  | .literal _ _, _ | .name _ _, _ | .qualified _ _ _ _, _ => True
  | .interpolation parts _, _ => Part.AllFit parts
  | .define _ value _, p => p = .statement ∧ value.FitsIn .part
  | .function _ body _, p => p = .statement ∧ Node.AllFit body .statement
  | .data _ _, p => p = .statement
  | .lambda _ _ body _, _ | .block body _, _ => Node.AllFit body .statement
  | .call callee args _, _ => callee.FitsIn .part ∧ Node.AllFit args .part
  | .member n _ _ _, _ | .assign _ _ n _, _ | .unary _ n _, _ | .test n _ _, _ => n.FitsIn .part
  | .index l r _, _ | .binary _ l r _, _ | .loop l r _, _ => l.FitsIn .part ∧ r.FitsIn .part
  | .assignIndex receiver index value _, _ =>
    receiver.FitsIn .part ∧ index.FitsIn .part ∧ value.FitsIn .part
  | .branch condition thenBranch elseBranch _, _ =>
    condition.FitsIn .part ∧ thenBranch.FitsIn .part ∧ Node.OptionFits elseBranch
  | .ret value _, _ => Node.OptionFits value
  | .array elements _, _ => Node.AllFit elements .part
def Node.AllFit : List Node → Place → Prop
  | [], _ => True
  | n :: ns, p => n.FitsIn p ∧ Node.AllFit ns p
def Node.OptionFits : Option Node → Prop
  | none => True
  | some n => n.FitsIn .part
def Part.AllFit : List Part → Prop
  | [] => True
  | .text _ :: ps => Part.AllFit ps
  | .expr n :: ps => n.FitsIn .part ∧ Part.AllFit ps
end

mutual
/-- The node and all nodes inside it. -/
def Node.nodes : Node → List Node
  | n@(.literal _ _) | n@(.name _ _) | n@(.qualified _ _ _ _) | n@(.data _ _) => [n]
  | n@(.interpolation parts _) => n :: Part.allNodes parts
  | n@(.define _ value _) => n :: value.nodes
  | n@(.function _ body _) | n@(.lambda _ _ body _) | n@(.block body _) => n :: Node.allNodes body
  | n@(.call callee args _) => n :: (callee.nodes ++ Node.allNodes args)
  | n@(.member m _ _ _) | n@(.assign _ _ m _) | n@(.unary _ m _) | n@(.test m _ _) => n :: m.nodes
  | n@(.index l r _) | n@(.binary _ l r _) | n@(.loop l r _) => n :: (l.nodes ++ r.nodes)
  | n@(.assignIndex receiver index value _) =>
    n :: (receiver.nodes ++ (index.nodes ++ value.nodes))
  | n@(.branch condition thenBranch elseBranch _) =>
    n :: (condition.nodes ++ (thenBranch.nodes ++ Node.optionNodes elseBranch))
  | n@(.ret value _) => n :: Node.optionNodes value
  | n@(.array elements _) => n :: Node.allNodes elements
def Node.allNodes : List Node → List Node
  | [] => []
  | n :: ns => n.nodes ++ Node.allNodes ns
def Node.optionNodes : Option Node → List Node
  | none => []
  | some n => n.nodes
def Part.allNodes : List Part → List Node
  | [] => []
  | .text _ :: ps => Part.allNodes ps
  | .expr n :: ps => n.nodes ++ Part.allNodes ps
end

theorem Node.nodes_eq (n : Node) : n.nodes = n :: n.nodes.tail := by
  cases n <;> simp [Node.nodes]

theorem Node.mem_nodes_self (n : Node) : n ∈ n.nodes := by
  rw [nodes_eq]
  exact List.mem_cons_self

theorem Node.allNodes_eq_flatMap (ns : List Node) : Node.allNodes ns = ns.flatMap Node.nodes := by
  induction ns with
  | nil => rfl
  | cons n ns ih => rw [Node.allNodes, ih, List.flatMap_cons]

theorem Part.mem_allNodes {ps : List Part} {m : Node} :
    m ∈ Part.allNodes ps ↔ ∃ n, Part.expr n ∈ ps ∧ m ∈ n.nodes := by
  induction ps with
  | nil => simp [Part.allNodes]
  | cons p ps ih => cases p <;> simp [Part.allNodes, ih, or_and_right, exists_or]

/-! Places in the source -/

mutual
/-- The places of a type and its parts. -/
def TypeRef.spans : TypeRef → List Span
  | .named _ span => [span]
  | .function params ret span => span :: (TypeRef.allSpans params ++ ret.spans)
  | .applied base args span => span :: (base.spans ++ TypeRef.allSpans args)
  | .selected base _ span => span :: base.spans
def TypeRef.allSpans : List TypeRef → List Span
  | [] => []
  | r :: rs => r.spans ++ TypeRef.allSpans rs
end

def TypeRef.optionSpans (r : Option TypeRef) : List Span := r.toList.flatMap TypeRef.spans

def Param.allSpans (ps : List Param) : List Span := ps.flatMap fun p => p.type.spans

def CaseDecl.allSpans (cs : List CaseDecl) : List Span :=
  cs.flatMap fun c => c.fields.flatMap fun f => f.type.spans

/-- The places that belong to the node itself and not to the nodes inside it. -/
def Node.places : Node → List Span
  | .qualified _ _ nameSpan span | .member _ _ nameSpan span | .assign _ nameSpan _ span =>
    [span, nameSpan]
  | .define head _ span => span :: TypeRef.optionSpans head.type
  | .function head _ span =>
    span :: (Param.allSpans head.params ++ TypeRef.optionSpans head.returnType)
  | .data decl span => span :: CaseDecl.allSpans decl.cases
  | .lambda ps result _ span => span :: (Param.allSpans ps ++ TypeRef.optionSpans result)
  | n => [n.span]

theorem Node.span_mem_places (n : Node) : n.span ∈ n.places := by
  cases n <;> simp [Node.places, Node.span]

def ImportDecl.places (d : ImportDecl) : List Span := d.span :: d.entries.map ImportEntry.span

/-! Calls in the source -/

/-- A call as it is written. -/
structure CallSite where
  span : Span
  /-- The functions in whose bodies it stands, the outermost first. -/
  around : List FunctionHead

/-- The type parameters of the functions around the call. -/
def CallSite.generics (site : CallSite) : List String := site.around.flatMap FunctionHead.typeParams

mutual
/-- The calls in a node that stands inside the given functions, those in the parts of a call first. -/
def Node.callSites (around : List FunctionHead) : Node → List CallSite
  | .literal _ _ | .name _ _ | .qualified _ _ _ _ | .data _ _ => []
  | .interpolation parts _ => Part.allCallSites around parts
  | .function head body _ => Node.allCallSites (around ++ [head]) body
  | .lambda _ _ body _ | .block body _ => Node.allCallSites around body
  | .call callee args span =>
    callee.callSites around ++ (Node.allCallSites around args ++ [⟨span, around⟩])
  | .define _ n _ | .member n _ _ _ | .assign _ _ n _ | .unary _ n _ | .test n _ _ =>
    n.callSites around
  | .index l r _ | .binary _ l r _ | .loop l r _ => l.callSites around ++ r.callSites around
  | .assignIndex receiver index value _ =>
    receiver.callSites around ++ (index.callSites around ++ value.callSites around)
  | .branch condition thenBranch elseBranch _ =>
    condition.callSites around ++
      (thenBranch.callSites around ++ Node.optionCallSites around elseBranch)
  | .ret value _ => Node.optionCallSites around value
  | .array elements _ => Node.allCallSites around elements
def Node.allCallSites (around : List FunctionHead) : List Node → List CallSite
  | [] => []
  | n :: ns => n.callSites around ++ Node.allCallSites around ns
def Node.optionCallSites (around : List FunctionHead) : Option Node → List CallSite
  | none => []
  | some n => n.callSites around
def Part.allCallSites (around : List FunctionHead) : List Part → List CallSite
  | [] => []
  | .text _ :: ps => Part.allCallSites around ps
  | .expr n :: ps => n.callSites around ++ Part.allCallSites around ps
end

/-- All calls in the items of the unit. -/
def SourceUnit.callSites (u : SourceUnit) : List CallSite := u.items.flatMap (Node.callSites [])

end Tern
