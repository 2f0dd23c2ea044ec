import Tern.Proofs.Twin.Expr
import Tern.Proofs.Check.Unit

/-!
Whole items in twin contexts, and the steps that register them.
-/

set_option autoImplicit false

namespace Tern

/-- What is looked for when the item is checked is alike; a `data` declaration is only looked up. -/
def Outlook.AdmitsItem (o : Outlook) : Node → Prop
  | .data _ _ => True
  | n => ∀ m ∈ n.nodes, o.Admits m

/-! Twins are equivalent -/

section

variable {path : PackagePath} {reads : PackagePath → String → Prop} {a b c : Namespace}

theorem Namespace.Like.refl (ns : Namespace) : ns.Like path reads ns :=
  ⟨fun _ _ _ => rfl, fun _ _ _ => rfl, fun _ _ => rfl, fun _ => rfl⟩

theorem Namespace.Like.symm (h : a.Like path reads b) : b.Like path reads a :=
  ⟨fun p x hr => (h.symbol p x hr).symm, fun p x hp => (h.shown p x hp).symm,
    fun p x => (h.definition p x).symm, fun p => (h.package p).symm⟩

theorem Namespace.Like.trans (h : a.Like path reads b) (k : b.Like path reads c) :
    a.Like path reads c :=
  ⟨fun p x hr => (k.symbol p x hr).trans (h.symbol p x hr),
    fun p x hp => (k.shown p x hp).trans (h.shown p x hp),
    fun p x => (k.definition p x).trans (h.definition p x),
    fun p => (k.package p).trans (h.package p)⟩

end

namespace Context

variable {o : Outlook} {a b c : Context}

theorem Twin.symm (h : a.Twin o b) : b.Twin o a where
  path := h.path'
  path' := h.path
  imports := h.imports'
  imports' := h.imports
  returnTypes := h.returnTypes.symm
  generics := h.generics.symm
  placed := h.placed'
  placed' := h.placed
  level := h.level.symm
  tables := h.tables.symm
  ns := h.ns.symm
  program := fun hexact => ⟨(h.program hexact).1.symm, (h.program hexact).2.symm⟩

theorem Twin.trans (h : a.Twin o b) (k : b.Twin o c) : a.Twin o c where
  path := h.path
  path' := k.path'
  imports := h.imports
  imports' := k.imports'
  returnTypes := k.returnTypes.trans h.returnTypes
  generics := k.generics.trans h.generics
  placed := h.placed
  placed' := k.placed'
  level := k.level.trans h.level
  tables := k.tables.trans h.tables
  ns := h.ns.trans k.ns
  program := fun hexact => ⟨(k.program hexact).1.trans (h.program hexact).1,
    (k.program hexact).2.trans (h.program hexact).2⟩

theorem Twin.symbolOf_eq (h : a.Twin o b) (head : FunctionHead) : b.symbolOf head = a.symbolOf head := by
  rw [symbolOf, symbolOf, h.typeScope_eq]

end Context

namespace Check

open Reference

variable {o : Outlook} {c c' : Context}

/-! Registration -/

theorem pairs_shellOf (ht : c.Twin o c') (n : Node) :
    Pairs o Equal (shellOf n) (shellOf n) c c' := by
  cases n with
  | data decl span =>
    exact pairs_modify_define ht fun path => ⟨path, decl.name, decl.typeParams, decl.isPublic, []⟩
  | _ => exact pairs_pure ht rfl

theorem pairs_definitionOf (ht : c.Twin o c') (n : Node) :
    Pairs o Equal (definitionOf n) (definitionOf n) c c' := by
  cases n with
  | data decl span =>
    exact (pairs_definition ht decl).bind_equal fun d _ _ hon => pairs_define hon.twin d
  | _ => exact pairs_pure ht rfl

theorem pairs_functionOf (ht : c.Twin o c') (n : Node) :
    Pairs o Equal (functionOf n) (functionOf n) c c' := by
  cases n with
  | function head body span =>
    exact ((reads_signature true head).pairs ht).bind_equal fun _ _ _ hon => pairs_declare hon.twin _
  | _ => exact pairs_pure ht rfl

theorem pairs_register (ht : c.Twin o c') (nodes : List Node) :
    Pairs o Equal (register nodes) (register nodes) c c' := by
  refine (pairs_forM_same (fun n _ _ ht => pairs_shellOf ht n) ht nodes).bind_equal
    fun _ _ _ hon => ?_
  refine (pairs_forM_same (fun n _ _ ht => pairs_definitionOf ht n) hon.twin nodes).bind_equal
    fun _ _ _ hon' => ?_
  exact pairs_forM_same (fun n _ _ ht => pairs_functionOf ht n) hon'.twin nodes

/-! Items -/

/-- Both items are made, and are the same. -/
def SameItem (o : Outlook) (c c' : Context) (r r' : Except CheckFault Nat) : Prop :=
  ∃ i i', r = .ok i ∧ r' = .ok i' ∧ SameValue o c c' i i'

theorem Pairs.of_run {α : Type} {V : Context → Context → α → α → Prop} {m m' n n' : Check α}
    {d d' : Context} (hm : m.run c = n.run d) (hm' : m'.run c' = n'.run d')
    (hon : Onward o c c' d d') (h : Pairs o V n n' d d') : Pairs o V m m' c c' := by
  rw [Pairs, hm, hm']
  exact ⟨hon.trans h.1, h.2⟩

theorem pairs_packageFunction (ht : c.Twin o c') {head : FunctionHead} {body : List Node}
    {span : Span} (hn : c.Registered (.function head body span))
    (hn' : c'.Registered (.function head body span)) (ha : ∀ m ∈ Node.allNodes body, o.Admits m)
    (hr : AllRead o (ofItem (.function head body span))) :
    Pairs o (SameItem o) (packageFunction head body span) (packageFunction head body span) c c' := by
  rw [ofItem, ofNode] at hr
  have hdeclared := pairs_declare ht (c.symbolOf head)
  refine Pairs.of_run (run_packageFunction hn) (run_packageFunction hn')
    (ht.symbolOf_eq head ▸ hdeclared.1) ?_
  rw [ht.typeScope_eq, ht.symbolOf_eq, ht.path, ht.path']
  have ht' : (c.declaring (c.symbolOf head)).Twin o (c'.declaring (c.symbolOf head)) :=
    hdeclared.1.twin
  have hin (x : String) (hx : x ∈ paramNames head.params ++ []) :
      x ∈ (head.signatureIn c.typeScope).1.map TypedParam.name ∨ False := by
    rw [FunctionHead.map_name_signatureIn]
    exact Or.inl (by simpa [paramNames] using hx)
  have hnone (x : String) (hx : False) : Context.Knows
      { c.declaring (c.symbolOf head) with generics := c.generics ++ head.typeParams } o x := hx.elim
  have hvalue := pairs_withGenerics ht' head.typeParams
    (pairs_function (ht'.withGenerics head.typeParams) hnone (head.signatureIn c.typeScope).1
      (some (head.signatureIn c.typeScope).2) (mirrors_statements body ha hr) hin (lastSpan body span)
      span) fun _ _ _ _ h => { h with }
  refine hvalue.bind fun i i' d d' hon hi => ?_
  refine Pairs.bind (V := SameValue o)
    (pairs_alloc hon.twin .unit rfl fun hexact => by rw [hi.number hexact]) ?_
  exact fun j j' e e' k hj => pairs_pure k.twin ⟨j, j', rfl, rfl, hj⟩

theorem pairs_packageData (ht : c.Twin o c') {decl : DataDecl} {span : Span}
    (hn : c.Registered (.data decl span)) :
    Pairs o (SameItem o) (packageData decl span) (packageData decl span) c c' := by
  unfold packageData
  refine pairs_get_bind ?_
  rw [ht.ns.definition, ht.path, ht.path']
  obtain ⟨d, hd⟩ := Option.isSome_iff_exists.mp hn.1
  rw [ht.path] at hd
  rw [hd]
  refine Pairs.bind (V := SameValue o) (pairs_alloc ht .unit rfl fun _ => rfl) ?_
  exact fun j j' e e' k hj => pairs_pure k.twin ⟨j, j', rfl, rfl, hj⟩

/-- An item goes alike in twin contexts in which it is registered. -/
theorem pairs_item {n : Node} (ht : c.Twin o c') (hn : c.Registered n) (hn' : c'.Registered n)
    (ha : o.AdmitsItem n) (hr : AllRead o (ofItem n)) :
    Pairs o (SameItem o) (item n) (item n) c c' := by
  have hother (ha : ∀ m ∈ n.nodes, o.Admits m) : Pairs o (SameItem o)
      (do return Except.ok (← expr n)) (do return Except.ok (← expr n)) c c' := by
    refine (mirrors_expr (p := .part) n ha hr c c' ht (by simp) trivial).bind ?_
    exact fun i i' d d' hon hi => pairs_pure hon.twin ⟨i, i', rfl, rfl, hi⟩
  cases n with
  | function head body span =>
    simp only [Outlook.AdmitsItem, Node.nodes, List.forall_mem_cons] at ha
    exact pairs_packageFunction ht hn hn' ha.2 hr
  | data decl span => exact pairs_packageData ht hn
  | _ => exact hother ha

end Check

end Tern
