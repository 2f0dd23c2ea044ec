import Mathlib
import Tern.Check
import Tern.Proofs.Imports
import Tern.Proofs.Check.Expr
import Tern.Proofs.Check.Types

/-!
Whole units. No item fails, because what was registered stays there; and what every node keeps holds
of the context at the end.

The whole of Mathlib is imported for the equations of `StateT`, by which `cbv` evaluates the runs of
units in the modules that build on this one.
-/

set_option autoImplicit false

namespace Tern

namespace Context

/-- One more item. -/
def addItem (c : Context) (id : Nat) : Context :=
  { c with program := { c.program with items := c.program.items ++ [id] } }

/-- After the imports. -/
def importing (c : Context) (decls : List ImportDecl) : Context :=
  { c with
    imports := (Imports.ofDecls c.ns c.path.module decls).1
    diagnostics := c.diagnostics ++ (Imports.ofDecls c.ns c.path.module decls).2 }

/-- After a declaration in the package. -/
def declaring (c : Context) (s : Symbol) : Context := { c with ns := c.ns.addSymbol c.path s }

/-- The symbol of a function with the signature that it has here. -/
def symbolOf (c : Context) (head : FunctionHead) : Symbol :=
  ⟨head.name, Check.functionType (head.signatureIn c.typeScope).1 (head.signatureIn c.typeScope).2,
    head.isPublic, false⟩

theorem enlarged_declaring {permit : Permit} {c : Context} {s : Symbol}
    (hs : permit.declares s.name) : c.Enlarged permit (c.declaring s) :=
  enlarged_ns (Namespace.alters_addSymbol _ s hs)

theorem grows_declaring (c : Context) (s : Symbol) : c.Grows (c.declaring s) :=
  { Grows.refl c with ns := Namespace.grows_addSymbol _ _ s }

theorem symbol?_declaring (c : Context) (s : Symbol) :
    (c.declaring s).ns.symbol? c.path s.name = some (s.over (c.ns.symbol? c.path s.name)) :=
  (Namespace.symbol?_addSymbol _ _ s _ _).trans (if_pos ⟨rfl, rfl⟩)

/-- Nothing is made yet, and no scope is open. -/
structure Starts (c : Context) : Prop where
  program : c.program = .init c.path
  scope : c.scope = ScopeTree.root

/-- The imports and the declarations of the unit are known, and no report blames the type `any`. -/
structure Prepares (u : SourceUnit) (ns : Namespace) (default : PackagePath) (c : Context) : Prop where
  path : c.path = u.path default
  imports : c.imports = (Imports.ofDecls (ns.ensurePackage (u.path default))
    (u.path default).module u.imports).1
  ns : (ns.ensurePackage (u.path default)).Grows (u.path default) c.ns
  reports : ∀ d ∈ c.diagnostics, d.problem.SparesAny

/-- Whatever is checked, the unit stays prepared. -/
theorem Prepares.addItem {u : SourceUnit} {ns : Namespace} {default : PackagePath} {permit : Permit}
    {strict : Bool} {p : Place} {c c' : Context} {ids : List Nat} (hc : c.Prepares u ns default)
    (h : Built permit strict p c ids c') (id : Nat) : (c'.addItem id).Prepares u ns default where
  path := h.grows.path.trans hc.path
  imports := h.grows.imports.trans hc.imports
  ns := hc.ns.trans (hc.path ▸ h.grows.ns)
  reports := by
    obtain ⟨ds, heq, hds⟩ := h.allows
    change ∀ d ∈ c'.diagnostics, d.problem.SparesAny
    rw [heq]
    exact List.forall_mem_append.mpr ⟨hc.reports, fun d hd => (hds d hd).1⟩

/-- Names can be declared here: in a block, or outside all scopes. -/
structure InBlock (c : Context) : Prop where
  placed : c.scope < c.program.scopes.size
  kind : c.program.scopes.isFunction c.scope = false

theorem Grows.inBlock {c c' : Context} (h : c.Grows c') (hc : c.InBlock) : c'.InBlock where
  placed := h.placed hc.placed
  kind := by rw [h.scope, h.scopes.refines.isFunction_eq hc.placed, hc.kind]

theorem Starts.inBlock {c : Context} (h : c.Starts) : c.InBlock := by
  constructor
  · rw [h.scope, h.program]
    exact Nat.zero_lt_one
  · rw [h.scope, h.program]
    rfl

end Context

/-- What is done when the item is checked is permitted; a `data` declaration was registered before. -/
def Permit.CoversItem (permit : Permit) : Node → Prop
  | .data _ _ => True
  | n => (∀ x ∈ n.declaredNames, permit.declares x) ∧ ∀ m ∈ n.nodes, permit.Covers m

theorem Permit.coversItem_of {permit : Permit} {n : Node}
    (hd : ∀ x ∈ n.declaredNames, permit.declares x) (hn : ∀ m ∈ n.nodes, permit.Covers m) :
    permit.CoversItem n := by
  unfold CoversItem
  split
  · trivial
  · exact ⟨hd, hn⟩

namespace Check

open Reference

/-! Single items -/

section

variable {permit : Permit} {strict : Bool} {known : String → Prop} {c : Context}

theorem ready_within (hc : c.Ready known) : c.Ready (Within [] known) :=
  hc.mono fun _ hx => hx.resolve_left List.not_mem_nil

theorem run_packageFunction {head : FunctionHead} {body : List Node} {span : Span}
    (hn : c.Registered (.function head body span)) :
    (packageFunction head body span).run c =
      (do
        let value ← withGenerics head.typeParams (function (head.signatureIn c.typeScope).1
          (some (head.signatureIn c.typeScope).2) (exprs body) (lastSpan body span) span)
        let item : PackageItem := ⟨c.path, head.name, head.isPublic, false⟩
        return Except.ok (← alloc (.defineFunction item value span) .unit)).run
          (c.declaring (c.symbolOf head)) := by
  have hsome : (c.ns.symbol? c.path head.name).isNone = false := by
    simpa [Context.Registered, Option.isNone_eq_false_iff] using hn
  have hsignature := reads_signature false head c
  simp only [Bool.false_eq_true, if_false, Context.later_nil] at hsignature
  rw [packageFunction]
  change StateT.run (if (c.ns.symbol? c.path head.name).isNone = true then _ else _) c = _
  rw [if_neg (by simp [hsome]), StateT.run_bind, hsignature]
  rfl

/-- A function is declared once more before its body is checked. -/
theorem yields_packageFunction (hpaths : MayReportPaths permit)
    (hdecl : strict = false → ∀ x, permit.declares x) {head : FunctionHead}
    {body : List Node} {span : Span} (hn : c.Registered (.function head body span))
    (hf : strict = true → Node.AllFit body .statement)
    (hp : ∀ m ∈ Node.allNodes body, permit.Covers m)
    (hr : Foreseen permit known (ofItem (.function head body span))) (hc : c.Ready known) :
    Yields (packageFunction head body span) c fun r c' =>
      ∃ id, r = .ok id ∧ Built permit strict .part (c.declaring (c.symbolOf head)) [id] c' := by
  rw [ofItem, ofNode] at hr
  have hb := builds_statements hpaths hdecl body hf hp hr
  have hg := c.grows_declaring (c.symbolOf head)
  refine yields_of_run (run_packageFunction hn) (Yields.bind (P := fun v c' =>
    Built permit strict .part (c.declaring (c.symbolOf head)) [v] c') (yields_withGenerics ?_)
    fun v c₁ h₁ => ?_)
  · refine (built_function _ _ _ span hb ?_ ((hg.ready hc).generics _) (by simp)).mono
      fun v c' h => Built.generics head.typeParams h
    intro x hx
    rw [FunctionHead.map_name_signatureIn]
    exact (within_append.mp hx).imp_right fun hx => hx.resolve_left List.not_mem_nil
  · exact ⟨_, rfl, .node .part .unit h₁ trivial (.refl _) (by simp [Expr.access?]) trivial⟩

theorem yields_packageData {decl : DataDecl} {span : Span} (hn : c.Registered (.data decl span)) :
    Yields (packageData decl span) c fun r c' =>
      ∃ id, r = .ok id ∧ Built permit strict .part c [id] c' ∧
        ∀ x ∈ decl.cases.map CaseDecl.name, (c'.ns.symbol? c'.path x).isSome := by
  unfold packageData
  refine yields_get_bind ?_
  obtain ⟨d, hd⟩ := Option.isSome_iff_exists.mp hn.1
  simp only [hd]
  refine ⟨_, rfl, ?_, hn.2⟩
  exact .node .part .unit (.nil .part c) trivial (.refl _) (by simp [Expr.access?]) trivial

/-- An item builds one expression, and its names are then declared in the package. -/
theorem yields_item (hpaths : MayReportPaths permit)
    (hdecl : strict = false → ∀ x, permit.declares x) {n : Node} (hn : c.Registered n)
    (hroot : c.scope = ScopeTree.root) (hf : strict = true → n.FitsIn .statement)
    (hp : permit.CoversItem n) (hr : Foreseen permit known (ofItem n)) (hc : c.Ready known) :
    Yields (item n) c fun r c' => ∃ id, r = .ok id ∧ Built permit strict .part c [id] c' ∧
      ∀ x ∈ n.declaredNames, (c'.ns.symbol? c'.path x).isSome := by
  cases n with
  | function head body span =>
    simp only [Node.FitsIn] at hf
    simp only [Permit.CoversItem, Node.nodes, List.forall_mem_cons] at hp
    refine (yields_packageFunction hpaths hdecl hn (fun hs => (hf hs).2) hp.2.2 hr hc).mono ?_
    rintro r c' ⟨id, hid, h⟩
    have hdeclare := Context.enlarged_declaring (c := c) (s := c.symbolOf head)
      (hp.1 _ List.mem_cons_self)
    refine ⟨id, hid, (built_enlarged (.nil .part c) hdeclare).append h, ?_⟩
    intro x hx
    obtain rfl := List.mem_singleton.mp hx
    have hs := h.grows.ns.symbol c.path head.name
      ((Namespace.symbol?_addSymbol_iff _ _ _ _ _).mpr (Or.inl ⟨rfl, rfl⟩))
    exact h.grows.path ▸ hs
  | data decl span => exact yields_packageData hn
  | define head value span =>
    simp only [Node.FitsIn] at hf
    simp only [Permit.CoversItem, Node.nodes, List.forall_mem_cons] at hp
    rw [ofItem, ofNode] at hr
    have hv := makes_expr (p := .part) hpaths hdecl value (fun hs => (hf hs).2) hp.2.2 hr
    change Yields (do return Except.ok (← expr (.define head value span))) c _
    rw [expr]
    refine (built_variableDecl head span hv (ready_within hc)
      fun _ => hp.1 _ List.mem_cons_self).bind ?_
    rintro id c' ⟨_, _, hpart⟩
    obtain ⟨h, hs⟩ := hpart hroot
    exact ⟨id, rfl, h, fun x hx => List.mem_singleton.mp hx ▸ hs⟩
  | _ =>
    -- what is no declaration fits in every place
    have h := makes_expr (p := .part) hpaths hdecl _ (by simpa only [Node.FitsIn] using hf) hp.2 hr
    exact (h c (ready_within hc) trivial).bind
      fun id c' h => ⟨id, rfl, h, by simp [Node.declaredNames]⟩

end

/-! All items -/

/-- What every item keeps holds at the end, and no item fails. -/
theorem yields_items {c : Context} {J : Context → Prop} (ns : List Node) (hc : J c)
    (hstep : ∀ n ∈ ns, ∀ c, J c →
      Yields (item n) c fun r c' => ∃ id, r = .ok id ∧ J (c'.addItem id)) :
    Yields (items ns) c fun r c' => r = .ok () ∧ J c' := by
  induction ns generalizing c with
  | nil => exact ⟨rfl, hc⟩
  | cons n ns ih =>
    refine (hstep n List.mem_cons_self c hc).bind ?_
    rintro _ c₁ ⟨id, rfl, hc₁⟩
    exact ih hc₁ fun m hm => hstep m (List.mem_cons_of_mem n hm)

/-- All that comes before the items are checked. -/
def prologue (u : SourceUnit) : Check Unit := do
  setImports u.imports
  (Order.ofItems u.items).cycles.forM reportCycle
  register u.items

/-- The items in the order in which they are checked. -/
def ordered (u : SourceUnit) : List Node :=
  (Order.ofItems u.items).order.filterMap fun i => u.items[i]?

theorem unit_eq (u : SourceUnit) : unit u = (do prologue u; items (ordered u)) := rfl

/-- The imports, the cycles and the types. -/
def opening (u : SourceUnit) : Check Unit := do
  setImports u.imports
  (Order.ofItems u.items).cycles.forM reportCycle
  registerTypes u.items

theorem prologue_eq (u : SourceUnit) :
    prologue u = (do opening u; u.items.forM functionOf) := by
  simp only [prologue, opening, register_eq, bind_assoc]

theorem yields_opening {permit : Permit} {c : Context} {u : SourceUnit}
    (hitems : ∀ n ∈ u.items, permit.Covers n) :
    Yields (opening u) c fun _ c' => (c.importing u.imports).Enlarged permit c' ∧
      ∀ n ∈ u.items, n.isFunction = false → c'.Registered n := by
  unfold opening
  refine Yields.bind (P := fun _ c' => c' = c.importing u.imports) rfl ?_
  rintro _ _ rfl
  have hcycle (cycle : Cycle) : Remarks (reportCycle cycle) := by
    refine remarks_report cycle.span ?_
    exact ⟨trivial, by simp⟩
  refine ((remarks_forM hcycle _).enlarged permit).bind fun _ c₁ h₁ => ?_
  exact (yields_registerTypes hitems).mono fun _ c₂ ⟨h₂, hn⟩ => ⟨h₁.trans h₂, hn⟩

/-- All items are registered, whatever the namespace was before. -/
theorem yields_prologue {permit : Permit} {c : Context} {u : SourceUnit}
    (hitems : ∀ n ∈ u.items, permit.Covers n ∧ ∀ x ∈ n.declaredNames, permit.declares x) :
    Yields (prologue u) c fun _ c' =>
      (c.importing u.imports).Enlarged permit c' ∧ ∀ n ∈ u.items, c'.Registered n := by
  rw [prologue_eq]
  refine (yields_opening fun n hn => (hitems n hn).1).bind fun _ c₁ ⟨h₁, hdata⟩ => ?_
  refine (yields_functions fun n hn => (hitems n hn).2).mono fun _ c₂ ⟨h₂, hfunction⟩ => ?_
  refine ⟨h₁.trans h₂, fun n hn => ?_⟩
  cases hi : n.isFunction with
  | true => exact hfunction n hn hi
  | false => exact h₂.grows.registered (hdata n hn hi)

theorem mem_of_mem_ordered {u : SourceUnit} {n : Node} (h : n ∈ ordered u) : n ∈ u.items := by
  obtain ⟨i, _, hi⟩ := List.mem_filterMap.mp h
  exact List.mem_of_getElem? hi

end Check

/-- Checking never fails, and what holds before the items and is kept by each of them holds at the
end. Where results are inferred is known, and which fields are read. -/
theorem SourceUnit.check_invariant_within {u : SourceUnit} {ns : Namespace} {default : PackagePath}
    (infers : Span → Prop) (selects : String → Prop) (strict : Bool) {J : Context → Prop}
    (hcovers : ∀ n ∈ u.items, ∀ m ∈ n.nodes, Permit.Covers { Permit.all with infers, selects } m)
    (hfit : strict = true → ∀ n ∈ u.items, n.FitsIn .statement)
    (hstart : ∀ c, c.Starts → c.Prepares u ns default → J c)
    (hstep : ∀ c id c', c.scope = ScopeTree.root → c.InBlock → J c →
      Built { Permit.all with infers, selects } strict .part c [id] c' → J (c'.addItem id)) :
    (u.check ns default).1 = .ok () ∧ J (u.check ns default).2 := by
  -- the registered items stay registered, and items leave no scope open
  let K (c : Context) : Prop :=
    J c ∧ c.scope = ScopeTree.root ∧ c.InBlock ∧ ∀ n ∈ u.items, c.Registered n
  suffices h : Check.Yields (Check.unit u) (.init ns (u.path default)) fun r c' =>
      r = .ok () ∧ K c' from ⟨h.1, h.2.1⟩
  rw [Check.unit_eq]
  have hall : ∀ n ∈ u.items, Permit.all.Covers n ∧ ∀ x ∈ n.declaredNames, Permit.all.declares x :=
    fun n _ => ⟨Permit.covers_all n, fun _ _ => trivial⟩
  refine (Check.yields_prologue hall).bind ?_
  rintro _ _ ⟨⟨ns', ds', rfl, hns, hds⟩, hreg⟩
  have hreports : ∀ d ∈ (Imports.ofDecls (ns.ensurePackage (u.path default))
      (u.path default).module u.imports).2 ++ ds', d.problem.SparesAny :=
    List.forall_mem_append.mpr ⟨Imports.sparesAny_ofDecls u.imports, fun d hd => (hds d hd).1⟩
  refine Check.yields_items _ ⟨hstart _ ⟨rfl, rfl⟩ ⟨rfl, rfl, hns.toGrows, hreports⟩, rfl,
    Context.Starts.inBlock ⟨rfl, rfl⟩, hreg⟩ ?_
  rintro n hn c ⟨hJ, hroot, hin, hreg⟩
  have hmem := Check.mem_of_mem_ordered hn
  have hc : c.Ready fun _ => False := ⟨hin.placed, fun _ h => h.elim⟩
  have hitem : Permit.CoversItem { Permit.all with infers, selects } n :=
    Permit.coversItem_of (fun _ _ => trivial) (hcovers n hmem)
  refine (Check.yields_item (fun _ _ => trivial) (fun _ _ => trivial) (hreg n hmem) hroot
    (fun hs => hfit hs n hmem) hitem (fun _ _ => Or.inr trivial) hc).mono ?_
  rintro r c' ⟨id, hid, hb, _⟩
  have hin' := hb.grows.inBlock hin
  exact ⟨id, hid, hstep c id c' hroot hin hJ hb, hb.grows.scope.trans hroot,
    ⟨hin'.placed, hin'.kind⟩, fun m hm => hb.grows.registered (hreg m hm)⟩

theorem SourceUnit.check_invariant {u : SourceUnit} {ns : Namespace} {default : PackagePath}
    (strict : Bool) {J : Context → Prop}
    (hfit : strict = true → ∀ n ∈ u.items, n.FitsIn .statement)
    (hstart : ∀ c, c.Starts → c.Prepares u ns default → J c)
    (hstep : ∀ c id c', c.scope = ScopeTree.root → c.InBlock → J c →
      Built .all strict .part c [id] c' → J (c'.addItem id)) :
    (u.check ns default).1 = .ok () ∧ J (u.check ns default).2 :=
  u.check_invariant_within (fun _ => True) (fun _ => True) strict
    (fun _ _ m _ => Permit.covers_all m) hfit hstart hstep

theorem SourceUnit.prepares_check (u : SourceUnit) (ns : Namespace) (default : PackagePath) :
    (u.check ns default).1 = .ok () ∧ (u.check ns default).2.Prepares u ns default :=
  u.check_invariant false (by simp) (fun _ _ hp => hp) fun _ id _ _ _ hp hb => hp.addItem hb id

end Tern
