import Tern.Proofs.Check.Unit
import Tern.Proofs.Check.Walk

/-!
What checking leaves of its surroundings. Whatever a node reports, afterwards the current scope, the
types that the functions around return and the type parameters in scope are those of before, and
nothing that was made is taken back or changed. So it makes no difference whether surroundings are
kept aside and put back, or pushed before each body and popped behind it, at every level of a unit.
-/

set_option autoImplicit false

namespace Tern

/-- A context after a step that leaves its surroundings as it found them and only adds to what was
made. -/
structure Context.Balanced (c c' : Context) : Prop where
  scope : c'.scope = c.scope
  returnTypes : c'.returnTypes = c.returnTypes
  generics : c'.generics = c.generics
  exprs : c.program.exprs.toList <+: c'.program.exprs.toList
  diagnostics : c.diagnostics <+: c'.diagnostics
  scopes : ∀ id s, c.program.scopes.scope? id = some s →
    ∃ s', c'.program.scopes.scope? id = some s' ∧
      s'.parent = s.parent ∧ s'.kind = s.kind ∧ s'.parameters = s.parameters

theorem Context.Grows.balanced {c c' : Context} (h : c.Grows c') : c.Balanced c' where
  scope := h.scope
  returnTypes := h.returnTypes
  generics := h.generics
  exprs := by
    rw [List.prefix_iff_getElem?]
    intro i hi
    have hlt : i < c.program.exprs.size := by simpa using hi
    simpa using h.exprs i _ (Array.getElem?_eq_getElem hlt)
  diagnostics := h.diagnostics
  scopes := by
    intro id s hs
    obtain ⟨s', hs', hg⟩ := h.scopes.refines id s hs
    exact ⟨s', hs', hg.parent, hg.kind, hg.parameters⟩

/-- A context with the same surroundings, in which every scope has the parent that it had. -/
structure Context.Returns (c c' : Context) : Prop where
  scope : c'.scope = c.scope
  returnTypes : c'.returnTypes = c.returnTypes
  generics : c'.generics = c.generics
  parents : ∀ id p, c.program.scopes.parent? id = some p → c'.program.scopes.parent? id = some p

namespace Context.Returns

variable {c c' c'' : Context}

theorem of_eq (hscope : c'.scope = c.scope) (hreturnTypes : c'.returnTypes = c.returnTypes)
    (hgenerics : c'.generics = c.generics) (hscopes : c'.program.scopes = c.program.scopes) :
    c.Returns c' := ⟨hscope, hreturnTypes, hgenerics, fun _ _ h => hscopes ▸ h⟩

theorem trans (h : c.Returns c') (k : c'.Returns c'') : c.Returns c'' where
  scope := k.scope.trans h.scope
  returnTypes := k.returnTypes.trans h.returnTypes
  generics := k.generics.trans h.generics
  parents := fun id p hp => k.parents id p (h.parents id p hp)

end Context.Returns

theorem ScopeTree.parent?_modify (t : ScopeTree) (id other : Nat) {f : Scope → Scope}
    (hf : ∀ s, (f s).parent = s.parent) : (t.modify id f).parent? other = t.parent? other := by
  rw [parent?, parent?]
  by_cases h : other = id
  · subst h
    rw [scope?_modify_self]
    cases t.scope? other <;> simp [hf]
  · rw [scope?_modify_of_ne t f h]

theorem ScopeTree.parent?_createChild {t : ScopeTree} {id p : Nat} (h : t.parent? id = some p)
    (current : Nat) (kind : ScopeKind) : (t.createChild current kind).parent? id = some p := by
  obtain ⟨s, hs, hp⟩ := Option.bind_eq_some_iff.mp h
  rw [parent?, scope?_createChild_of_lt (lt_size_of_scope? hs), hs]
  exact hp

namespace Check

variable {α β : Type}

/-- The steps do the same, and return to where they began. -/
def Agrees (m m' : Check α) : Prop := ∀ c, m.run c = m'.run c ∧ c.Returns (m.run c).2

theorem Agrees.left {m m' : Check α} (h : Agrees m m') : Agrees m m := fun c => ⟨rfl, (h c).2⟩

theorem agrees_of_returns {m : Check α} (h : ∀ c : Context, c.Returns (m.run c).2) : Agrees m m :=
  fun c => ⟨rfl, h c⟩

theorem Agrees.bind {m m' : Check α} {f f' : α → Check β} (hm : Agrees m m')
    (hf : ∀ a, Agrees (f a) (f' a)) : Agrees (m >>= f) (m' >>= f') := by
  intro c
  obtain ⟨hrun, hback⟩ := hm c
  obtain ⟨hrun', hback'⟩ := hf (m.run c).1 (m.run c).2
  refine ⟨?_, hback.trans hback'⟩
  rw [StateT.run_bind, StateT.run_bind, ← hrun]
  exact hrun'

theorem agrees_modifyScopes {f : ScopeTree → ScopeTree}
    (hf : ∀ (t : ScopeTree) (id : Nat), (f t).parent? id = t.parent? id) :
    Agrees (modifyScopes f) (modifyScopes f) :=
  agrees_of_returns fun c => ⟨rfl, rfl, rfl, fun id _ hp => (hf c.program.scopes id).trans hp⟩

theorem run_exitScope {c : Context} {outer : Nat}
    (h : c.program.scopes.parent? c.scope = some outer) :
    exitScope.run c = ((), { c with scope := outer }) := by
  have hrun (f : Context → Context) : (modify f : Check PUnit).run c = ((), f c) := rfl
  rw [exitScope, hrun, h]

/-- The parent of the scope that was entered is the one in which it was entered. -/
theorem agrees_scope (kind : ScopeKind) {step step' : Nat → Check α}
    (h : ∀ n, Agrees (step n) (step' n)) : Agrees (inScope kind step) (pushedScope kind step') := by
  intro c
  obtain ⟨hrun, hback⟩ := h c.program.scopes.size (c.enter kind)
  have hnew : (c.enter kind).program.scopes.parent? (c.enter kind).scope = some c.scope := by
    change (c.program.scopes.createChild c.scope kind).parent? c.program.scopes.size = _
    rw [ScopeTree.parent?, ScopeTree.scope?_createChild_self]
    rfl
  have hout := hback.parents _ _ hnew
  rw [← hback.scope] at hout
  refine ⟨?_, rfl, hback.returnTypes, hback.generics, fun id p hp => ?_⟩
  · change (((step c.program.scopes.size).run (c.enter kind)).1,
        { ((step c.program.scopes.size).run (c.enter kind)).2 with scope := c.scope }) =
      (((step' c.program.scopes.size).run (c.enter kind)).1,
        (exitScope.run ((step' c.program.scopes.size).run (c.enter kind)).2).2)
    rw [← hrun, run_exitScope hout]
  · exact hback.parents id p (ScopeTree.parent?_createChild hp c.scope kind)

/-- The innermost result is the one that was pushed. -/
theorem agrees_result (t : Ty) {step step' : Check α} (h : Agrees step step') :
    Agrees (returning t step) (pushedReturn t step') := by
  intro c
  obtain ⟨hrun, hback⟩ := h { c with returnTypes := t :: c.returnTypes }
  have hpop : (step.run { c with returnTypes := t :: c.returnTypes }).2.returnTypes.tail =
      c.returnTypes := by
    rw [hback.returnTypes]
    rfl
  refine ⟨?_, hback.scope, rfl, hback.generics, hback.parents⟩
  change ((step.run { c with returnTypes := t :: c.returnTypes }).1,
      { (step.run { c with returnTypes := t :: c.returnTypes }).2 with
        returnTypes := c.returnTypes }) =
    ((step'.run { c with returnTypes := t :: c.returnTypes }).1,
      { (step'.run { c with returnTypes := t :: c.returnTypes }).2 with
        returnTypes := (step'.run { c with returnTypes := t :: c.returnTypes }).2.returnTypes.tail })
  rw [← hrun, hpop]

/-- The names that were pushed are the last ones. -/
theorem agrees_generics (names : List String) {step step' : Check α} (h : Agrees step step') :
    Agrees (withGenerics names step) (pushedGenerics names step') := by
  intro c
  obtain ⟨hrun, hback⟩ := h { c with generics := c.generics ++ names }
  have hpop : (step.run { c with generics := c.generics ++ names }).2.generics.take
      c.generics.length = c.generics := by
    rw [hback.generics, List.take_left]
  refine ⟨?_, hback.scope, hback.returnTypes, rfl, hback.parents⟩
  change ((step.run { c with generics := c.generics ++ names }).1,
      { (step.run { c with generics := c.generics ++ names }).2 with generics := c.generics }) =
    ((step'.run { c with generics := c.generics ++ names }).1,
      { (step'.run { c with generics := c.generics ++ names }).2 with
        generics := (step'.run { c with generics := c.generics ++ names }).2.generics.take
          c.generics.length })
  rw [← hrun, hpop]

/-- Surroundings that are kept aside and put back are as good as those pushed and popped. -/
def agreesRule : StepRule where
  fits _ := True
  relates _ _ _ m m' := Agrees m m'
  join _ _ := trivial
  done _ := agrees_of_returns fun _ => .of_eq rfl rfl rfl rfl
  bind hm hf := hm.bind hf
  mono h _ := h
  look h c := h c c
  spanOf id h c := h (c.program.span id) trivial c
  report _ _ := agrees_of_returns fun _ => .of_eq rfl rfl rfl rfl
  alloc _ _ _ := agrees_of_returns fun _ => .of_eq rfl rfl rfl rfl
  call _ _ _ _ := agrees_of_returns fun _ => .of_eq rfl rfl rfl rfl
  imports _ := agrees_of_returns fun _ => .of_eq rfl rfl rfl rfl
  known _ := agrees_of_returns fun _ => .of_eq rfl rfl rfl rfl
  symbol scope _ := agrees_modifyScopes fun t id => t.parent?_modify scope id fun _ => rfl
  parameter scope _ _ := agrees_modifyScopes fun t id => t.parent?_modify scope id fun _ => rfl
  item _ := agrees_of_returns fun _ => .of_eq rfl rfl rfl rfl
  scope kind h := agrees_scope kind h
  result t h := agrees_result t h
  generics h := agrees_generics _ h

/-! Nodes and items -/

theorem foreseen_all (rs : List Reference) : Foreseen .all (fun _ => False) rs :=
  fun _ _ => Or.inr trivial

theorem makes_all (n : Node) : Makes .all false .part (fun _ => False) (expr n) := fun c hc hs =>
  makes_expr (fun _ _ => trivial) (fun _ _ => trivial) n (by simp) (fun m _ => Permit.covers_all m)
    (foreseen_all (Reference.ofNode [] false n)) c (ready_within hc) hs

/-- An item that was not registered is given up before anything is done. -/
theorem grows_item {c : Context} (n : Node) (hc : c.Ready fun _ => False) :
    Yields (item n) c fun _ c' => c.Grows c' := by
  cases n with
  | function head body span =>
    by_cases hn : c.Registered (.function head body span)
    · have hall : Yields (packageFunction head body span) c fun r c' =>
          ∃ id, r = .ok id ∧ Built .all false .part (c.declaring (c.symbolOf head)) [id] c' :=
        yields_packageFunction (fun _ _ => trivial) (fun _ _ => trivial) hn (by simp)
          (fun m _ => Permit.covers_all m) (foreseen_all _) hc
      exact hall.mono fun _ _ ⟨_, _, h⟩ => (c.grows_declaring _).trans h.grows
    · change Yields (packageFunction head body span) c _
      unfold packageFunction
      refine yields_get_bind ?_
      rw [if_pos (by simpa [Context.Registered] using hn)]
      exact .refl c
  | data decl span =>
    change Yields (packageData decl span) c _
    unfold packageData
    refine yields_get_bind ?_
    split
    · exact c.grows_alloc _ _
    · exact .refl c
  | _ => exact (makes_all _ c hc trivial).bind fun _ _ h => h.grows

/-- Checking a node or an item leaves its surroundings as they were. So pushing them before a body
and popping them behind it is the same as keeping them aside and putting them back: for the body of a
block, a function or a declaration, and for nodes, items and units in which this is done at every
level. -/
theorem surroundings_balanced (c : Context) (hc : c.scope < c.program.scopes.size) :
    (∀ n, c.Balanced ((expr n).run c).2) ∧ (∀ n, c.Balanced ((item n).run c).2) ∧
    (∀ ns span, (block (exprs ns) span).run c = (pushedBlock (exprs ns) span).run c) ∧
    (∀ ps ret? ns last span, (function ps ret? (exprs ns) last span).run c =
      (pushedFunction ps ret? (exprs ns) last span).run c) ∧
    (∀ names ps ret? ns last span,
      (withGenerics names (function ps ret? (exprs ns) last span)).run c =
        (pushedGenerics names (pushedFunction ps ret? (exprs ns) last span)).run c) ∧
    (∀ reports head, (signature reports head).run c = (pushedSignature reports head).run c) ∧
    (∀ decl, (definition decl).run c = (pushedDefinition decl).run c) ∧
    (∀ n, (expr n).run c = (pushedExpr n).run c) ∧ (∀ n, (item n).run c = (pushedItem n).run c) ∧
    ∀ u, (unit u).run c = (pushedUnit u).run c := by
  have hready : c.Ready fun _ => False := ⟨hc, fun _ h => h.elim⟩
  have hadmits (ns : List Node) : agreesRule.Admits ns := fun _ _ _ _ => trivial
  have hexprs (ns : List Node) : agreesRule.relates [] [] (exprs ns) (exprs ns) :=
    Agrees.left (relates_exprs agreesRule [] ns (hadmits _))
  have hfunction (ps : List TypedParam) (ret? : Option Ty) (ns : List Node) (last span : Span) :
      Agrees (function ps ret? (exprs ns) last span) (pushedFunction ps ret? (exprs ns) last span) :=
    relates_function agreesRule (hexprs ns) trivial ps ret? trivial
  refine ⟨fun n => (makes_all n c hready trivial).grows.balanced,
    fun n => (grows_item n hready).balanced, fun ns span => ?_,
    fun ps ret? ns last span => (hfunction ps ret? ns last span c).1,
    fun names ps ret? ns last span => (agrees_generics names (hfunction ps ret? ns last span) c).1,
    fun reports head => ?_, fun decl => ?_, fun n => ?_, fun n => ?_, fun u => ?_⟩
  · exact (relates_block agreesRule (hexprs ns) trivial c).1
  · have h : agreesRule.relates [] [] (signature reports head) (pushedSignature reports head) :=
      relates_signature agreesRule reports (fun _ _ => trivial) fun _ _ => trivial
    exact (h c).1
  · have h : agreesRule.relates [] [] (definition decl) (pushedDefinition decl) :=
      relates_definition agreesRule fun _ _ => trivial
    exact (h c).1
  · exact (relates_expr agreesRule [] n (hadmits _) c).1
  · exact (relates_item agreesRule n (hadmits _) c).1
  · exact (relates_unit agreesRule (fun _ _ _ _ => trivial) (fun _ _ => hadmits _) c).1

/-- In a function that returns an integer and has a type parameter. -/
def nested : Context :=
  { Context.init .withPrelude ⟨"user", "default"⟩ with returnTypes := [.int], generics := ["T"] }

/-- The block

    { return missing }
-/
def failing : Node := .block [.ret (some (.name "missing" ⟨9, 16⟩)) ⟨2, 16⟩] ⟨0, 18⟩

/-- A block that fails, and a function with a type parameter of its own around it. -/
theorem surroundings_balanced_nested :
    nested.scope < nested.program.scopes.size ∧ nested.Balanced ((expr failing).run nested).2 ∧
      ((expr failing).run nested).2.diagnostics = [⟨.unrecognizedName "missing", ⟨9, 16⟩⟩] ∧
      (withGenerics ["U"] (function [] (some .int) (exprs [failing]) ⟨0, 18⟩ ⟨0, 18⟩)).run nested =
        (pushedGenerics ["U"] (pushedFunction [] (some .int) (exprs [failing]) ⟨0, 18⟩ ⟨0, 18⟩)).run
          nested := by
  have hplaced : nested.scope < nested.program.scopes.size := Nat.zero_lt_one
  have h := surroundings_balanced nested hplaced
  exact ⟨hplaced, h.1 failing, by cbv, h.2.2.2.2.1 ["U"] [] (some .int) [failing] ⟨0, 18⟩ ⟨0, 18⟩⟩

end Check

end Tern
