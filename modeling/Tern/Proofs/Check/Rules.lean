import Tern.Proofs.Ty
import Tern.Proofs.Check.Register
import Tern.Proofs.Check.Resolution

/-!
Every rule of checking builds, in the sense of `Built`, out of parts that were built. A rule that is
given steps for its parts needs to know of them that they build in every context in which certain
names resolve.
-/

set_option autoImplicit false

namespace Tern

/-- Statements are checked inside some scope, but their parts may stand outside all. -/
def Context.Hosts (c : Context) : Place → Prop
  | .part => True
  | .statement => c.scope ≠ ScopeTree.root

namespace Check

section

variable (permit : Permit) (strict : Bool)

/-- In every context in which the names in `known` resolve, the step makes expressions with the
numbers `ids`. -/
def Builds {α : Type} (p : Place) (known : String → Prop) (ids : α → List Nat) (m : Check α) : Prop :=
  ∀ c, c.Ready known → c.Hosts p → m.Yields c fun a c' => Built permit strict p c (ids a) c'

/-- The step makes one expression. -/
def Makes (p : Place) (known : String → Prop) (m : Check Nat) : Prop :=
  Builds permit strict p known (fun id => [id]) m

end

section

variable {permit : Permit} {strict : Bool} {p : Place} {c₀ c : Context} {ids : List Nat}
  {known inside : String → Prop}

/-- Names with a path are not looked up by the order of items, and may always be reported. -/
def MayReportPaths (permit : Permit) : Prop :=
  ∀ package name, permit.unknown (package ++ "." ++ name)

/-! Single steps -/

/-- A step after something else was built. -/
theorem Builds.after {α : Type} {numbers : α → List Nat} {m : Check α}
    (hm : Builds permit strict .part known numbers m) (h : Built permit strict .part c₀ ids c)
    (hc : c₀.Ready known) :
    m.Yields c fun a c' => Built permit strict .part c₀ (ids ++ numbers a) c' :=
  (hm c (h.grows.ready hc) trivial).mono fun _ _ k => h.append k

theorem built_enlarged (h : Built permit strict p c₀ ids c) {c' : Context}
    (hc : c.Enlarged permit c') :
    Built permit strict p c₀ ids c' := by
  obtain ⟨ns, ds, rfl, hns, hds⟩ := hc
  have k : Built permit strict p c [] (c.later ns ds) :=
    .later p hns fun d hd => permit.allows_of_isRemark (hds d hd)
  simpa using h.append k

theorem Remarks.yields {α : Type} {m : Check α} (hm : Remarks m)
    (h : Built permit strict p c₀ ids c) :
    m.Yields c fun _ c' => Built permit strict p c₀ ids c' :=
  (hm.enlarged permit).mono fun _ _ hc => built_enlarged h hc

theorem built_report {problem : Problem} (span : Span) (h : Built permit strict p c₀ ids c)
    (hx : permit.Allows problem) :
    Yields (report problem span) c fun _ c' =>
      Built permit strict p c₀ ids c' ∧ c'.diagnostics ≠ [] := by
  have k : Built permit strict p c [] (c.later c.ns [⟨problem, span⟩]) :=
    .later p (.refl _) (by simpa using hx)
  have hk := h.append k
  rw [List.append_nil] at hk
  exact ⟨hk, List.append_ne_nil_of_right_ne_nil _ (by simp)⟩

/-- What failed is reported and left out. -/
theorem built_failure {problem : Problem} (reportSpan span : Span)
    (h : Built permit strict .part c₀ ids c)
    (hx : permit.Allows problem) :
    Yields (do report problem reportSpan; error span) c fun id c' =>
      Built permit strict p c₀ [id] c' :=
  (built_report reportSpan h hx).bind fun _ _ ⟨h', hd⟩ => .error p span h' hd

theorem built_alloc {e : Expr} (t : Ty) (h : Built permit strict .part c₀ ids c) (he : e.IsSimple)
    (hp : e.parts.Perm ids) (ha : e.access? = none) (hw : permit.Warrants c e) :
    Yields (alloc e t) c fun id c' => Built permit strict p c₀ [id] c' :=
  .node p t h he hp (by simp [ha]) hw

theorem built_read {r : Resolved} (span : Span) (hr : c.Reaches r.target) :
    Yields (read r span) c fun id c' => Built permit strict p c [id] c' := by
  refine Built.node p r.symbol.type (.nil .part c) trivial (.refl _) ?_ trivial
  intro a ha
  cases ha
  exact ⟨rfl, hr⟩

/-- A variable that is read after something else was built. -/
theorem built_append_read {r : Resolved} (span : Span) (h : Built permit strict p c₀ ids c)
    (hr : c.Reaches r.target) :
    Yields (read r span) c fun id c' => Built permit strict p c₀ (ids ++ [id]) c' :=
  (built_read span hr).mono fun _ _ h' => h.append h'

/-! Surroundings -/

theorem yields_inScope {α : Type} {kind : ScopeKind} {step : Nat → Check α}
    {Q : α → Context → Prop}
    (h : Yields (step c.program.scopes.size) (c.enter kind) fun a c' =>
      Q a { c' with scope := c.scope }) : Yields (inScope kind step) c Q := h

theorem yields_returning {α : Type} {t : Ty} {step : Check α} {Q : α → Context → Prop}
    (h : Yields step { c with returnTypes := t :: c.returnTypes } fun a c' =>
      Q a { c' with returnTypes := c.returnTypes }) : Yields (returning t step) c Q := h

/-! Names and declarations -/

theorem built_name {x : String} (span : Span) (hx : c.Resolves x ∨ permit.unknown x) :
    Yields (name x span) c fun id c' => Built permit strict p c [id] c' := by
  unfold name
  refine yields_get_bind ?_
  split
  · rename_i r hr
    exact built_read span (Context.reaches_of_resolveName hr)
  · rename_i hr
    refine built_failure span span (.nil .part c) (Permit.allows_name ?_)
    exact hx.resolve_left (by simp [Context.Resolves, hr])

theorem built_qualifiedName (hpaths : MayReportPaths permit) (path : PackagePath) (x : String)
    (nameSpan span : Span) :
    Yields (qualifiedName path x nameSpan span) c fun id c' =>
      Built permit strict p c [id] c' := by
  unfold qualifiedName
  refine yields_get_bind ?_
  split
  · exact built_failure span span (.nil .part c) ⟨trivial, by simp⟩
  · split
    · rename_i r hr
      exact built_read span (Context.reaches_of_resolveIn hr)
    · exact built_failure nameSpan span (.nil .part c) (Permit.allows_name (hpaths path.text x))

/-- A variable is declared in the package at the top, and in the current scope elsewhere. -/
theorem built_declareVariable (head : VariableHead) (type : Ty) {v : Nat} (span : Span)
    (h : Built permit strict .part c₀ [v] c) (hc : c.scope < c.program.scopes.size)
    (hn : c.scope = ScopeTree.root → permit.declares head.name) :
    Yields (declareVariable head type v span) c fun id c' =>
      Built permit strict .statement c₀ [id] c' ∧ c'.Resolves head.name ∧
        (c.scope = ScopeTree.root → Built permit strict .part c₀ [id] c' ∧
          (c'.ns.symbol? c'.path head.name).isSome) := by
  unfold declareVariable
  refine yields_get_bind ?_
  split
  · rename_i hroot
    have hscope : c.scope = ScopeTree.root := by simpa [Context.isAtPackageLevel] using hroot
    refine (yields_declare _ (hn hscope)).bind fun _ c' ⟨hc', hs⟩ => ?_
    have h' := built_enlarged h hc'
    have hend {e : Expr} (he : e.IsSimple) (hp : e.parts = [v]) (ha : e.access? = none)
        (hw : permit.Warrants c' e) : Yields (alloc e .unit) c' fun id c'' =>
          Built permit strict .statement c₀ [id] c'' ∧ c''.Resolves head.name ∧
            (c.scope = ScopeTree.root → Built permit strict .part c₀ [id] c'' ∧
              (c''.ns.symbol? c''.path head.name).isSome) := by
      have hpart := built_alloc (p := .part) .unit h' he (hp ▸ .refl _) ha hw
      exact ⟨.statement hpart, Context.resolves_of_symbol? hs, fun _ => ⟨hpart, hs⟩⟩
    dsimp only
    split
    · exact hend trivial rfl rfl trivial
    · exact hend trivial rfl rfl trivial
  · rename_i hroot
    refine ⟨.variableDecl ⟨head.name, type, false, head.isMutable⟩ span h, ?_, ?_⟩
    · exact (Context.grows_alloc _ _ _).resolves (Context.resolves_declareLocal _ hc)
    · intro hs
      exact absurd (by simp [Context.isAtPackageLevel, hs]) hroot

theorem built_variableDecl (head : VariableHead) {value : Check Nat} (span : Span)
    (hv : Makes permit strict .part known value) (hc : c.Ready known)
    (hn : c.scope = ScopeTree.root → permit.declares head.name) :
    Yields (variableDecl head value span) c fun id c' =>
      Built permit strict .statement c [id] c' ∧ c'.Resolves head.name ∧
        (c.scope = ScopeTree.root → Built permit strict .part c [id] c' ∧
          (c'.ns.symbol? c'.path head.name).isSome) := by
  unfold variableDecl
  have h₀ : Built permit strict .part c [] c := .nil .part c
  refine ((remarks_optionalType true head.type).yields h₀).bind fun written c₁ h₁ => ?_
  refine (hv.after h₁ hc).bind fun v c₂ h => ?_
  have hend (type : Ty) {c₃ : Context} (h₃ : Built permit strict .part c [v] c₃) :=
    built_declareVariable head type span h₃ (h₃.grows.ready hc).placed (h₃.grows.scope ▸ hn)
  split
  · refine ((remarks_expectType _ v).yields h).bind fun _ c₃ h₃ => ?_
    exact h₃.grows.scope ▸ hend _ h₃
  · refine ((remarks_typeOf v).yields h).bind fun type c₃ h₃ => ?_
    exact h₃.grows.scope ▸ hend type h₃

/-- The name that is assigned to is looked up before the value is checked. -/
theorem built_assignment {x : String} (nameSpan : Span) {value : Check Nat} (span : Span)
    (hv : Makes permit strict .part known value) (hc : c.Ready known)
    (hx : c.Resolves x ∨ permit.unknown x) :
    Yields (assignment x nameSpan value span) c fun id c' => Built permit strict p c [id] c' := by
  unfold assignment
  refine yields_get_bind ((hv c hc trivial).bind fun v c₁ h₁ => ?_)
  split
  · rename_i hr
    refine built_failure nameSpan span h₁ (Permit.allows_name ?_)
    exact hx.resolve_left (by simp [Context.Resolves, hr])
  · rename_i r hr
    have hreach := Context.reaches_of_resolveName hr
    have hend {c₂ : Context} (h₂ : Built permit strict .part c [v] c₂) :
        Yields (do
          expectType r.symbol.type v
          let scope := (← get).scope
          alloc (.assign ⟨r.target, scope, nameSpan⟩ v span) .unit) c₂ fun id c' =>
            Built permit strict p c [id] c' := by
      refine ((remarks_expectType _ v).yields h₂).bind fun _ c₃ h₃ => ?_
      refine .node p _ h₃ trivial (.refl _) ?_ trivial
      intro a ha
      cases ha
      exact ⟨rfl, h₃.grows.reaches hreach⟩
    dsimp only
    split
    · exact hend h₁
    · have hremark : (Problem.immutableAssignment x).IsRemark := ⟨trivial, by simp⟩
      exact ((remarks_report nameSpan hremark).yields h₁).bind fun _ c₂ h₂ => hend h₂

/-- A `data` declaration makes its cases known to what follows. -/
theorem built_nestedData {decl : DataDecl} {span : Span} (hn : permit.Covers (.data decl span)) :
    Yields (nestedData decl span) c fun id c' =>
      Built permit strict p c [id] c' ∧ ∀ x ∈ decl.cases.map CaseDecl.name, c'.Resolves x := by
  unfold nestedData
  refine (((remarks_definition decl).enlarged permit).and (yields_definition decl)).bind
    fun d c₁ ⟨h₁, hd⟩ => ?_
  refine (yields_define_of hd hn).bind fun _ c₂ ⟨h₂, hr⟩ => ?_
  have h : Built permit strict .part c [] c₂ := built_enlarged (.nil .part c) (h₁.trans h₂)
  exact ⟨built_alloc .unit h trivial (.refl _) rfl trivial, fun x hx =>
    Context.resolves_of_symbol? (hr.2 x hx)⟩

/-! Functions and blocks -/

theorem leave_enter {c' : Context} {kind : ScopeKind} (h : (c.enter kind).Grows c') :
    c.leave c' = { c' with scope := c.scope } := by
  have hret : c'.returnTypes = c.returnTypes := h.returnTypes
  rw [Context.leave, ← hret]

theorem hosts_enter (hc : c.scope < c.program.scopes.size) (kind : ScopeKind) :
    (c.enter kind).Hosts .statement := Nat.ne_of_gt (Nat.lt_of_le_of_lt (Nat.zero_le _) hc)

/-- The block with the statements that are built in a new scope. -/
theorem yields_block {body : Check (List Nat)} (span : Span)
    (hb : Builds permit strict .statement known id body) (hc : c.Ready known) :
    Yields (block body span) c fun i c' => ∃ ids c'' t,
      Built permit strict .statement (c.enter .block) ids c'' ∧ i = c''.program.exprs.size ∧
        c' = (c.leave c'').alloc (.block c.program.scopes.size ids span) t := by
  unfold block
  refine Yields.bind (P := fun r c' => r.1 = c.program.scopes.size ∧
      ∃ c'', Built permit strict .statement (c.enter .block) r.2 c'' ∧ c' = c.leave c'')
    (yields_inScope ((hb _ (hc.enter .block) (hosts_enter hc.placed .block)).bind
      fun ids c'' h => ⟨rfl, c'', h, (leave_enter h.grows).symm⟩)) ?_
  rintro ⟨_, ids⟩ _ ⟨rfl, c'', h, rfl⟩
  dsimp only
  split
  · exact ⟨ids, c'', _, h, rfl, rfl⟩
  · exact ⟨ids, c'', _, h, rfl, rfl⟩

theorem built_block {body : Check (List Nat)} (span : Span)
    (hb : Builds permit strict .statement known id body) (hc : c.Ready known) :
    Yields (block body span) c fun id c' => Built permit strict p c [id] c' := by
  refine (yields_block span hb hc).mono ?_
  rintro i c' ⟨ids, c'', t, h, rfl, rfl⟩
  exact .block p span t h

theorem yields_addParameters {id : Nat} (ps : List TypedParam) :
    Yields (ps.forM fun p => modifyScopes fun t => t.addParameter id p.name p.type) c fun _ c' =>
      c' = { c with program := { c.program with scopes := c.program.scopes.addParameters id ps } } := by
  induction ps generalizing c with
  | nil => exact rfl
  | cons p ps ih => exact ih

theorem run_addParameters (c : Context) (id : Nat) (ps : List TypedParam) :
    (ps.forM fun p => modifyScopes fun t => t.addParameter id p.name p.type).run c =
      ((), { c with program := { c.program with scopes := c.program.scopes.addParameters id ps } }) :=
  Prod.ext rfl (yields_addParameters ps)

/-- A declared result fits the body, or there is a report. -/
theorem yields_functionResult (ret bodyType : Ty) (lastSpan span : Span) :
    Yields (functionResult ret bodyType lastSpan span) c fun _ c' =>
      c'.diagnostics ≠ [] ∨ ret.isUnit ∨ ret.isAssignable bodyType := by
  unfold functionResult
  split
  · rename_i h
    refine yields_pure (Or.inr ?_)
    rcases Bool.or_eq_true_iff.mp h with h | h
    · exact Or.inl h
    · exact Or.inr (Ty.isAssignable_of_isAny h bodyType)
  · split
    · exact Or.inl (List.append_ne_nil_of_right_ne_nil _ (by simp))
    · split
      · rename_i h
        exact yields_pure (Or.inr (Or.inr h))
      · exact Or.inl (List.append_ne_nil_of_right_ne_nil _ (by simp))

theorem built_function (ps : List TypedParam) (ret? : Option Ty) {body : Check (List Nat)}
    (lastSpan span : Span) (hb : Builds permit strict .statement inside id body)
    (hk : ∀ x, inside x → x ∈ ps.map TypedParam.name ∨ known x) (hc : c.Ready known)
    (hn : ret? = none → permit.infers span) :
    Yields (function ps ret? body lastSpan span) c fun id c' => Built permit strict p c [id] c' := by
  unfold function
  refine Yields.bind (P := fun r c' => r.1 = c.program.scopes.size ∧ ∃ ids c'' t,
      Built permit strict .statement ((c.enterFunction ps (ret?.getD .any)).enter .block) ids c'' ∧
        r.2 = c''.program.exprs.size ∧ c' = c.leaveFunction ids span t c'') ?_ ?_
  · refine yields_inScope ((yields_addParameters ps).bind ?_)
    rintro _ _ rfl
    refine Yields.bind (P := fun i c' => ∃ ids c'' t,
      Built permit strict .statement ((c.enterFunction ps (ret?.getD .any)).enter .block) ids c'' ∧
        i = c''.program.exprs.size ∧ { c' with scope := c.scope } = c.leaveFunction ids span t c'')
      (yields_returning ?_) fun i c' h => ⟨rfl, h⟩
    refine (yields_block span hb ((hc.enterFunction ps _).mono hk)).mono ?_
    rintro i c' ⟨ids, c'', t, h, rfl, rfl⟩
    refine ⟨ids, c'', t, h, rfl, ?_⟩
    have hsize : (c.enterFunction ps (ret?.getD .any)).program.scopes.size =
        c.program.scopes.size + 1 := ScopeTree.size_addParameters _ _ ps
    rw [hsize]
    rfl
  · rintro ⟨_, b⟩ _ ⟨rfl, ids, c'', t, h, rfl, rfl⟩
    have h₀ : Built permit strict .part (c.leaveFunction ids span t c'') [] _ := .nil .part _
    refine Yields.bind (P := fun bodyType c' => bodyType = t ∧
      c' = c.leaveFunction ids span t c'') ⟨Context.type_alloc_self _ _ _, rfl⟩ ?_
    rintro _ _ ⟨rfl, rfl⟩
    cases ret? with
    | none => exact .function p ps _ _ span span _ _ h h₀ (Or.inr ⟨rfl, rfl, hn rfl⟩)
    | some ret =>
      refine (((remarks_functionResult ret _ lastSpan span).yields h₀).and
        (yields_functionResult ret _ lastSpan span)).bind fun _ c₂ ⟨h₂, hfit⟩ => ?_
      exact .function p ps _ _ span span _ _ h h₂ (Or.inl ⟨rfl, hfit⟩)

/-- A function among statements is declared before its body and is known to what follows. -/
theorem built_localFunction (head : FunctionHead) {body : Check (List Nat)} (lastSpan span : Span)
    (hb : Builds permit strict .statement inside id body)
    (hk : ∀ x, inside x → x ∈ head.params.map Param.name ∨ x = head.name ∨ known x)
    (hc : c.Ready known) :
    Yields (localFunction head body lastSpan span) c fun id c' =>
      Built permit strict .statement c [id] c' ∧ c'.Resolves head.name := by
  unfold localFunction
  have h₀ : Built permit strict .statement c [] c := .nil .statement c
  refine Yields.bind (P := fun sig c' => Built permit strict .statement c [] c' ∧
      sig.1.map TypedParam.name = head.params.map Param.name)
    (((remarks_signature true head).yields h₀).and (yields_signature true head)) ?_
  rintro ⟨ps, ret⟩ c₁ ⟨h₁, hps⟩
  have hc₁ := h₁.grows.ready hc
  let s : Symbol := ⟨head.name, functionType ps ret, false, false⟩
  have hname := Context.resolves_declareLocal s hc₁.placed
  have hc₂ := ((Context.grows_declareLocal c₁ s).ready hc₁).insert hname
  refine yields_get_bind (Yields.bind (P := fun _ c' => c' = c₁.declareLocal s) rfl ?_)
  rintro _ _ rfl
  refine Yields.bind (P := fun v c' => Built permit strict .part (c₁.declareLocal s) [v] c')
    (yields_withGenerics ?_) fun v c₃ h₃ => ?_
  · exact (built_function ps (some ret) lastSpan span hb (hps ▸ hk) (hc₂.generics _) (by simp)).mono
      fun v c' h => Built.generics head.typeParams h
  · have h := h₁.append (Built.localFunction s false span h₃)
    exact ⟨h, (h₃.grows.trans (Context.grows_alloc _ _ _)).resolves hname⟩

theorem yields_optionalType (reports : Bool) (r : Option TypeRef) :
    Yields (optionalType reports r) c fun t _ => t = none → r = none := by
  cases r with
  | none => exact fun _ => rfl
  | some r => exact fun h => absurd h (Option.some_ne_none _)

theorem built_lambda (ps : List Param) (ret : Option TypeRef) {body : Check (List Nat)}
    (lastSpan span : Span) (hb : Builds permit strict .statement inside id body)
    (hk : ∀ x, inside x → x ∈ ps.map Param.name ∨ known x) (hc : c.Ready known)
    (hn : ret = none → permit.infers span) :
    Yields (lambda ps ret body lastSpan span) c fun id c' => Built permit strict p c [id] c' := by
  unfold lambda
  have h₀ : Built permit strict p c [] c := .nil p c
  refine Yields.bind (P := fun ts c' => Built permit strict p c [] c' ∧
      ts.map TypedParam.name = ps.map Param.name)
    (((remarks_params true ps).yields h₀).and (yields_params true ps)) fun ts c₁ ⟨h₁, hts⟩ => ?_
  refine (((remarks_optionalType true ret).yields h₁).and (yields_optionalType true ret)).bind
    fun ret' c₂ ⟨h₂, hnone⟩ => ?_
  exact (built_function ts ret' lastSpan span hb (hts ▸ hk) (h₂.grows.ready hc)
    fun h => hn (hnone h)).mono fun id c' h => h₂.append h

/-! Operators -/

theorem built_binary (op : BinaryOp) {l r : Nat} (span : Span)
    (h : Built permit strict .part c₀ [l, r] c) :
    Yields (binary op l r span) c fun id c' => Built permit strict p c₀ [id] c' := by
  unfold binary
  have hend (t : Ty) {c' : Context} (h' : Built permit strict .part c₀ [l, r] c') :=
    built_alloc (e := .binary op l r span) (p := p) t h' trivial (.refl _) rfl trivial
  dsimp only
  split
  · exact ((remarks_arithmetic op l r).yields h).bind fun t _ h' => hend t h'
  · split
    · exact ((remarks_comparison op l r span).yields h).bind fun _ _ h' => hend _ h'
    · refine ((remarks_expectType .bool l).yields h).bind fun _ c₁ h₁ => ?_
      exact ((remarks_expectType .bool r).yields h₁).bind fun _ _ h' => hend _ h'

theorem built_unary (op : UnaryOp) {v : Nat} (span : Span)
    (h : Built permit strict .part c₀ [v] c) :
    Yields (unary op v span) c fun id c' => Built permit strict p c₀ [id] c' := by
  unfold unary
  have hend (t : Ty) {c' : Context} (h' : Built permit strict .part c₀ [v] c') :=
    built_alloc (e := .unary op v span) (p := p) t h' trivial (.refl _) rfl trivial
  cases op with
  | not => exact ((remarks_expectType .bool v).yields h).bind fun _ _ h' => hend _ h'
  | negate => exact ((remarks_negation v).yields h).bind fun t _ h' => hend t h'

/-! Control flow -/

theorem built_branch {condition thenBranch : Check Nat} {elseBranch : Check (Option Nat)}
    (span : Span) (hcond : Makes permit strict .part known condition)
    (hthen : Makes permit strict .part known thenBranch)
    (helse : Builds permit strict .part known Option.toList elseBranch) (hc : c.Ready known) :
    Yields (branch condition thenBranch elseBranch span) c fun id c' =>
      Built permit strict p c [id] c' := by
  unfold branch
  refine (hcond c hc trivial).bind fun i c₁ h₁ => ?_
  refine ((remarks_expectType .bool i).yields h₁).bind fun _ c₂ h₂ => ?_
  refine (hthen.after h₂ hc).bind fun j c₃ h₃ => ?_
  refine (helse.after h₃ hc).bind fun k c₄ h₄ => ?_
  refine ((remarks_branchType j k span).yields h₄).bind fun t c₅ h₅ => ?_
  exact built_alloc t h₅ trivial (.refl _) rfl trivial

theorem built_loop {condition body : Check Nat} (span : Span)
    (hcond : Makes permit strict .part known condition)
    (hbody : Makes permit strict .part known body) (hc : c.Ready known) :
    Yields (loop condition body span) c fun id c' => Built permit strict p c [id] c' := by
  unfold loop
  refine (hcond c hc trivial).bind fun i c₁ h₁ => ?_
  refine ((remarks_expectType .bool i).yields h₁).bind fun _ c₂ h₂ => ?_
  refine (hbody.after h₂ hc).bind fun j c₃ h₃ => ?_
  exact built_alloc .unit h₃ trivial (.refl _) rfl trivial

theorem yields_expectType (t : Ty) (i : Nat) :
    Yields (expectType t i) c fun _ c' =>
      c'.diagnostics ≠ [] ∨ t.isAssignable (c.program.type i) := by
  unfold expectType
  refine Yields.bind (P := fun actual c' => actual = c.program.type i ∧ c' = c) ⟨rfl, rfl⟩ ?_
  rintro _ _ ⟨rfl, rfl⟩
  split
  · rename_i h
    exact yields_pure (Or.inr h)
  · exact Or.inl (List.append_ne_nil_of_right_ne_nil _ (by simp))

theorem built_ret {v : Option Nat} (span : Span) (h : Built permit strict .part c₀ v.toList c) :
    Yields (ret v span) c fun id c' => Built permit strict p c₀ [id] c' := by
  unfold ret
  have hend {c' : Context} (h' : Built permit strict .part c₀ v.toList c')
      (hw : permit.Warrants c' (.ret v span)) :=
    built_alloc (e := .ret v span) (p := p) .any h' trivial (.refl _) rfl hw
  refine yields_get_bind ?_
  dsimp only
  split
  · have hallows : permit.Allows .returnOutsideFunction := ⟨trivial, by simp⟩
    refine (built_report span h hallows).bind ?_
    rintro _ _ ⟨h', hd⟩
    exact hend h' (Or.inl hd)
  · rename_i expected value hret
    refine (((remarks_expectType expected value) c).and
      (((remarks_expectType expected value).yields h).and (yields_expectType expected value))).bind ?_
    rintro _ _ ⟨⟨ds, rfl, _⟩, h', hfit⟩
    exact hend h' (hfit.imp_right fun hfit => ⟨expected, hret, hfit⟩)
  · rename_i expected hret
    split
    · rename_i hany
      exact hend h (Or.inr ⟨expected, hret, Bool.or_eq_true_iff.mp hany⟩)
    · rename_i hany
      simp only [Bool.or_eq_true, Ty.isUnit_iff, Ty.isAny_iff, not_or] at hany
      have hallows : permit.Allows (.missingReturnValue expected) := ⟨hany.symm, by simp⟩
      refine (built_report span h hallows).bind ?_
      rintro _ _ ⟨h', hd⟩
      exact hend h' (Or.inl hd)

/-! Values -/

theorem built_index {r i : Nat} (span : Span) (h : Built permit strict .part c₀ [r, i] c) :
    Yields (index r i span) c fun id c' => Built permit strict p c₀ [id] c' := by
  unfold index
  have hend (t : Ty) {c' : Context} (h' : Built permit strict .part c₀ [r, i] c') :=
    built_alloc (e := .index r i span) (p := p) t h' trivial (.refl _) rfl trivial
  refine ((remarks_expectType .int i).yields h).bind fun _ c₁ h₁ => ?_
  refine ((remarks_typeOf r).yields h₁).bind fun t c₂ h₂ => ?_
  split
  · exact hend _ h₂
  · rename_i hnone
    have hremark : (Problem.notIndexable t).IsRemark := by
      refine ⟨?_, by simp⟩
      rintro rfl
      simp [elementType?, Ty.isAny] at hnone
    refine ((remarks_spanOf r).yields h₂).bind fun s c₃ h₃ => ?_
    exact ((remarks_report s hremark).yields h₃).bind fun _ _ h' => hend _ h'

theorem built_assignIndex {r i v : Nat} (span : Span)
    (h : Built permit strict .part c₀ [r, i, v] c) :
    Yields (assignIndex r i v span) c fun id c' => Built permit strict p c₀ [id] c' := by
  unfold assignIndex
  have hend {c' : Context} (h' : Built permit strict .part c₀ [r, i, v] c') :=
    built_alloc (e := .assignIndex r i v span) (p := p) .unit h' trivial (.refl _) rfl trivial
  refine ((remarks_expectType .int i).yields h).bind fun _ c₁ h₁ => ?_
  refine ((remarks_typeOf r).yields h₁).bind fun t c₂ h₂ => ?_
  dsimp only
  split
  · exact ((remarks_expectType _ v).yields h₂).bind fun _ _ h' => hend h'
  · split
    · exact hend h₂
    · rename_i hany
      have hremark : (Problem.notIndexable t).IsRemark := ⟨Ty.ne_any_of_isAny hany, by simp⟩
      refine ((remarks_spanOf r).yields h₂).bind fun s c₃ h₃ => ?_
      exact ((remarks_report s hremark).yields h₃).bind fun _ _ h' => hend h'

theorem built_caseTest {v : Nat} (case : String) (span : Span)
    (h : Built permit strict .part c₀ [v] c) :
    Yields (caseTest v case span) c fun id c' => Built permit strict p c₀ [id] c' := by
  unfold caseTest
  have hend {c' : Context} (h' : Built permit strict .part c₀ [v] c') :=
    built_alloc (e := .test v case span) (p := p) .bool h' trivial (.refl _) rfl trivial
  refine ((remarks_typeOf v).yields h).bind fun t c₁ h₁ => yields_get_bind ?_
  dsimp only
  split
  · exact hend h₁
  · rename_i hknows
    have hremark : (Problem.unknownMember t case).IsRemark := by
      refine ⟨?_, by simp⟩
      rintro rfl
      exact hknows rfl
    exact ((remarks_report span hremark).yields h₁).bind fun _ _ h' => hend h'

theorem built_array {es : List Nat} (span : Span) (h : Built permit strict .part c₀ es c) :
    Yields (array es span) c fun id c' => Built permit strict p c₀ [id] c' := by
  unfold array
  refine ((remarks_mapM remarks_typeOf es).yields h).bind fun types c₁ h₁ => ?_
  refine ((remarks_forM (remarks_expectType _) es).yields h₁).bind fun _ c₂ h₂ => ?_
  exact built_alloc _ h₂ trivial (.refl _) rfl trivial

/-! Calls and members -/

theorem built_call (x : String) {callee : Nat} {args : List Nat} (span : Span)
    (h : Built permit strict .part c₀ ids c) (hp : (callee :: args).Perm ids) :
    Yields (call x callee args span) c fun id c' => Built permit strict p c₀ [id] c' := by
  unfold call
  refine ((remarks_callType x callee args span).yields h).bind fun t c₁ h₁ => yields_get_bind ?_
  exact built_alloc _ h₁ trivial hp rfl trivial

theorem built_packageCall (hpaths : MayReportPaths permit) (package method : String)
    (methodSpan : Span) {args : Check (List Nat)} (span : Span)
    (ha : Builds permit strict .part known id args) (hc : c.Ready known) :
    Yields (packageCall package method methodSpan args span) c fun id c' =>
      Built permit strict p c [id] c' := by
  unfold packageCall
  refine (ha c hc trivial).bind fun args c₁ h₁ => yields_get_bind ?_
  split
  · rename_i r hr
    have hreach := Context.reaches_of_resolveQualified hr
    refine (built_append_read methodSpan h₁ hreach).bind fun callee c₂ h₂ => ?_
    exact built_call method span h₂ (List.perm_append_singleton callee args).symm
  · exact built_failure methodSpan span h₁ (Permit.allows_name (hpaths package method))

section Receiver

variable {receiver : Nat} {method : String} {methodSpan span : Span} {args : Check (List Nat)}

theorem built_receiverCall {r : Resolved} (h : Built permit strict .part c₀ [receiver] c)
    (hr : c.Reaches r.target) (ha : Builds permit strict .part known id args) (hc : c₀.Ready known) :
    Yields (receiverCall r receiver method methodSpan args span) c fun id c' =>
      Built permit strict p c₀ [id] c' := by
  unfold receiverCall
  refine (built_append_read methodSpan h hr).bind fun callee c₁ h₁ => ?_
  refine (ha.after h₁ hc).bind fun args c₂ h₂ => ?_
  exact built_call method span h₂ (List.Perm.swap receiver callee args)

theorem built_fieldCall (type : Ty) (h : Built permit strict .part c₀ [receiver] c)
    (hs : permit.selects method)
    (hf : (memberType? c method (c.program.type receiver)).isSome)
    (ha : Builds permit strict .part known id args) (hc : c₀.Ready known) :
    Yields (fieldCall type receiver method methodSpan args span) c fun id c' =>
      Built permit strict p c₀ [id] c' := by
  unfold fieldCall
  refine Yields.bind (P := fun _ c' => c' = c) rfl ?_
  rintro receiverSpan c₁ rfl
  have hfield : Yields (alloc (.field receiver method (receiverSpan.join methodSpan)) type) c₁
      fun id c' => Built permit strict .part c₀ [id] c' :=
    built_alloc type h trivial (.refl _) rfl ⟨hs, hf⟩
  refine hfield.bind fun callee c₂ h₂ => ?_
  refine (ha.after h₂ hc).bind fun args c₃ h₃ => ?_
  exact built_call method span h₃ (.refl _)

/-- The method is looked up before the arguments are checked. -/
theorem built_plainMethodCall (h : Built permit strict .part c₀ [receiver] c)
    (hx : c.Resolves method ∨ permit.unknown method) (ha : Builds permit strict .part known id args)
    (hc : c₀.Ready known) :
    Yields (plainMethodCall receiver method methodSpan args span) c fun id c' =>
      Built permit strict p c₀ [id] c' := by
  unfold plainMethodCall
  refine yields_get_bind ?_
  split
  · rename_i r hr
    exact built_receiverCall h (Context.reaches_of_resolveName hr) ha hc
  · rename_i hr
    refine (built_report methodSpan h (Permit.allows_name ?_)).bind fun _ c₁ ⟨h₁, hd⟩ => ?_
    · exact hx.resolve_left (by simp [Context.Resolves, hr])
    · refine (ha c₁ (h₁.grows.ready hc) trivial).bind fun args c₂ h₂ => ?_
      have hd' : c₂.diagnostics ≠ [] := fun he => hd (List.prefix_nil.mp (he ▸ h₂.grows.diagnostics))
      exact .error p span (h₁.append h₂) hd'

theorem built_valueMethodCall (h : Built permit strict .part c₀ [receiver] c)
    (hs : permit.selects method) (hx : c.Resolves method ∨ permit.unknown method)
    (ha : Builds permit strict .part known id args) (hc : c₀.Ready known) :
    Yields (valueMethodCall receiver method methodSpan args span) c fun id c' =>
      Built permit strict p c₀ [id] c' := by
  unfold valueMethodCall
  refine yields_get_bind ?_
  split
  · rename_i head typeArgs htype
    split
    · rename_i r _ hr
      exact built_receiverCall h (Context.reaches_of_resolveIn hr) ha hc
    · rename_i type _ hfield
      exact built_fieldCall type h hs (by simp [htype, memberType?, hfield]) ha hc
    · exact built_plainMethodCall h hx ha hc
  · exact built_plainMethodCall h hx ha hc

end Receiver

theorem built_methodCall (hpaths : MayReportPaths permit) (receiverNode : Node)
    {receiver : Check Nat} (method : String) (methodSpan : Span) {args : Check (List Nat)}
    (span : Span) (hr : Makes permit strict .part known receiver) (hs : permit.selects method)
    (hx : c.Resolves method ∨ permit.unknown method) (ha : Builds permit strict .part known id args)
    (hc : c.Ready known) :
    Yields (methodCall receiverNode receiver method methodSpan args span) c fun id c' =>
      Built permit strict p c [id] c' := by
  unfold methodCall
  refine yields_get_bind ?_
  split
  · exact built_packageCall hpaths _ method methodSpan span ha hc
  · refine (hr c hc trivial).bind fun receiver c₁ h₁ => ?_
    exact built_valueMethodCall h₁ hs (hx.imp_left h₁.grows.resolves) ha hc

theorem built_member (hpaths : MayReportPaths permit) (receiverNode : Node) {receiver : Check Nat}
    (x : String) (memberSpan span : Span) (hr : Makes permit strict .part known receiver)
    (hs : permit.selects x) (hc : c.Ready known) :
    Yields (member receiverNode receiver x memberSpan span) c fun id c' =>
      Built permit strict p c [id] c' := by
  unfold member
  refine yields_get_bind ?_
  split
  · split
    · rename_i r hr
      exact built_read span (Context.reaches_of_resolveQualified hr)
    · exact built_failure memberSpan span (.nil .part c) (Permit.allows_name (hpaths _ x))
  · refine (hr c hc trivial).bind fun receiver c₁ h₁ => ?_
    unfold valueMember
    refine yields_get_bind ?_
    dsimp only
    split
    · rename_i type htype
      exact built_alloc type h₁ trivial (.refl _) rfl ⟨hs, by simp [htype]⟩
    · rename_i hnone
      refine built_failure memberSpan span h₁ ⟨?_, by simp⟩
      intro hany
      simp [hany, memberType?, Ty.isAny] at hnone

end

end Check

end Tern
