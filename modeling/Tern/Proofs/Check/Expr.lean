import Tern.Check.Expr
import Tern.Reference
import Tern.Proofs.Check.Rules

/-!
Every node builds, in the sense of `Built`. The free names of the node are those that `Reference`
collects: what checking reports as unrecognized is among them, because a name that a statement binds
for `Reference` resolves while the statements after it are checked.
-/

set_option autoImplicit false

namespace Tern

/-- A call of such a node is the call of a method. -/
def Node.IsMember (n : Node) : Prop :=
  ∃ receiver x memberSpan span, n = .member receiver x memberSpan span

namespace Check

open Reference

theorem expr_call {callee : Node} {args : List Node} {span : Span} (h : ¬ callee.IsMember) :
    expr (.call callee args span) = (do
      let id ← expr callee
      let args ← exprs args
      call (calleeName callee) id args span) := by
  rw [expr]
  exact fun receiver x memberSpan span he => h ⟨receiver, x, memberSpan, span, he⟩

theorem ofNode_call {bound : List String} {eager : Bool} {callee : Node} {args : List Node}
    {span : Span} (h : ¬ callee.IsMember) :
    ofNode bound eager (.call callee args span) =
      ofNode bound eager callee ++ ofNodes bound eager args := by
  rw [ofNode]
  exact fun receiver x memberSpan span he => h ⟨receiver, x, memberSpan, span, he⟩

/-- A name that is bound, or known without that. -/
def Within (bound : List String) (known : String → Prop) (x : String) : Prop := x ∈ bound ∨ known x

/-- Every reference is to a known name, or to one that may be reported. -/
def Foreseen (permit : Permit) (known : String → Prop) (rs : List Reference) : Prop :=
  ∀ r ∈ rs, known r.name ∨ permit.unknown r.name

section

variable {permit : Permit} {strict : Bool} {known : String → Prop} {bound : List String}
  {eager : Bool} {c : Context}

theorem foreseen_append {rs ss : List Reference} :
    Foreseen permit known (rs ++ ss) ↔ Foreseen permit known rs ∧ Foreseen permit known ss :=
  List.forall_mem_append

/-- A name that is used resolves, or may be reported. -/
theorem Foreseen.resolves {x : String} (h : Foreseen permit known (use bound eager x))
    (hc : c.Ready (Within bound known)) : c.Resolves x ∨ permit.unknown x := by
  by_cases hx : x ∈ bound
  · exact Or.inl (hc.resolves x (Or.inl hx))
  · have hmem : (⟨x, eager⟩ : Reference) ∈ use bound eager x := by simp [use, hx]
    exact (h _ hmem).imp_left fun hk => hc.resolves x (Or.inr hk)

/-- A declaration may stand among statements, and anywhere if declarations are not watched. -/
theorem inPlace_of_statement {p : Place} {c' : Context} {ids : List Nat}
    (h : Built permit strict .statement c ids c') (hp : strict = true → p = .statement) :
    Built permit strict p c ids c' := by
  cases p with
  | statement => exact h
  | part =>
    refine .anywhere ?_ h
    cases strict with
    | false => rfl
    | true => exact absurd (hp rfl) (by simp)

/-- Where declarations are watched, those among statements are local. -/
theorem declares_of_hosts {p : Place} {x : String} (hdecl : strict = false → ∀ x, permit.declares x)
    (hp : strict = true → p = .statement) (hs : c.Hosts p) (hroot : c.scope = ScopeTree.root) :
    permit.declares x := by
  cases strict with
  | false => exact hdecl rfl x
  | true =>
    rw [hp rfl] at hs
    exact absurd hroot hs

theorem within_cons {x y : String} : Within (y :: bound) known x ↔ x = y ∨ Within bound known x := by
  simp [Within, or_assoc]

theorem within_append {x : String} {names : List String} :
    Within (names ++ bound) known x ↔ x ∈ names ∨ Within bound known x := by
  simp [Within, or_assoc]

end

section

variable {permit : Permit} {strict : Bool} {known : String → Prop}
  (hpaths : MayReportPaths permit) (hdecl : strict = false → ∀ x, permit.declares x)

include hpaths hdecl

set_option linter.unusedSectionVars false in
mutual

theorem makes_expr {bound : List String} {eager : Bool} {p : Place} (n : Node)
    (hf : strict = true → n.FitsIn p) (ha : ∀ m ∈ n.nodes, permit.Covers m)
    (hr : Foreseen permit known (ofNode bound eager n)) :
    Makes permit strict p (Within bound known) (expr n) := by
  intro c hc hs
  cases n with
  | literal value span =>
    rw [expr]
    exact built_alloc _ (.nil .part c) trivial (.refl _) rfl trivial
  | interpolation parts span =>
    rw [expr]
    simp only [Node.FitsIn] at hf
    simp only [Node.nodes, List.forall_mem_cons] at ha
    rw [ofNode] at hr
    refine (builds_exprParts parts hf ha.2 hr c hc trivial).bind fun ps c₁ h₁ => ?_
    exact built_alloc _ h₁ trivial (.refl _) rfl trivial
  | name x span =>
    rw [expr]
    rw [ofNode] at hr
    exact built_name span (hr.resolves hc)
  | qualified path x nameSpan span =>
    rw [expr]
    exact built_qualifiedName hpaths path x nameSpan span
  | define head value span =>
    rw [expr]
    simp only [Node.FitsIn] at hf
    simp only [Node.nodes, List.forall_mem_cons] at ha
    rw [ofNode] at hr
    have hv := makes_expr (p := .part) value (fun hs => (hf hs).2) ha.2 hr
    have hp := fun hs => (hf hs).1
    exact (built_variableDecl head span hv hc (declares_of_hosts hdecl hp hs)).mono
      fun id c' h => inPlace_of_statement h.1 hp
  | function head body span =>
    rw [expr]
    simp only [Node.FitsIn] at hf
    simp only [Node.nodes, List.forall_mem_cons] at ha
    rw [ofNode] at hr
    have hb := builds_statements body (fun hs => (hf hs).2) ha.2 hr
    exact (built_localFunction head _ span hb
      (fun x hx => (within_append.mp hx).imp_right Or.inr) hc).mono
      fun id c' h => inPlace_of_statement h.1 fun hs => (hf hs).1
  | data decl span =>
    rw [expr]
    simp only [Node.nodes, List.forall_mem_singleton] at ha
    exact (built_nestedData ha).mono fun id c' h => h.1
  | lambda ps ret body span =>
    rw [expr]
    simp only [Node.FitsIn] at hf
    simp only [Node.nodes, List.forall_mem_cons] at ha
    rw [ofNode] at hr
    refine built_lambda ps ret _ span (builds_statements body hf ha.2 hr) (fun x => within_append.mp)
      hc ?_
    rintro rfl
    exact ha.1
  | block body span =>
    rw [expr]
    simp only [Node.FitsIn] at hf
    simp only [Node.nodes, List.forall_mem_cons] at ha
    rw [ofNode] at hr
    exact built_block span (builds_statements body hf ha.2 hr) hc
  | call callee args span =>
    simp only [Node.FitsIn] at hf
    simp only [Node.nodes, List.forall_mem_cons, List.forall_mem_append] at ha
    obtain ⟨_, hcallee, hargs⟩ := ha
    by_cases hm : callee.IsMember
    · obtain ⟨receiver, method, methodSpan, memberSpan, hm⟩ := hm
      have hreceiver (hf : strict = true → receiver.FitsIn .part)
          (ha : ∀ m ∈ receiver.nodes, permit.Covers m)
          (hr : Foreseen permit known (ofNode bound eager receiver)) :=
        makes_receiver callee hm hf ha hr
      subst hm
      rw [expr]
      rw [ofNode, foreseen_append, foreseen_append] at hr
      simp only [Node.FitsIn] at hf
      simp only [Node.nodes, List.forall_mem_cons] at hcallee
      have hreceiver := hreceiver (fun hs => (hf hs).1) hcallee.2 hr.1.1
      have hargs := builds_exprs args (fun hs => (hf hs).2) hargs hr.2
      exact built_methodCall hpaths receiver method methodSpan span hreceiver hcallee.1
        (hr.1.2.resolves hc) hargs hc
    · rw [ofNode_call hm, foreseen_append] at hr
      rw [expr_call hm]
      refine (makes_expr (p := .part) callee (fun hs => (hf hs).1) hcallee hr.1 c hc trivial).bind
        fun i c₁ h₁ => ?_
      refine ((builds_exprs args (fun hs => (hf hs).2) hargs hr.2).after h₁ hc).bind
        fun is c₂ h₂ => ?_
      exact built_call _ span h₂ (.refl _)
  | member receiver x memberSpan span =>
    rw [expr]
    simp only [Node.FitsIn] at hf
    simp only [Node.nodes, List.forall_mem_cons] at ha
    rw [ofNode] at hr
    exact built_member hpaths receiver x memberSpan span (makes_expr receiver hf ha.2 hr) ha.1 hc
  | index receiver i span =>
    rw [expr]
    simp only [Node.FitsIn] at hf
    simp only [Node.nodes, List.forall_mem_cons, List.forall_mem_append] at ha
    rw [ofNode, foreseen_append] at hr
    obtain ⟨_, hreceiver, hi⟩ := ha
    refine (makes_expr (p := .part) receiver (fun hs => (hf hs).1) hreceiver hr.1 c hc trivial).bind
      fun r c₁ h₁ => ?_
    refine ((makes_expr (p := .part) i (fun hs => (hf hs).2) hi hr.2).after h₁ hc).bind
      fun i c₂ h₂ => ?_
    exact built_index span h₂
  | assign x nameSpan value span =>
    rw [expr]
    simp only [Node.FitsIn] at hf
    simp only [Node.nodes, List.forall_mem_cons] at ha
    rw [ofNode, foreseen_append] at hr
    exact built_assignment nameSpan span (makes_expr value hf ha.2 hr.2) hc (hr.1.resolves hc)
  | assignIndex receiver i value span =>
    rw [expr]
    simp only [Node.FitsIn] at hf
    simp only [Node.nodes, List.forall_mem_cons, List.forall_mem_append] at ha
    obtain ⟨_, hreceiver, hi, hv⟩ := ha
    rw [ofNode, foreseen_append, foreseen_append] at hr
    refine (makes_expr (p := .part) receiver (fun hs => (hf hs).1) hreceiver hr.1.1 c hc trivial).bind
      fun r c₁ h₁ => ?_
    refine ((makes_expr (p := .part) i (fun hs => (hf hs).2.1) hi hr.1.2).after h₁ hc).bind
      fun i c₂ h₂ => ?_
    refine ((makes_expr (p := .part) value (fun hs => (hf hs).2.2) hv hr.2).after h₂ hc).bind
      fun v c₃ h₃ => ?_
    exact built_assignIndex span h₃
  | binary op left right span =>
    rw [expr]
    simp only [Node.FitsIn] at hf
    simp only [Node.nodes, List.forall_mem_cons, List.forall_mem_append] at ha
    obtain ⟨_, hleft, hright⟩ := ha
    rw [ofNode, foreseen_append] at hr
    refine (makes_expr (p := .part) left (fun hs => (hf hs).1) hleft hr.1 c hc trivial).bind
      fun l c₁ h₁ => ?_
    refine ((makes_expr (p := .part) right (fun hs => (hf hs).2) hright hr.2).after h₁ hc).bind
      fun r c₂ h₂ => ?_
    exact built_binary op span h₂
  | unary op operand span =>
    rw [expr]
    simp only [Node.FitsIn] at hf
    simp only [Node.nodes, List.forall_mem_cons] at ha
    rw [ofNode] at hr
    exact (makes_expr (p := .part) operand hf ha.2 hr c hc trivial).bind
      fun v c₁ h₁ => built_unary op span h₁
  | branch condition thenBranch elseBranch span =>
    rw [expr]
    simp only [Node.FitsIn] at hf
    simp only [Node.nodes, List.forall_mem_cons, List.forall_mem_append] at ha
    obtain ⟨_, hcond, hthen, helse⟩ := ha
    rw [ofNode, foreseen_append, foreseen_append] at hr
    exact built_branch span (makes_expr condition (fun hs => (hf hs).1) hcond hr.1.1)
      (makes_expr thenBranch (fun hs => (hf hs).2.1) hthen hr.1.2)
      (builds_exprOption elseBranch (fun hs => (hf hs).2.2) helse hr.2) hc
  | loop condition body span =>
    rw [expr]
    simp only [Node.FitsIn] at hf
    simp only [Node.nodes, List.forall_mem_cons, List.forall_mem_append] at ha
    obtain ⟨_, hcond, hbody⟩ := ha
    rw [ofNode, foreseen_append] at hr
    exact built_loop span (makes_expr condition (fun hs => (hf hs).1) hcond hr.1)
      (makes_expr body (fun hs => (hf hs).2) hbody hr.2) hc
  | ret value span =>
    rw [expr]
    simp only [Node.FitsIn] at hf
    simp only [Node.nodes, List.forall_mem_cons] at ha
    rw [ofNode] at hr
    exact (builds_exprOption value hf ha.2 hr c hc trivial).bind fun v c₁ h₁ => built_ret span h₁
  | test value case span =>
    rw [expr]
    simp only [Node.FitsIn] at hf
    simp only [Node.nodes, List.forall_mem_cons] at ha
    rw [ofNode] at hr
    exact (makes_expr (p := .part) value hf ha.2 hr c hc trivial).bind
      fun v c₁ h₁ => built_caseTest case span h₁
  | array elements span =>
    rw [expr]
    simp only [Node.FitsIn] at hf
    simp only [Node.nodes, List.forall_mem_cons] at ha
    rw [ofNode] at hr
    exact (builds_exprs elements hf ha.2 hr c hc trivial).bind fun es c₁ h₁ => built_array span h₁
termination_by structural n

-- the receiver of a method is a part of a part of the call
theorem makes_receiver {bound : List String} {eager : Bool} (n : Node) {receiver : Node} {x : String}
    {memberSpan span : Span} (hn : n = .member receiver x memberSpan span)
    (hf : strict = true → receiver.FitsIn .part) (ha : ∀ m ∈ receiver.nodes, permit.Covers m)
    (hr : Foreseen permit known (ofNode bound eager receiver)) :
    Makes permit strict .part (Within bound known) (expr receiver) := by
  cases n with
  | member r _ _ _ =>
    obtain rfl : r = receiver := (Node.member.inj hn).1
    exact makes_expr r hf ha hr
  | _ => cases hn
termination_by structural n

theorem builds_exprs {bound : List String} {eager : Bool} (ns : List Node)
    (hf : strict = true → Node.AllFit ns .part) (ha : ∀ m ∈ Node.allNodes ns, permit.Covers m)
    (hr : Foreseen permit known (ofNodes bound eager ns)) :
    Builds permit strict .part (Within bound known) id (exprs ns) := by
  intro c hc _
  cases ns with
  | nil => exact .nil .part c
  | cons n ns =>
    rw [exprs]
    rw [ofNodes, foreseen_append] at hr
    simp only [Node.AllFit] at hf
    simp only [Node.allNodes, List.forall_mem_append] at ha
    refine (makes_expr (p := .part) n (fun hs => (hf hs).1) ha.1 hr.1 c hc trivial).bind
      fun i c₁ h₁ => ?_
    exact ((builds_exprs ns (fun hs => (hf hs).2) ha.2 hr.2).after h₁ hc).bind fun is c₂ h₂ => h₂
termination_by structural ns

/-- Each statement may declare names that the rest refers to. -/
theorem builds_statements {bound : List String} {eager : Bool} (ns : List Node)
    (hf : strict = true → Node.AllFit ns .statement) (ha : ∀ m ∈ Node.allNodes ns, permit.Covers m)
    (hr : Foreseen permit known (ofStatements bound eager ns)) :
    Builds permit strict .statement (Within bound known) id (exprs ns) := by
  intro c hc hs
  cases ns with
  | nil => exact .nil .statement c
  | cons n ns =>
    rw [exprs]
    simp only [Node.AllFit] at hf
    simp only [Node.allNodes, List.forall_mem_append] at ha
    obtain ⟨ha, hrest⟩ := ha
    -- what is bound for the rest, and why it resolves there
    suffices h : ∃ bound', Foreseen permit known (ofStatements bound' eager ns) ∧
        Yields (expr n) c fun i c' => Built permit strict .statement c [i] c' ∧
          c'.Ready (Within bound' known) by
      obtain ⟨bound', hr', h⟩ := h
      refine h.bind fun i c₁ ⟨h₁, hc₁⟩ => ?_
      have hs₁ : c₁.Hosts .statement := (h₁.grows.scope ▸ hs : c₁.scope ≠ ScopeTree.root)
      exact (builds_statements ns (fun hs => (hf hs).2) hrest hr' c₁ hc₁ hs₁).bind
        fun is c₂ h₂ => h₁.append h₂
    cases n with
    | define head value span =>
      rw [ofStatements, foreseen_append] at hr
      rw [expr]
      simp only [Node.FitsIn] at hf
      simp only [Node.nodes, List.forall_mem_cons] at ha
      have hv := makes_expr (p := .part) value (fun hs => (hf hs).1.2) ha.2 hr.1
      refine ⟨_, hr.2, (built_variableDecl head span hv hc (absurd · hs)).mono
        fun i c₁ ⟨h₁, hx, _⟩ => ⟨h₁, ?_⟩⟩
      exact ((h₁.grows.ready hc).insert hx).mono fun x hx => within_cons.mp hx
    | function head body span =>
      rw [ofStatements, foreseen_append] at hr
      rw [expr]
      simp only [Node.FitsIn] at hf
      simp only [Node.nodes, List.forall_mem_cons] at ha
      have hb := builds_statements body (fun hs => (hf hs).1.2) ha.2 hr.1
      refine ⟨_, hr.2, (built_localFunction head _ span hb (fun x hx =>
        (within_append.mp hx).imp_right within_cons.mp) hc).mono fun i c₁ ⟨h₁, hx⟩ => ⟨h₁, ?_⟩⟩
      exact ((h₁.grows.ready hc).insert hx).mono fun x hx => within_cons.mp hx
    | data decl span =>
      rw [ofStatements] at hr
      rw [expr]
      simp only [Node.nodes, List.forall_mem_singleton] at ha
      refine ⟨_, hr, (built_nestedData ha).mono fun i c₁ ⟨h₁, hx⟩ => ⟨h₁, ?_⟩⟩
      have hc₁ := h₁.grows.ready hc
      exact ⟨hc₁.placed, fun x hw => (within_append.mp hw).elim (hx x) (hc₁.resolves x)⟩
    | _ =>
      rw [ofStatements, foreseen_append] at hr
      · refine ⟨bound, hr.2, (makes_expr _ (fun hs => (hf hs).1) ha hr.1 c hc hs).mono
          fun i c₁ h₁ => ?_⟩
        exact ⟨h₁, h₁.grows.ready hc⟩
      all_goals simp
termination_by structural ns

theorem builds_exprOption {bound : List String} {eager : Bool} (n : Option Node)
    (hf : strict = true → Node.OptionFits n) (ha : ∀ m ∈ Node.optionNodes n, permit.Covers m)
    (hr : Foreseen permit known (ofOption bound eager n)) :
    Builds permit strict .part (Within bound known) Option.toList (exprOption n) := by
  intro c hc _
  cases n with
  | none => exact .nil .part c
  | some n =>
    rw [exprOption]
    simp only [Node.OptionFits] at hf
    simp only [Node.optionNodes] at ha
    rw [ofOption] at hr
    exact (makes_expr (p := .part) n hf ha hr c hc trivial).bind fun i c₁ h₁ => h₁
termination_by structural n

theorem builds_exprParts {bound : List String} {eager : Bool} (ps : List Part)
    (hf : strict = true → Part.AllFit ps) (ha : ∀ m ∈ Part.allNodes ps, permit.Covers m)
    (hr : Foreseen permit known (ofParts bound eager ps)) :
    Builds permit strict .part (Within bound known) (fun ps => ps.flatMap ExprPart.ids)
      (exprParts ps) := by
  intro c hc _
  cases ps with
  | nil => exact .nil .part c
  | cons q ps =>
    cases q with
    | text s =>
      rw [exprParts]
      rw [ofParts] at hr
      simp only [Part.AllFit] at hf
      simp only [Part.allNodes] at ha
      exact (builds_exprParts ps hf ha hr c hc trivial).bind fun ps c₁ h₁ => h₁
    | expr n =>
      rw [exprParts]
      rw [ofParts, foreseen_append] at hr
      simp only [Part.AllFit] at hf
      simp only [Part.allNodes, List.forall_mem_append] at ha
      refine (makes_expr (p := .part) n (fun hs => (hf hs).1) ha.1 hr.1 c hc trivial).bind
        fun i c₁ h₁ => ?_
      exact ((builds_exprParts ps (fun hs => (hf hs).2) ha.2 hr.2).after h₁ hc).bind
        fun is c₂ h₂ => h₂
termination_by structural ps

end

end

end Check

end Tern
