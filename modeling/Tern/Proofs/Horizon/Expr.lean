import Tern.Proofs.Horizon.Rules
import Tern.Proofs.Check.Expr

/-!
Every node stays within a horizon in which all packages are seen that it names by their paths.
-/

set_option autoImplicit false

namespace Tern

/-- A package that the node itself names is seen. -/
def Horizon.Admits (h : Horizon) : Node → Prop
  | .qualified path _ _ _ => h.sees path
  | _ => True

namespace Check

variable {h : Horizon}

mutual

theorem local_expr (n : Node) (ha : ∀ m ∈ n.nodes, h.Admits m) : Local h (expr n) := by
  intro c e hc
  cases n with
  | literal value span =>
    rw [expr]
    refine stays_alloc hc _ ?_ trivial
    cases value <;> exact Ty.obeys_primitive _
  | interpolation parts span =>
    simp only [Node.nodes, List.forall_mem_cons] at ha
    rw [expr]
    refine (local_exprParts parts ha.2 c e hc).bind fun _ _ _ hl _ => ?_
    exact stays_alloc hl.covers _ (Ty.obeys_primitive _) trivial
  | name x span =>
    rw [expr]
    exact stays_name hc x span
  | qualified path x nameSpan span =>
    simp only [Node.nodes, List.forall_mem_singleton] at ha
    rw [expr]
    exact stays_qualifiedName hc ha x nameSpan span
  | define head value span =>
    simp only [Node.nodes, List.forall_mem_cons] at ha
    rw [expr]
    exact stays_variableDecl hc head (local_expr value ha.2) span
  | function head body span =>
    simp only [Node.nodes, List.forall_mem_cons] at ha
    rw [expr]
    exact stays_localFunction hc head (local_exprs body ha.2) _ span
  | data decl span =>
    rw [expr]
    exact stays_nestedData hc decl span
  | lambda ps ret body span =>
    simp only [Node.nodes, List.forall_mem_cons] at ha
    rw [expr]
    exact stays_lambda hc ps ret (local_exprs body ha.2) _ span
  | block body span =>
    simp only [Node.nodes, List.forall_mem_cons] at ha
    rw [expr]
    exact stays_block hc (local_exprs body ha.2) span
  | call callee args span =>
    simp only [Node.nodes, List.forall_mem_cons, List.forall_mem_append] at ha
    obtain ⟨_, hcallee, hargs⟩ := ha
    by_cases hm : callee.IsMember
    · obtain ⟨receiver, method, methodSpan, memberSpan, hm⟩ := hm
      have hreceiver (ha : ∀ m ∈ receiver.nodes, h.Admits m) := local_receiver callee hm ha
      subst hm
      simp only [Node.nodes, List.forall_mem_cons] at hcallee
      rw [expr]
      exact stays_methodCall hc receiver (hreceiver hcallee.2) (local_exprs args hargs) method
        methodSpan span
    · rw [expr_call hm]
      refine (local_expr callee hcallee c e hc).bind fun i c₁ e₁ h₁ _ => ?_
      refine (local_exprs args hargs c₁ e₁ h₁.covers).bind fun is c₂ e₂ h₂ _ => ?_
      exact stays_call h₂.covers _ i is span
  | member receiver x memberSpan span =>
    simp only [Node.nodes, List.forall_mem_cons] at ha
    rw [expr]
    exact stays_member hc receiver (local_expr receiver ha.2) x memberSpan span
  | index receiver i span =>
    simp only [Node.nodes, List.forall_mem_cons, List.forall_mem_append] at ha
    obtain ⟨_, hreceiver, hi⟩ := ha
    rw [expr]
    refine (local_expr receiver hreceiver c e hc).bind fun r c₁ e₁ h₁ _ => ?_
    refine (local_expr i hi c₁ e₁ h₁.covers).bind fun j c₂ e₂ h₂ _ => ?_
    exact stays_index h₂.covers r j span
  | assign x nameSpan value span =>
    simp only [Node.nodes, List.forall_mem_cons] at ha
    rw [expr]
    exact stays_assignment hc x nameSpan (local_expr value ha.2) span
  | assignIndex receiver i value span =>
    simp only [Node.nodes, List.forall_mem_cons, List.forall_mem_append] at ha
    obtain ⟨_, hreceiver, hi, hv⟩ := ha
    rw [expr]
    refine (local_expr receiver hreceiver c e hc).bind fun r c₁ e₁ h₁ _ => ?_
    refine (local_expr i hi c₁ e₁ h₁.covers).bind fun j c₂ e₂ h₂ _ => ?_
    refine (local_expr value hv c₂ e₂ h₂.covers).bind fun v c₃ e₃ h₃ _ => ?_
    exact stays_assignIndex h₃.covers r j v span
  | binary op left right span =>
    simp only [Node.nodes, List.forall_mem_cons, List.forall_mem_append] at ha
    obtain ⟨_, hleft, hright⟩ := ha
    rw [expr]
    refine (local_expr left hleft c e hc).bind fun i c₁ e₁ h₁ _ => ?_
    refine (local_expr right hright c₁ e₁ h₁.covers).bind fun j c₂ e₂ h₂ _ => ?_
    exact stays_binary h₂.covers op i j span
  | unary op operand span =>
    simp only [Node.nodes, List.forall_mem_cons] at ha
    rw [expr]
    exact (local_expr operand ha.2 c e hc).bind fun i _ _ hl _ => stays_unary hl.covers op i span
  | branch condition thenBranch elseBranch span =>
    simp only [Node.nodes, List.forall_mem_cons, List.forall_mem_append] at ha
    obtain ⟨_, hcond, hthen, helse⟩ := ha
    rw [expr]
    exact stays_branch hc (local_expr condition hcond) (local_expr thenBranch hthen)
      (local_exprOption elseBranch helse) span
  | loop condition body span =>
    simp only [Node.nodes, List.forall_mem_cons, List.forall_mem_append] at ha
    obtain ⟨_, hcond, hbody⟩ := ha
    rw [expr]
    exact stays_loop hc (local_expr condition hcond) (local_expr body hbody) span
  | ret value span =>
    simp only [Node.nodes, List.forall_mem_cons] at ha
    rw [expr]
    exact (local_exprOption value ha.2 c e hc).bind fun v _ _ hl _ => stays_ret hl.covers v span
  | test value case span =>
    simp only [Node.nodes, List.forall_mem_cons] at ha
    rw [expr]
    exact (local_expr value ha.2 c e hc).bind fun i _ _ hl _ => stays_caseTest hl.covers i case span
  | array elements span =>
    simp only [Node.nodes, List.forall_mem_cons] at ha
    rw [expr]
    exact (local_exprs elements ha.2 c e hc).bind fun is _ _ hl _ => stays_array hl.covers is span
termination_by structural n

-- the receiver of a method is a part of a part of the call
theorem local_receiver (n : Node) {receiver : Node} {x : String} {memberSpan span : Span}
    (hn : n = .member receiver x memberSpan span) (ha : ∀ m ∈ receiver.nodes, h.Admits m) :
    Local h (expr receiver) := by
  cases n with
  | member r _ _ _ =>
    obtain rfl : r = receiver := (Node.member.inj hn).1
    exact local_expr r ha
  | _ => cases hn
termination_by structural n

theorem local_exprs (ns : List Node) (ha : ∀ m ∈ Node.allNodes ns, h.Admits m) :
    Local h (exprs ns) := by
  intro c e hc
  cases ns with
  | nil => exact stays_pure hc trivial
  | cons n ns =>
    simp only [Node.allNodes, List.forall_mem_append] at ha
    rw [exprs]
    refine (local_expr n ha.1 c e hc).bind fun i c₁ e₁ h₁ _ => ?_
    refine (local_exprs ns ha.2 c₁ e₁ h₁.covers).bind fun is c₂ e₂ h₂ _ => ?_
    exact stays_pure h₂.covers trivial
termination_by structural ns

theorem local_exprOption (n : Option Node) (ha : ∀ m ∈ Node.optionNodes n, h.Admits m) :
    Local h (exprOption n) := by
  intro c e hc
  cases n with
  | none => exact stays_pure hc trivial
  | some n =>
    simp only [Node.optionNodes] at ha
    rw [exprOption]
    exact (local_expr n ha c e hc).bind fun _ _ _ hl _ => stays_pure hl.covers trivial
termination_by structural n

theorem local_exprParts (ps : List Part) (ha : ∀ m ∈ Part.allNodes ps, h.Admits m) :
    Local h (exprParts ps) := by
  intro c e hc
  cases ps with
  | nil => exact stays_pure hc trivial
  | cons p ps =>
    cases p with
    | text s =>
      simp only [Part.allNodes] at ha
      rw [exprParts]
      exact (local_exprParts ps ha c e hc).bind fun _ _ _ hl _ => stays_pure hl.covers trivial
    | expr n =>
      simp only [Part.allNodes, List.forall_mem_append] at ha
      rw [exprParts]
      refine (local_expr n ha.1 c e hc).bind fun i c₁ e₁ h₁ _ => ?_
      refine (local_exprParts ps ha.2 c₁ e₁ h₁.covers).bind fun qs c₂ e₂ h₂ _ => ?_
      exact stays_pure h₂.covers trivial
termination_by structural ps

end

end Check

end Tern
