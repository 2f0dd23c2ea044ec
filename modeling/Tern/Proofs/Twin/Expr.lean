import Tern.Proofs.Twin.Rules
import Tern.Proofs.Check.Expr

/-!
Every node goes alike in twin contexts, if its free names and what it looks for in the unit's own
package are alike in both.
-/

set_option autoImplicit false

namespace Tern

/-- What the node itself looks for in the package of the unit, otherwise than by a free name, is
alike. -/
def Outlook.Admits (o : Outlook) : Node → Prop
  | .qualified path x _ _ => path = o.path → o.reads path x
  | .call (.member _ x _ _) _ _ => o.reads o.path x
  | .member (.name y _) x _ _ => o.imports.package? y = some o.path → o.reads o.path x
  | .data decl _ => ∀ x ∈ decl.cases.map CaseDecl.name, o.Reads x
  | _ => True

namespace Check

open Reference

/-- All references are to names that are alike. -/
def AllRead (o : Outlook) (rs : List Reference) : Prop := ∀ r ∈ rs, o.Reads r.name

section

variable {o : Outlook} {bound : List String} {eager : Bool} {c c' : Context}

theorem allRead_append {rs ss : List Reference} :
    AllRead o (rs ++ ss) ↔ AllRead o rs ∧ AllRead o ss := List.forall_mem_append

theorem AllRead.knows {x : String} (h : AllRead o (use bound eager x))
    (hk : ∀ x ∈ bound, c.Knows o x) : c.Knows o x := by
  by_cases hx : x ∈ bound
  · exact hk x hx
  · have hmem : (⟨x, eager⟩ : Reference) ∈ use bound eager x := by simp [use, hx]
    exact Or.inr (h _ hmem)

/-- A plain name in the place of a receiver. -/
theorem AllRead.knows_receiver {receiver : Node} (h : AllRead o (ofNode bound eager receiver))
    (hk : ∀ x ∈ bound, c.Knows o x) (y : String) (span : Span) (hy : receiver = .name y span) :
    c.Knows o y := by
  subst hy
  rw [ofNode] at h
  exact h.knows hk

theorem knows_of_append {names : List String} {inside : Context}
    (hnames : ∀ x ∈ names, inside.Knows o x) (hbound : ∀ x ∈ bound, inside.Knows o x) :
    ∀ x ∈ names ++ bound, inside.Knows o x := by
  intro x hx
  rcases List.mem_append.mp hx with hx | hx
  · exact hnames x hx
  · exact hbound x hx

end

section

variable {o : Outlook}

/-- Numbers of expressions with text between them. -/
inductive SamePart (o : Outlook) (c c' : Context) : ExprPart → ExprPart → Prop
  | text (s : String) : SamePart o c c' (.text s) (.text s)
  | expr {i i' : Nat} (h : SameValue o c c' i i') : SamePart o c c' (.expr i) (.expr i')

theorem parts_eq {c c' : Context} {ps ps' : List ExprPart}
    (h : List.Forall₂ (SamePart o c c') ps ps') (hexact : o.exact) : ps' = ps := by
  induction h with
  | nil => rfl
  | cons hp _ ih =>
    cases hp with
    | text s => rw [ih]
    | expr hi => rw [hi.number hexact, ih]

mutual

theorem mirrors_expr {bound : List String} {eager : Bool} {p : Place} (n : Node)
    (ha : ∀ m ∈ n.nodes, o.Admits m) (hr : AllRead o (ofNode bound eager n)) :
    Mirrors o p (· ∈ bound) (SameValue o) (expr n) := by
  intro c c' ht hk hs
  cases n with
  | literal value span =>
    rw [expr]
    exact pairs_alloc ht _ rfl fun _ => rfl
  | interpolation parts span =>
    rw [expr]
    simp only [Node.nodes, List.forall_mem_cons] at ha
    rw [ofNode] at hr
    refine (mirrors_exprParts parts ha.2 hr c c' ht hk trivial).bind fun ps ps' d d' hon hps => ?_
    exact pairs_alloc hon.twin _ rfl fun hexact => by rw [parts_eq hps hexact]
  | name x span =>
    rw [expr]
    rw [ofNode] at hr
    exact pairs_name ht (hr.knows hk) span
  | qualified path x nameSpan span =>
    rw [expr]
    simp only [Node.nodes, List.forall_mem_singleton] at ha
    exact pairs_qualifiedName ht ha nameSpan span
  | define head value span =>
    rw [expr]
    simp only [Node.nodes, List.forall_mem_cons] at ha
    rw [ofNode] at hr
    exact (pairs_variableDecl ht hk head (mirrors_expr value ha.2 hr) span).mono
      fun _ _ _ _ _ h => h.1
  | function head body span =>
    rw [expr]
    simp only [Node.nodes, List.forall_mem_cons] at ha
    rw [ofNode] at hr
    refine (pairs_localFunction ht hk head (mirrors_statements body ha.2 hr) ?_ _ span).mono
      fun _ _ _ _ _ h => h.1
    exact fun x hx => (List.mem_append.mp hx).imp_right Or.inr
  | data decl span =>
    rw [expr]
    exact pairs_nestedData ht decl span
  | lambda ps ret body span =>
    rw [expr]
    simp only [Node.nodes, List.forall_mem_cons] at ha
    rw [ofNode] at hr
    exact pairs_lambda ht hk ps ret (mirrors_statements body ha.2 hr)
      (fun x hx => List.mem_append.mp hx) _ span
  | block body span =>
    rw [expr]
    simp only [Node.nodes, List.forall_mem_cons] at ha
    rw [ofNode] at hr
    exact pairs_block ht hk (mirrors_statements body ha.2 hr) span
  | call callee args span =>
    simp only [Node.nodes, List.forall_mem_cons, List.forall_mem_append] at ha
    obtain ⟨hself, hcallee, hargs⟩ := ha
    by_cases hm : callee.IsMember
    · obtain ⟨receiver, method, methodSpan, memberSpan, hm⟩ := hm
      have hreceiver (ha : ∀ m ∈ receiver.nodes, o.Admits m)
          (hr : AllRead o (ofNode bound eager receiver)) := mirrors_receiver callee hm ha hr
      subst hm
      rw [expr]
      rw [ofNode, allRead_append, allRead_append] at hr
      simp only [Node.nodes, List.forall_mem_cons] at hcallee
      exact pairs_methodCall ht hk (hr.1.1.knows_receiver hk) (hr.1.2.knows hk) hself
        (hreceiver hcallee.2 hr.1.1) methodSpan (mirrors_exprs args hargs hr.2) span
    · rw [ofNode_call hm, allRead_append] at hr
      rw [expr_call hm]
      refine (mirrors_expr (p := .part) callee hcallee hr.1 c c' ht hk trivial).bind
        fun i i' d d' hon hi => ?_
      refine ((mirrors_exprs args hargs hr.2).after hk hon).bind fun is is' e e' k his => ?_
      exact pairs_call k.twin _ (hi.onward k) his span
  | member receiver x memberSpan span =>
    rw [expr]
    simp only [Node.nodes, List.forall_mem_cons] at ha
    rw [ofNode] at hr
    refine pairs_member ht hk (hr.knows_receiver hk) ?_ (mirrors_expr receiver ha.2 hr) memberSpan
      span
    rintro y s rfl
    exact ha.1
  | index receiver i span =>
    rw [expr]
    simp only [Node.nodes, List.forall_mem_cons, List.forall_mem_append] at ha
    obtain ⟨_, hreceiver, hi⟩ := ha
    rw [ofNode, allRead_append] at hr
    refine (mirrors_expr (p := .part) receiver hreceiver hr.1 c c' ht hk trivial).bind
      fun r r' d d' hon hr₁ => ?_
    refine ((mirrors_expr (p := .part) i hi hr.2).after hk hon).bind fun j j' e e' k hj => ?_
    exact pairs_index k.twin (hr₁.onward k) hj span
  | assign x nameSpan value span =>
    rw [expr]
    simp only [Node.nodes, List.forall_mem_cons] at ha
    rw [ofNode, allRead_append] at hr
    exact pairs_assignment ht hk (hr.1.knows hk) nameSpan (mirrors_expr value ha.2 hr.2) span
  | assignIndex receiver i value span =>
    rw [expr]
    simp only [Node.nodes, List.forall_mem_cons, List.forall_mem_append] at ha
    obtain ⟨_, hreceiver, hi, hv⟩ := ha
    rw [ofNode, allRead_append, allRead_append] at hr
    refine (mirrors_expr (p := .part) receiver hreceiver hr.1.1 c c' ht hk trivial).bind
      fun r r' c₁ c₁' k₁ h₁ => ?_
    refine ((mirrors_expr (p := .part) i hi hr.1.2).after hk k₁).bind fun j j' c₂ c₂' k₂ h₂ => ?_
    refine ((mirrors_expr (p := .part) value hv hr.2).after hk (k₁.trans k₂)).bind
      fun v v' c₃ c₃' k₃ h₃ => ?_
    exact pairs_assignIndex k₃.twin (h₁.onward (k₂.trans k₃)) (h₂.onward k₃) h₃ span
  | binary op left right span =>
    rw [expr]
    simp only [Node.nodes, List.forall_mem_cons, List.forall_mem_append] at ha
    obtain ⟨_, hleft, hright⟩ := ha
    rw [ofNode, allRead_append] at hr
    refine (mirrors_expr (p := .part) left hleft hr.1 c c' ht hk trivial).bind
      fun l l' d d' hon hl => ?_
    refine ((mirrors_expr (p := .part) right hright hr.2).after hk hon).bind fun j j' e e' k hj => ?_
    exact pairs_binary k.twin op (hl.onward k) hj span
  | unary op operand span =>
    rw [expr]
    simp only [Node.nodes, List.forall_mem_cons] at ha
    rw [ofNode] at hr
    exact (mirrors_expr (p := .part) operand ha.2 hr c c' ht hk trivial).bind
      fun v v' d d' hon hv => pairs_unary hon.twin op hv span
  | branch condition thenBranch elseBranch span =>
    rw [expr]
    simp only [Node.nodes, List.forall_mem_cons, List.forall_mem_append] at ha
    obtain ⟨_, hcond, hthen, helse⟩ := ha
    rw [ofNode, allRead_append, allRead_append] at hr
    exact pairs_branch ht hk (mirrors_expr condition hcond hr.1.1)
      (mirrors_expr thenBranch hthen hr.1.2) (mirrors_exprOption elseBranch helse hr.2) span
  | loop condition body span =>
    rw [expr]
    simp only [Node.nodes, List.forall_mem_cons, List.forall_mem_append] at ha
    obtain ⟨_, hcond, hbody⟩ := ha
    rw [ofNode, allRead_append] at hr
    exact pairs_loop ht hk (mirrors_expr condition hcond hr.1) (mirrors_expr body hbody hr.2) span
  | ret value span =>
    rw [expr]
    simp only [Node.nodes, List.forall_mem_cons] at ha
    rw [ofNode] at hr
    exact (mirrors_exprOption value ha.2 hr c c' ht hk trivial).bind
      fun v v' d d' hon hv => pairs_ret hon.twin hv span
  | test value case span =>
    rw [expr]
    simp only [Node.nodes, List.forall_mem_cons] at ha
    rw [ofNode] at hr
    exact (mirrors_expr (p := .part) value ha.2 hr c c' ht hk trivial).bind
      fun v v' d d' hon hv => pairs_caseTest hon.twin hv case span
  | array elements span =>
    rw [expr]
    simp only [Node.nodes, List.forall_mem_cons] at ha
    rw [ofNode] at hr
    exact (mirrors_exprs elements ha.2 hr c c' ht hk trivial).bind
      fun es es' d d' hon hes => pairs_array hon.twin hes span
termination_by structural n

-- the receiver of a method is a part of a part of the call
theorem mirrors_receiver {bound : List String} {eager : Bool} (n : Node) {receiver : Node}
    {x : String} {memberSpan span : Span} (hn : n = .member receiver x memberSpan span)
    (ha : ∀ m ∈ receiver.nodes, o.Admits m) (hr : AllRead o (ofNode bound eager receiver)) :
    Mirrors o .part (· ∈ bound) (SameValue o) (expr receiver) := by
  cases n with
  | member r _ _ _ =>
    obtain rfl : r = receiver := (Node.member.inj hn).1
    exact mirrors_expr r ha hr
  | _ => cases hn
termination_by structural n

theorem mirrors_exprs {bound : List String} {eager : Bool} (ns : List Node)
    (ha : ∀ m ∈ Node.allNodes ns, o.Admits m) (hr : AllRead o (ofNodes bound eager ns)) :
    Mirrors o .part (· ∈ bound) (fun d d' => List.Forall₂ (SameValue o d d')) (exprs ns) := by
  intro c c' ht hk _
  cases ns with
  | nil => exact pairs_pure ht .nil
  | cons n ns =>
    rw [exprs]
    rw [ofNodes, allRead_append] at hr
    simp only [Node.allNodes, List.forall_mem_append] at ha
    refine (mirrors_expr (p := .part) n ha.1 hr.1 c c' ht hk trivial).bind fun i i' d d' hon hi => ?_
    refine ((mirrors_exprs ns ha.2 hr.2).after hk hon).bind fun is is' e e' k his => ?_
    exact pairs_pure k.twin (.cons (hi.onward k) his)
termination_by structural ns

/-- Each statement may declare names that the rest refers to. -/
theorem mirrors_statements {bound : List String} {eager : Bool} (ns : List Node)
    (ha : ∀ m ∈ Node.allNodes ns, o.Admits m) (hr : AllRead o (ofStatements bound eager ns)) :
    Mirrors o .statement (· ∈ bound) (fun d d' => List.Forall₂ (SameValue o d d')) (exprs ns) := by
  intro c c' ht hk hs
  cases ns with
  | nil => exact pairs_pure ht .nil
  | cons n ns =>
    rw [exprs]
    simp only [Node.allNodes, List.forall_mem_append] at ha
    obtain ⟨ha, hrest⟩ := ha
    -- what is bound for the rest, and why it is known there
    suffices h : ∃ bound', AllRead o (ofStatements bound' eager ns) ∧
        Pairs o (fun d d' i i' => SameValue o d d' i i' ∧ ∀ x ∈ bound', d.Knows o x)
          (expr n) (expr n) c c' by
      obtain ⟨bound', hr', h⟩ := h
      refine h.bind fun i i' d d' hon ⟨hi, hk'⟩ => ?_
      have hs' : d.Hosts .statement := (hon.grows.scope ▸ hs : d.scope ≠ ScopeTree.root)
      refine (mirrors_statements ns hrest hr' d d' hon.twin hk' hs').bind fun is is' e e' k his => ?_
      exact pairs_pure k.twin (.cons (hi.onward k) his)
    cases n with
    | define head value span =>
      rw [ofStatements, allRead_append] at hr
      rw [expr]
      simp only [Node.nodes, List.forall_mem_cons] at ha
      refine ⟨_, hr.2, (pairs_variableDecl ht hk head (mirrors_expr value ha.2 hr.1) span).mono ?_⟩
      rintro i i' d d' hon ⟨hi, hx⟩
      exact ⟨hi, List.forall_mem_cons.mpr ⟨hx hs, fun x hx => hon.grows.knows (hk x hx)⟩⟩
    | function head body span =>
      rw [ofStatements, allRead_append] at hr
      rw [expr]
      simp only [Node.nodes, List.forall_mem_cons] at ha
      refine ⟨_, hr.2, (pairs_localFunction ht hk head (mirrors_statements body ha.2 hr.1) ?_ _
        span).mono ?_⟩
      · exact fun x hx => (List.mem_append.mp hx).imp_right List.mem_cons.mp
      · rintro i i' d d' hon ⟨hi, hx⟩
        exact ⟨hi, List.forall_mem_cons.mpr ⟨hx, fun x hx => hon.grows.knows (hk x hx)⟩⟩
    | data decl span =>
      rw [ofStatements] at hr
      rw [expr]
      simp only [Node.nodes, List.forall_mem_singleton] at ha
      refine ⟨_, hr, (pairs_nestedData ht decl span).mono fun i i' d d' hon hi => ⟨hi, ?_⟩⟩
      exact knows_of_append (fun x hx => Or.inr (ha x hx)) fun x hx => hon.grows.knows (hk x hx)
    | _ =>
      rw [ofStatements, allRead_append] at hr
      · refine ⟨bound, hr.2, (mirrors_expr _ ha hr.1 c c' ht hk hs).mono fun i i' d d' hon hi => ?_⟩
        exact ⟨hi, fun x hx => hon.grows.knows (hk x hx)⟩
      all_goals simp
termination_by structural ns

theorem mirrors_exprOption {bound : List String} {eager : Bool} (n : Option Node)
    (ha : ∀ m ∈ Node.optionNodes n, o.Admits m) (hr : AllRead o (ofOption bound eager n)) :
    Mirrors o .part (· ∈ bound) (fun d d' => Option.Rel (SameValue o d d')) (exprOption n) := by
  intro c c' ht hk _
  cases n with
  | none => exact pairs_pure ht .none
  | some n =>
    rw [exprOption]
    simp only [Node.optionNodes] at ha
    rw [ofOption] at hr
    refine (mirrors_expr (p := .part) n ha hr c c' ht hk trivial).bind fun i i' d d' hon hi => ?_
    exact pairs_pure hon.twin (.some hi)
termination_by structural n

theorem mirrors_exprParts {bound : List String} {eager : Bool} (ps : List Part)
    (ha : ∀ m ∈ Part.allNodes ps, o.Admits m) (hr : AllRead o (ofParts bound eager ps)) :
    Mirrors o .part (· ∈ bound) (fun d d' => List.Forall₂ (SamePart o d d')) (exprParts ps) := by
  intro c c' ht hk _
  cases ps with
  | nil => exact pairs_pure ht .nil
  | cons q ps =>
    cases q with
    | text s =>
      rw [exprParts]
      rw [ofParts] at hr
      simp only [Part.allNodes] at ha
      refine (mirrors_exprParts ps ha hr c c' ht hk trivial).bind fun qs qs' d d' hon hqs => ?_
      exact pairs_pure hon.twin (.cons (.text s) hqs)
    | expr n =>
      rw [exprParts]
      rw [ofParts, allRead_append] at hr
      simp only [Part.allNodes, List.forall_mem_append] at ha
      refine (mirrors_expr (p := .part) n ha.1 hr.1 c c' ht hk trivial).bind
        fun i i' d d' hon hi => ?_
      refine ((mirrors_exprParts ps ha.2 hr.2).after hk hon).bind fun qs qs' e e' k hqs => ?_
      exact pairs_pure k.twin (.cons (.expr (hi.onward k)) hqs)
termination_by structural ps

end

end

end Check

end Tern
