import Tern.Proofs.Check.Pushed
import Tern.Proofs.Order.Circle
import Tern.Proofs.Place

/-!
The way through a unit, once for all. A step rule asks something of a step of checking and of the same
step with surroundings that are pushed and popped. If it holds of the single steps and of what is put
together from such, it holds of whole expressions, items and units; a rule may ask nothing of the
second step, and then it is about checking alone.
-/

set_option autoImplicit false

namespace Tern

/-- The place and the type of a call. -/
def TypedExpr.call? (e : TypedExpr) : Option (Span × Ty) :=
  match e.expr with
  | .call _ _ span => some (span, e.type)
  | _ => none

/-- What a rule asks of steps of checking, and that it is closed under all that steps are made of. -/
structure StepRule where
  /-- Where reports and expressions may be. -/
  fits : Span → Prop
  /-- The two steps stand in the bodies of the functions `around` and make calls for some of these
  call sites at most, in their order. -/
  relates : List FunctionHead → List CallSite → {α : Type} → Check α → Check α → Prop
  join {s s' : Span} (h : fits s) (h' : fits s') : fits (s.join s')
  done {around : List FunctionHead} {α : Type} (a : α) : relates around [] (pure a) (pure a)
  bind {around : List FunctionHead} {sites more : List CallSite} {α β : Type} {m m' : Check α}
    {f f' : α → Check β} (hm : relates around sites m m')
    (hf : ∀ a, relates around more (f a) (f' a)) :
    relates around (sites ++ more) (m >>= f) (m' >>= f')
  mono {around : List FunctionHead} {sites more : List CallSite} {α : Type} {m m' : Check α}
    (h : relates around sites m m') (hs : sites.Sublist more) : relates around more m m'
  look {around : List FunctionHead} {sites : List CallSite} {α : Type} {f f' : Context → Check α}
    (h : ∀ c, relates around sites (f c) (f' c)) : relates around sites (get >>= f) (get >>= f')
  spanOf {around : List FunctionHead} {sites : List CallSite} {α : Type} {f f' : Span → Check α}
    (id : Nat) (h : ∀ s, fits s → relates around sites (f s) (f' s)) :
    relates around sites (Check.spanOf id >>= f) (Check.spanOf id >>= f')
  report {around : List FunctionHead} {span : Span} (problem : Problem) (h : fits span) :
    relates around [] (Check.report problem span) (Check.report problem span)
  alloc {around : List FunctionHead} {e : Expr} (t : Ty) (h : fits e.span)
    (hcall : TypedExpr.call? ⟨e, t⟩ = none) :
    relates around [] (Check.alloc e t) (Check.alloc e t)
  /-- Calls are erased to the type parameters in scope. -/
  call {around : List FunctionHead} {span : Span} (callee : Nat) (args : List Nat) (t : Ty)
    (h : fits span) :
    relates around [⟨span, around⟩]
      (do let generics := (← get).generics; Check.alloc (.call callee args span) (t.erase generics))
      (do let generics := (← get).generics; Check.alloc (.call callee args span) (t.erase generics))
  imports {around : List FunctionHead} {decls : List ImportDecl}
    (h : ∀ d ∈ decls, ∀ s ∈ d.places, fits s) :
    relates around [] (Check.setImports decls) (Check.setImports decls)
  known {around : List FunctionHead} (f : Namespace → Namespace) :
    relates around [] (Check.modifyNamespace f) (Check.modifyNamespace f)
  symbol {around : List FunctionHead} (scope : Nat) (s : Symbol) :
    relates around [] (Check.modifyScopes fun t => t.addSymbol scope s)
      (Check.modifyScopes fun t => t.addSymbol scope s)
  parameter {around : List FunctionHead} (scope : Nat) (x : String) (type : Ty) :
    relates around [] (Check.modifyScopes fun t => t.addParameter scope x type)
      (Check.modifyScopes fun t => t.addParameter scope x type)
  item {around : List FunctionHead} (id : Nat) :
    relates around []
      (modify fun c => { c with program := { c.program with items := c.program.items ++ [id] } })
      (modify fun c => { c with program := { c.program with items := c.program.items ++ [id] } })
  scope {around : List FunctionHead} {sites : List CallSite} {α : Type} {step step' : Nat → Check α}
    (kind : ScopeKind) (h : ∀ n, relates around sites (step n) (step' n)) :
    relates around sites (Check.inScope kind step) (Check.pushedScope kind step')
  result {around : List FunctionHead} {sites : List CallSite} {α : Type} {step step' : Check α}
    (t : Ty) (h : relates around sites step step') :
    relates around sites (Check.returning t step) (Check.pushedReturn t step')
  /-- What has the type parameters of a function stands in its body. -/
  generics {around : List FunctionHead} {sites : List CallSite} {α : Type} {step step' : Check α}
    {head : FunctionHead} (h : relates (around ++ [head]) sites step step') :
    relates around sites (Check.withGenerics head.typeParams step)
      (Check.pushedGenerics head.typeParams step')

namespace StepRule

variable (rule : StepRule) {around : List FunctionHead} {sites : List CallSite} {α β : Type}

/-- The step opens no body and makes no call. -/
abbrev Quiet (around : List FunctionHead) (m : Check α) : Prop := rule.relates around [] m m

theorem bindQuiet {m m' : Check α} {f f' : α → Check β} (hm : rule.relates around sites m m')
    (hf : ∀ a, rule.relates around [] (f a) (f' a)) :
    rule.relates around sites (m >>= f) (m' >>= f') := by
  have h := rule.bind hm hf
  rwa [List.append_nil] at h

theorem afterQuiet {m m' : Check α} {f f' : α → Check β} (hm : rule.relates around [] m m')
    (hf : ∀ a, rule.relates around sites (f a) (f' a)) :
    rule.relates around sites (m >>= f) (m' >>= f') := rule.bind hm hf

theorem ofQuiet {m m' : Check α} (h : rule.relates around [] m m') :
    rule.relates around sites m m' := rule.mono h (List.nil_sublist sites)

theorem mapM {f f' : α → Check β} {as : List α}
    (h : ∀ a ∈ as, rule.relates around [] (f a) (f' a)) :
    rule.relates around [] (as.mapM f) (as.mapM f') := by
  induction as with
  | nil => exact rule.done _
  | cons a as ih =>
    rw [List.mapM_cons, List.mapM_cons]
    refine rule.bind (h a List.mem_cons_self) fun b => ?_
    exact rule.bind (ih fun x hx => h x (List.mem_cons_of_mem _ hx)) fun _ => rule.done _

theorem forM {f f' : α → Check PUnit} {as : List α}
    (h : ∀ a ∈ as, rule.relates around [] (f a) (f' a)) :
    rule.relates around [] (as.forM f) (as.forM f') := by
  induction as with
  | nil => exact rule.done _
  | cons a as ih =>
    exact rule.bind (h a List.mem_cons_self) fun _ => ih fun x hx => h x (List.mem_cons_of_mem _ hx)

/-- All places of the nodes fit. -/
def Admits (ns : List Node) : Prop := ∀ n ∈ ns, ∀ s ∈ n.places, rule.fits s

theorem admits_cons {n : Node} {ns : List Node} :
    rule.Admits (n :: ns) ↔ (∀ s ∈ n.places, rule.fits s) ∧ rule.Admits ns := List.forall_mem_cons

theorem admits_append {ns ms : List Node} :
    rule.Admits (ns ++ ms) ↔ rule.Admits ns ∧ rule.Admits ms := List.forall_mem_append

theorem admits_allNodes {ns : List Node} :
    rule.Admits (Node.allNodes ns) ↔ ∀ n ∈ ns, rule.Admits n.nodes := by
  rw [Node.allNodes_eq_flatMap]
  exact List.forall_mem_flatMap

theorem admits_optionNodes {n : Option Node} :
    rule.Admits (Node.optionNodes n) ↔ ∀ m ∈ n, rule.Admits m.nodes := by
  cases n with
  | none => simp [Node.optionNodes, Admits]
  | some n => simp [Node.optionNodes]

theorem Admits.span {rule : StepRule} {n : Node} (h : rule.Admits n.nodes) : rule.fits n.span :=
  h n n.mem_nodes_self _ n.span_mem_places

end StepRule

/-! Types -/

namespace TypeScope

variable {scope : TypeScope}

theorem span_of_applyArray {args : List Ty} {span : Span} {e : TypeRefError}
    (h : applyArray args span = .error e) : e.span = span := by
  unfold applyArray at h
  split at h
  · cases h
  · cases h
    rfl

theorem span_of_applyBase {base : Ty} {args : List Ty} {span : Span} {e : TypeRefError}
    (h : applyBase base args span = .error e) : e.span = span := by
  unfold applyBase at h
  split at h
  · split at h
    · cases h
    · cases h
      rfl
  · cases h
    rfl

mutual

/-- An error in a written type is at one of its parts. -/
theorem span_mem_of_resolve {r : TypeRef} {e : TypeRefError} (h : scope.resolve r = .error e) :
    e.span ∈ r.spans := by
  cases r with
  | named name span =>
    rw [resolve] at h
    rw [TypeRef.spans]
    split at h
    · cases h
    · cases h
      exact List.mem_cons_self
  | function params ret span =>
    rw [resolve] at h
    rw [TypeRef.spans]
    split at h
    · rename_i e' heq
      cases h
      exact List.mem_cons_of_mem _ (List.mem_append_left _ (span_mem_of_resolveAll heq))
    · split at h
      · rename_i e' heq
        cases h
        exact List.mem_cons_of_mem _ (List.mem_append_right _ (span_mem_of_resolve heq))
      · cases h
  | applied base args span =>
    rw [resolve] at h
    rw [TypeRef.spans]
    split at h
    · rename_i e' heq
      cases h
      exact List.mem_cons_of_mem _ (List.mem_append_right _ (span_mem_of_resolveAll heq))
    · split at h
      · rw [span_of_applyArray h]
        exact List.mem_cons_self
      · split at h
        · rename_i e' heq
          cases h
          exact List.mem_cons_of_mem _ (List.mem_append_left _ (span_mem_of_resolve heq))
        · rw [span_of_applyBase h]
          exact List.mem_cons_self
  | selected base case span =>
    rw [resolve] at h
    rw [TypeRef.spans]
    split at h
    · rename_i e' heq
      cases h
      exact List.mem_cons_of_mem _ (span_mem_of_resolve heq)
    · split at h
      · cases h
      · cases h
        exact List.mem_cons_self
    · cases h
      exact List.mem_cons_self

theorem span_mem_of_resolveAll {rs : List TypeRef} {e : TypeRefError}
    (h : scope.resolveAll rs = .error e) : e.span ∈ TypeRef.allSpans rs := by
  cases rs with
  | nil => cases h
  | cons r rs =>
    rw [resolveAll] at h
    rw [TypeRef.allSpans]
    split at h
    · rename_i e' heq
      cases h
      exact List.mem_append_left _ (span_mem_of_resolve heq)
    · split at h
      · rename_i e' heq
        cases h
        exact List.mem_append_right _ (span_mem_of_resolveAll heq)
      · cases h

end

end TypeScope

namespace Check

variable (rule : StepRule) {around : List FunctionHead} {sites : List CallSite} {α : Type} {span : Span}

theorem quiet_resolveType {r : TypeRef} (reports : Bool) (hr : ∀ s ∈ r.spans, rule.fits s) :
    rule.Quiet around (resolveType reports r) := by
  refine rule.look fun c => ?_
  split
  · exact rule.done _
  · rename_i e he
    have hspan := hr _ (TypeScope.span_mem_of_resolve he)
    dsimp only
    split
    · refine rule.bind (rule.report _ ?_) fun _ => rule.done _
      cases e <;> exact hspan
    · exact rule.done _

theorem quiet_params {ps : List Param} (reports : Bool)
    (hps : ∀ s ∈ Param.allSpans ps, rule.fits s) : rule.Quiet around (params reports ps) := by
  refine rule.mapM fun p hp => ?_
  have hp : ∀ s ∈ p.type.spans, rule.fits s := fun s hs => hps s (List.mem_flatMap.mpr ⟨p, hp, hs⟩)
  exact rule.bind (quiet_resolveType rule reports hp) fun _ => rule.done _

theorem quiet_optionalType {r : Option TypeRef} (reports : Bool)
    (hr : ∀ s ∈ TypeRef.optionSpans r, rule.fits s) :
    rule.Quiet around (optionalType reports r) := by
  cases r with
  | none => exact rule.done _
  | some r =>
    have hr : ∀ s ∈ r.spans, rule.fits s := fun s hs => hr s (by simpa [TypeRef.optionSpans] using hs)
    exact rule.bind (quiet_resolveType rule reports hr) fun _ => rule.done _

theorem relates_signature {head : FunctionHead} (reports : Bool)
    (hps : ∀ s ∈ Param.allSpans head.params, rule.fits s)
    (hret : ∀ s ∈ TypeRef.optionSpans head.returnType, rule.fits s) :
    rule.relates around [] (signature reports head) (pushedSignature reports head) :=
  rule.generics <| rule.bind (quiet_params rule reports hps) fun _ =>
    rule.bind (quiet_optionalType rule reports hret) fun _ => rule.done _

theorem quiet_cases {cs : List CaseDecl} (isPublic : Bool)
    (hcs : ∀ s ∈ CaseDecl.allSpans cs, rule.fits s) : rule.Quiet around (cases isPublic cs) := by
  refine rule.mapM fun c hc => rule.bind (rule.mapM fun f hf => ?_) fun _ => rule.done _
  have hf : ∀ s ∈ f.type.spans, rule.fits s := fun s hs =>
    hcs s (List.mem_flatMap.mpr ⟨c, hc, List.mem_flatMap.mpr ⟨f, hf, hs⟩⟩)
  exact rule.bind (quiet_resolveType rule true hf) fun _ => rule.done _

theorem relates_definition {decl : DataDecl} (h : ∀ s ∈ CaseDecl.allSpans decl.cases, rule.fits s) :
    rule.relates around [] (definition decl) (pushedDefinition decl) := by
  -- the type stands for a function with the same type parameters
  let head : FunctionHead := ⟨decl.name, decl.isPublic, decl.typeParams, [], none⟩
  have hcases : rule.Quiet (around ++ [head]) (cases decl.isPublic decl.cases) :=
    quiet_cases rule decl.isPublic h
  exact rule.bind (rule.generics hcases) fun _ => rule.look fun _ => rule.done _

/-! Declarations -/

theorem quiet_declare (s : Symbol) : rule.Quiet around (declare s) :=
  rule.look fun _ => rule.known _

theorem quiet_define (d : Definition) : rule.Quiet around (define d) :=
  rule.bind (rule.forM fun _ _ => quiet_declare rule _) fun _ => rule.look fun _ => rule.known _

theorem quiet_shellOf (n : Node) : rule.Quiet around (shellOf n) := by
  cases n with
  | data decl span => exact rule.look fun _ => rule.known _
  | _ => exact rule.done _

theorem relates_definitionOf {n : Node} (hn : rule.Admits n.nodes) :
    rule.relates around [] (definitionOf n) (pushedDefinitionOf n) := by
  cases n with
  | data decl span =>
    simp only [Node.nodes, rule.admits_cons, Node.places, List.forall_mem_cons] at hn
    exact rule.bind (relates_definition rule hn.1.2) fun d => quiet_define rule d
  | _ => exact rule.done _

theorem relates_functionOf {n : Node} (hn : rule.Admits n.nodes) :
    rule.relates around [] (functionOf n) (pushedFunctionOf n) := by
  cases n with
  | function head body span =>
    simp only [Node.nodes, rule.admits_cons, Node.places, List.forall_mem_cons,
      List.forall_mem_append] at hn
    exact rule.bind (relates_signature rule true hn.1.2.1 hn.1.2.2) fun _ => quiet_declare rule _
  | _ => exact rule.done _

theorem relates_register {ns : List Node} (h : ∀ n ∈ ns, rule.Admits n.nodes) :
    rule.relates around [] (register ns) (pushedRegister ns) := by
  refine rule.bind (rule.forM fun n _ => quiet_shellOf rule n) fun _ => ?_
  refine rule.bind (rule.forM fun n hn => relates_definitionOf rule (h n hn)) fun _ => ?_
  exact rule.forM fun n hn => relates_functionOf rule (h n hn)

/-! Names -/

theorem quiet_error (h : rule.fits span) : rule.Quiet around (error span) := rule.alloc .any h rfl

/-- What failed is reported and left out. -/
theorem quiet_failure {reportSpan : Span} (problem : Problem) (hreport : rule.fits reportSpan)
    (h : rule.fits span) : rule.Quiet around (do report problem reportSpan; error span) :=
  rule.bind (rule.report problem hreport) fun _ => quiet_error rule h

theorem quiet_read (r : Resolved) (h : rule.fits span) : rule.Quiet around (read r span) :=
  rule.look fun _ => rule.alloc _ h rfl

theorem quiet_name (x : String) (h : rule.fits span) : rule.Quiet around (name x span) := by
  refine rule.look fun c => ?_
  split
  · exact quiet_read rule _ h
  · exact quiet_failure rule _ h h

theorem quiet_qualifiedName {nameSpan : Span} (path : PackagePath) (x : String)
    (hname : rule.fits nameSpan) (h : rule.fits span) :
    rule.Quiet around (qualifiedName path x nameSpan span) := by
  refine rule.look fun c => ?_
  split
  · exact quiet_failure rule _ h h
  · split
    · exact quiet_read rule _ h
    · exact quiet_failure rule _ hname h

/-! Whether types fit -/

theorem quiet_typeOf (id : Nat) : rule.Quiet around (typeOf id) := rule.look fun _ => rule.done _

/-- A report at the place of an expression, and then `any`. -/
theorem quiet_blame (problem : Problem) (id : Nat) :
    rule.Quiet around (do report problem (← spanOf id); return Ty.any) :=
  rule.spanOf id fun _ hs => rule.bind (rule.report problem hs) fun _ => rule.done _

theorem quiet_expectType (expected : Ty) (id : Nat) :
    rule.Quiet around (expectType expected id) := by
  refine rule.bind (quiet_typeOf rule id) fun actual => ?_
  split
  · exact rule.done _
  · exact rule.spanOf id fun _ hs => rule.report _ hs

theorem quiet_functionResult {lastSpan : Span} (ret bodyType : Ty) (hlast : rule.fits lastSpan)
    (h : rule.fits span) : rule.Quiet around (functionResult ret bodyType lastSpan span) := by
  unfold functionResult
  split
  · exact rule.done _
  · split
    · exact rule.report _ h
    · split
      · exact rule.done _
      · exact rule.report _ hlast

theorem quiet_arithmetic (op : BinaryOp) (left right : Nat) :
    rule.Quiet around (arithmetic op left right) := by
  refine rule.bind (quiet_typeOf rule left) fun l => rule.bind (quiet_typeOf rule right) fun r => ?_
  repeat' split
  all_goals first | exact rule.done _ | exact quiet_blame rule _ _

theorem quiet_comparison (op : BinaryOp) (left right : Nat) (h : rule.fits span) :
    rule.Quiet around (comparison op left right span) := by
  refine rule.bind (quiet_typeOf rule left) fun l => rule.bind (quiet_typeOf rule right) fun r => ?_
  split
  · exact rule.done _
  · exact rule.report _ h

theorem quiet_negation (operand : Nat) : rule.Quiet around (negation operand) := by
  refine rule.bind (quiet_typeOf rule operand) fun t => ?_
  split
  · exact rule.done _
  · exact quiet_blame rule _ operand

theorem quiet_branchType (thenBranch : Nat) (elseBranch : Option Nat) (h : rule.fits span) :
    rule.Quiet around (branchType thenBranch elseBranch span) := by
  unfold branchType
  split
  · exact rule.done _
  · rename_i other
    refine rule.bind (quiet_typeOf rule thenBranch) fun t => ?_
    refine rule.bind (quiet_typeOf rule other) fun e => ?_
    split
    · exact rule.done _
    · exact rule.bind (rule.report _ h) fun _ => rule.done _

theorem quiet_arguments (u : Unifier) (ps : List (Ty × Nat)) :
    rule.Quiet around (arguments u ps) := by
  induction ps generalizing u with
  | nil => exact rule.done _
  | cons x rest ih =>
    obtain ⟨param, arg⟩ := x
    refine rule.bind (quiet_typeOf rule arg) fun actual => ?_
    split
    · exact ih _
    · exact rule.spanOf arg fun _ hs => rule.bind (rule.report _ hs) fun _ => ih _

theorem quiet_signatureCall (s : Signature) (args : List Nat) (h : rule.fits span) :
    rule.Quiet around (signatureCall s args span) := by
  unfold signatureCall
  split
  · exact rule.bind (quiet_arguments rule _ _) fun _ => rule.done _
  · exact rule.bind (rule.report _ h) fun _ => rule.done _

theorem quiet_callType (x : String) (callee : Nat) (args : List Nat) (h : rule.fits span) :
    rule.Quiet around (callType x callee args span) := by
  refine rule.bind (quiet_typeOf rule callee) fun t => ?_
  split
  · exact quiet_signatureCall rule _ args h
  · refine rule.bind (rule.mapM fun id _ => quiet_typeOf rule id) fun types => ?_
    split
    · exact rule.done _
    · exact rule.bind (rule.report _ h) fun _ => rule.done _
  · dsimp only
    split
    · exact rule.done _
    · exact quiet_blame rule _ callee

/-! Expressions whose parts are checked -/

theorem quiet_declareVariable (head : VariableHead) (type : Ty) (value : Nat) (h : rule.fits span) :
    rule.Quiet around (declareVariable head type value span) := by
  refine rule.look fun c => ?_
  split
  · refine rule.bind (quiet_declare rule _) fun _ => ?_
    dsimp only
    split
    · exact rule.alloc _ h rfl
    · exact rule.alloc _ h rfl
  · exact rule.bind (rule.symbol _ _) fun _ => rule.alloc _ h rfl

theorem relates_nestedData {decl : DataDecl} (hcases : ∀ s ∈ CaseDecl.allSpans decl.cases, rule.fits s)
    (h : rule.fits span) :
    rule.relates around [] (nestedData decl span) (pushedNestedData decl span) :=
  rule.bind (relates_definition rule hcases) fun d =>
    rule.bind (quiet_define rule d) fun _ => rule.alloc _ h rfl

theorem quiet_binary (op : BinaryOp) (left right : Nat) (h : rule.fits span) :
    rule.Quiet around (binary op left right span) := by
  unfold binary
  dsimp only
  split
  · exact rule.bind (quiet_arithmetic rule op left right) fun _ => rule.alloc _ h rfl
  · split
    · exact rule.bind (quiet_comparison rule op left right h) fun _ => rule.alloc _ h rfl
    · refine rule.bind (quiet_expectType rule .bool left) fun _ => ?_
      exact rule.bind (quiet_expectType rule .bool right) fun _ => rule.alloc _ h rfl

theorem quiet_unary (op : UnaryOp) (operand : Nat) (h : rule.fits span) :
    rule.Quiet around (unary op operand span) := by
  cases op with
  | not => exact rule.bind (quiet_expectType rule .bool operand) fun _ => rule.alloc _ h rfl
  | negate => exact rule.bind (quiet_negation rule operand) fun _ => rule.alloc _ h rfl

theorem quiet_ret (value : Option Nat) (h : rule.fits span) : rule.Quiet around (ret value span) := by
  refine rule.look fun c => ?_
  split
  · exact rule.bind (rule.report _ h) fun _ => rule.alloc _ h rfl
  · exact rule.bind (quiet_expectType rule _ _) fun _ => rule.alloc _ h rfl
  · dsimp only
    split
    · exact rule.alloc _ h rfl
    · exact rule.bind (rule.report _ h) fun _ => rule.alloc _ h rfl

theorem quiet_index (receiver i : Nat) (h : rule.fits span) :
    rule.Quiet around (index receiver i span) := by
  refine rule.bind (quiet_expectType rule .int i) fun _ => ?_
  refine rule.bind (quiet_typeOf rule receiver) fun t => ?_
  split
  · exact rule.alloc _ h rfl
  · exact rule.spanOf receiver fun _ hs => rule.bind (rule.report _ hs) fun _ => rule.alloc _ h rfl

theorem quiet_assignIndex (receiver i value : Nat) (h : rule.fits span) :
    rule.Quiet around (assignIndex receiver i value span) := by
  refine rule.bind (quiet_expectType rule .int i) fun _ => ?_
  refine rule.bind (quiet_typeOf rule receiver) fun t => ?_
  split
  · exact rule.bind (quiet_expectType rule _ value) fun _ => rule.alloc _ h rfl
  · dsimp only
    split
    · exact rule.alloc _ h rfl
    · exact rule.spanOf receiver fun _ hs =>
        rule.bind (rule.report _ hs) fun _ => rule.alloc _ h rfl

theorem quiet_caseTest (value : Nat) (case : String) (h : rule.fits span) :
    rule.Quiet around (caseTest value case span) := by
  refine rule.bind (quiet_typeOf rule value) fun t => rule.look fun c => ?_
  dsimp only
  split
  · exact rule.alloc _ h rfl
  · exact rule.bind (rule.report _ h) fun _ => rule.alloc _ h rfl

theorem quiet_array (elements : List Nat) (h : rule.fits span) :
    rule.Quiet around (array elements span) := by
  refine rule.bind (rule.mapM fun id _ => quiet_typeOf rule id) fun types => ?_
  exact rule.bind (rule.forM fun id _ => quiet_expectType rule _ id) fun _ => rule.alloc _ h rfl

theorem quiet_valueMember {memberSpan : Span} (receiver : Nat) (x : String)
    (hmember : rule.fits memberSpan) (h : rule.fits span) :
    rule.Quiet around (valueMember receiver x memberSpan span) := by
  refine rule.look fun c => ?_
  dsimp only
  split
  · exact rule.alloc _ h rfl
  · exact quiet_failure rule _ hmember h

theorem relates_call (x : String) (callee : Nat) (args : List Nat) (h : rule.fits span) :
    rule.relates around [⟨span, around⟩] (call x callee args span) (call x callee args span) :=
  rule.bind (quiet_callType rule x callee args h) fun t => rule.call callee args t h

/-! Expressions that are given the steps for their parts -/

theorem relates_variableDecl {head : VariableHead} {value value' : Check Nat}
    (htype : ∀ s ∈ TypeRef.optionSpans head.type, rule.fits s)
    (hv : rule.relates around sites value value') (h : rule.fits span) :
    rule.relates around sites (variableDecl head value span) (variableDecl head value' span) := by
  refine rule.bind (quiet_optionalType rule true htype) fun written => rule.bindQuiet hv fun v => ?_
  split
  · exact rule.bind (quiet_expectType rule _ v) fun _ => quiet_declareVariable rule head _ v h
  · exact rule.bind (quiet_typeOf rule v) fun _ => quiet_declareVariable rule head _ v h

theorem relates_assignment {nameSpan : Span} {value value' : Check Nat} (x : String)
    (hname : rule.fits nameSpan) (hv : rule.relates around sites value value') (h : rule.fits span) :
    rule.relates around sites (assignment x nameSpan value span)
      (assignment x nameSpan value' span) := by
  refine rule.look fun c => rule.bindQuiet hv fun v => ?_
  split
  · exact quiet_failure rule _ hname h
  · rename_i r _
    have hrest : rule.Quiet around (do
        expectType r.symbol.type v
        let scope := (← get).scope
        alloc (.assign ⟨r.target, scope, nameSpan⟩ v span) .unit) :=
      rule.bind (quiet_expectType rule _ v) fun _ => rule.look fun _ => rule.alloc _ h rfl
    dsimp only
    split
    · exact hrest
    · exact rule.bind (rule.report _ hname) fun _ => hrest

section Bodies

variable {body body' : Check (List Nat)} (hb : rule.relates around sites body body')
include hb

theorem relates_block (h : rule.fits span) :
    rule.relates around sites (block body span) (pushedBlock body' span) := by
  refine rule.bindQuiet (rule.scope .block fun _ => rule.bindQuiet hb fun _ => rule.done _) ?_
  rintro ⟨scope, ids⟩
  dsimp only
  have hmade (type : Ty) : rule.Quiet around (alloc (.block scope ids span) type) :=
    rule.alloc type h rfl
  cases ids.getLast? with
  | some id => exact rule.bind (quiet_typeOf rule id) hmade
  | none => exact rule.bind (rule.done Ty.unit) hmade

variable {lastSpan : Span} (hlast : rule.fits lastSpan)
include hlast

theorem relates_function (ps : List TypedParam) (ret? : Option Ty) (h : rule.fits span) :
    rule.relates around sites (function ps ret? body lastSpan span)
      (pushedFunction ps ret? body' lastSpan span) := by
  refine rule.bindQuiet (rule.scope .function fun scope => ?_) ?_
  · refine rule.bind (rule.forM fun p _ => rule.parameter scope p.name p.type) fun _ => ?_
    exact rule.bindQuiet (rule.result _ (relates_block rule hb h)) fun _ => rule.done _
  · rintro ⟨scope, bodyId⟩
    refine rule.bind (quiet_typeOf rule bodyId) fun bodyType => ?_
    dsimp only
    split
    · exact rule.bind (quiet_functionResult rule _ bodyType hlast h) fun _ => rule.alloc _ h rfl
    · exact rule.alloc _ h rfl

theorem relates_lambda {ps : List Param} {ret : Option TypeRef}
    (hps : ∀ s ∈ Param.allSpans ps, rule.fits s)
    (hret : ∀ s ∈ TypeRef.optionSpans ret, rule.fits s) (h : rule.fits span) :
    rule.relates around sites (lambda ps ret body lastSpan span)
      (pushedLambda ps ret body' lastSpan span) :=
  rule.bind (quiet_params rule true hps) fun ps =>
    rule.bind (quiet_optionalType rule true hret) fun ret =>
      relates_function rule hb hlast ps ret h

end Bodies

theorem relates_localFunction {lastSpan : Span} {head : FunctionHead} {body body' : Check (List Nat)}
    (hps : ∀ s ∈ Param.allSpans head.params, rule.fits s)
    (hret : ∀ s ∈ TypeRef.optionSpans head.returnType, rule.fits s)
    (hb : rule.relates (around ++ [head]) sites body body') (hlast : rule.fits lastSpan)
    (h : rule.fits span) :
    rule.relates around sites (localFunction head body lastSpan span)
      (pushedLocalFunction head body' lastSpan span) := by
  refine rule.bind (relates_signature rule true hps hret) ?_
  rintro ⟨ps, ret⟩
  refine rule.look fun c => rule.bind (rule.symbol _ _) fun _ => ?_
  exact rule.bindQuiet (rule.generics (relates_function rule hb hlast ps (some ret) h))
    fun _ => rule.alloc _ h rfl

section Branches

variable {condition condition' thenBranch thenBranch' body body' : Check Nat}
  {elseBranch elseBranch' : Check (Option Nat)} {first second third : List CallSite}
  (hcondition : rule.relates around first condition condition')
include hcondition

theorem relates_branch (hthen : rule.relates around second thenBranch thenBranch')
    (helse : rule.relates around third elseBranch elseBranch') (h : rule.fits span) :
    rule.relates around (first ++ (second ++ third)) (branch condition thenBranch elseBranch span)
      (branch condition' thenBranch' elseBranch' span) := by
  refine rule.bind hcondition fun i => rule.afterQuiet (quiet_expectType rule .bool i) fun _ => ?_
  refine rule.bind hthen fun j => rule.bindQuiet helse fun k => ?_
  exact rule.bind (quiet_branchType rule j k h) fun _ => rule.alloc _ h rfl

theorem relates_loop (hbody : rule.relates around second body body') (h : rule.fits span) :
    rule.relates around (first ++ second) (loop condition body span) (loop condition' body' span) :=
  rule.bind hcondition fun i => rule.afterQuiet (quiet_expectType rule .bool i) fun _ =>
    rule.bindQuiet hbody fun _ => rule.alloc _ h rfl

end Branches

section Methods

variable {methodSpan : Span} {args args' : Check (List Nat)} (hmethod : rule.fits methodSpan)
  (ha : rule.relates around sites args args') (h : rule.fits span)
include hmethod ha h

theorem relates_packageCall (package method : String) :
    rule.relates around (sites ++ [⟨span, around⟩]) (packageCall package method methodSpan args span)
      (packageCall package method methodSpan args' span) := by
  refine rule.bind ha fun ids => rule.look fun c => ?_
  split
  · exact rule.bind (quiet_read rule _ hmethod) fun callee => relates_call rule method callee ids h
  · exact rule.ofQuiet (quiet_failure rule _ hmethod h)

theorem relates_receiverCall (r : Resolved) (receiver : Nat) (method : String) :
    rule.relates around (sites ++ [⟨span, around⟩])
      (receiverCall r receiver method methodSpan args span)
      (receiverCall r receiver method methodSpan args' span) :=
  rule.afterQuiet (quiet_read rule r hmethod) fun callee =>
    rule.bind ha fun ids => relates_call rule method callee (receiver :: ids) h

theorem relates_fieldCall (type : Ty) (receiver : Nat) (method : String) :
    rule.relates around (sites ++ [⟨span, around⟩])
      (fieldCall type receiver method methodSpan args span)
      (fieldCall type receiver method methodSpan args' span) := by
  refine rule.spanOf receiver fun s hs => ?_
  have hfield : rule.Quiet around (alloc (.field receiver method (s.join methodSpan)) type) :=
    rule.alloc type (rule.join hs hmethod) rfl
  refine rule.afterQuiet hfield fun callee => ?_
  exact rule.bind ha fun ids => relates_call rule method callee ids h

theorem relates_plainMethodCall (receiver : Nat) (method : String) :
    rule.relates around (sites ++ [⟨span, around⟩])
      (plainMethodCall receiver method methodSpan args span)
      (plainMethodCall receiver method methodSpan args' span) := by
  refine rule.look fun c => ?_
  split
  · exact relates_receiverCall rule hmethod ha h _ receiver method
  · refine rule.afterQuiet (rule.report _ hmethod) fun _ => ?_
    exact rule.mono (rule.bindQuiet ha fun _ => quiet_error rule h) (List.sublist_append_left _ _)

theorem relates_valueMethodCall (receiver : Nat) (method : String) :
    rule.relates around (sites ++ [⟨span, around⟩])
      (valueMethodCall receiver method methodSpan args span)
      (valueMethodCall receiver method methodSpan args' span) := by
  refine rule.look fun c => ?_
  split
  · split
    · exact relates_receiverCall rule hmethod ha h _ receiver method
    · exact relates_fieldCall rule hmethod ha h _ receiver method
    · exact relates_plainMethodCall rule hmethod ha h receiver method
  · exact relates_plainMethodCall rule hmethod ha h receiver method

/-- If the receiver stands for a package, it is not checked. -/
theorem relates_methodCall {receiver receiver' : Check Nat} {first : List CallSite} (node : Node)
    (hr : rule.relates around first receiver receiver') (method : String) :
    rule.relates around (first ++ (sites ++ [⟨span, around⟩]))
      (methodCall node receiver method methodSpan args span)
      (methodCall node receiver' method methodSpan args' span) := by
  refine rule.look fun c => ?_
  split
  · exact rule.mono (relates_packageCall rule hmethod ha h _ method) (List.sublist_append_right _ _)
  · exact rule.bind hr fun id => relates_valueMethodCall rule hmethod ha h id method

end Methods

theorem relates_member {memberSpan : Span} {receiver receiver' : Check Nat} (node : Node) (x : String)
    (hr : rule.relates around sites receiver receiver') (hmember : rule.fits memberSpan)
    (h : rule.fits span) :
    rule.relates around sites (member node receiver x memberSpan span)
      (member node receiver' x memberSpan span) := by
  refine rule.look fun c => ?_
  split
  · split
    · exact rule.ofQuiet (quiet_read rule _ h)
    · exact rule.ofQuiet (quiet_failure rule _ hmember h)
  · exact rule.bindQuiet hr fun id => quiet_valueMember rule id x hmember h

/-! Nodes -/

theorem fits_lastSpan {body : List Node} (hbody : rule.Admits (Node.allNodes body))
    (h : rule.fits span) : rule.fits (lastSpan body span) := by
  unfold lastSpan
  cases hlast : body.getLast? with
  | none => exact h
  | some n => exact (rule.admits_allNodes.mp hbody n (List.mem_of_getLast? hlast)).span

mutual

theorem relates_expr (around : List FunctionHead) (n : Node) (hn : rule.Admits n.nodes) :
    rule.relates around (n.callSites around) (expr n) (pushedExpr n) := by
  have h := hn.span
  cases n with
  | literal value span =>
    rw [expr, pushedExpr, Node.callSites]
    exact rule.alloc _ h rfl
  | interpolation parts span =>
    rw [expr, pushedExpr, Node.callSites]
    simp only [Node.nodes, rule.admits_cons] at hn
    exact rule.bindQuiet (relates_exprParts around parts hn.2) fun _ => rule.alloc _ h rfl
  | name x span =>
    rw [expr, pushedExpr, Node.callSites]
    exact quiet_name rule x h
  | qualified path x nameSpan span =>
    rw [expr, pushedExpr, Node.callSites]
    simp only [Node.nodes, rule.admits_cons, Node.places, List.forall_mem_cons] at hn
    exact quiet_qualifiedName rule path x hn.1.2.1 h
  | define head value span =>
    rw [expr, pushedExpr, Node.callSites]
    simp only [Node.nodes, rule.admits_cons, Node.places, List.forall_mem_cons] at hn
    exact relates_variableDecl rule hn.1.2 (relates_expr around value hn.2) h
  | function head body span =>
    rw [expr, pushedExpr, Node.callSites]
    simp only [Node.nodes, rule.admits_cons, Node.places, List.forall_mem_cons,
      List.forall_mem_append] at hn
    obtain ⟨⟨_, hps, hret⟩, hbody⟩ := hn
    exact relates_localFunction rule hps hret (relates_exprs (around ++ [head]) body hbody)
      (fits_lastSpan rule hbody h) h
  | data decl span =>
    rw [expr, pushedExpr, Node.callSites]
    simp only [Node.nodes, rule.admits_cons, Node.places, List.forall_mem_cons] at hn
    exact relates_nestedData rule hn.1.2 h
  | lambda ps ret body span =>
    rw [expr, pushedExpr, Node.callSites]
    simp only [Node.nodes, rule.admits_cons, Node.places, List.forall_mem_cons,
      List.forall_mem_append] at hn
    obtain ⟨⟨_, hps, hret⟩, hbody⟩ := hn
    exact relates_lambda rule (relates_exprs around body hbody) (fits_lastSpan rule hbody h) hps hret h
  | block body span =>
    rw [expr, pushedExpr, Node.callSites]
    simp only [Node.nodes, rule.admits_cons] at hn
    exact relates_block rule (relates_exprs around body hn.2) h
  | call callee args span =>
    rw [Node.callSites]
    simp only [Node.nodes, rule.admits_cons, rule.admits_append] at hn
    obtain ⟨_, hcallee, hargs⟩ := hn
    have hids := relates_exprs around args hargs
    -- a call of a member is the call of a method
    cases callee with
    | member receiver x memberSpan calleeSpan =>
      rw [expr, pushedExpr, Node.callSites]
      simp only [Node.nodes, rule.admits_cons, Node.places, List.forall_mem_cons] at hcallee
      exact relates_methodCall rule hcallee.1.2.1 hids h receiver
        (relates_expr around receiver hcallee.2) x
    | _ =>
      refine rule.bind (relates_expr around _ hcallee) fun i => ?_
      exact rule.bind hids fun ids => relates_call rule _ i ids h
  | member receiver x memberSpan span =>
    rw [expr, pushedExpr, Node.callSites]
    simp only [Node.nodes, rule.admits_cons, Node.places, List.forall_mem_cons] at hn
    exact relates_member rule receiver x (relates_expr around receiver hn.2) hn.1.2.1 h
  | index receiver i span =>
    rw [expr, pushedExpr, Node.callSites]
    simp only [Node.nodes, rule.admits_cons, rule.admits_append] at hn
    refine rule.bind (relates_expr around receiver hn.2.1) fun r => ?_
    exact rule.bindQuiet (relates_expr around i hn.2.2) fun j => quiet_index rule r j h
  | assign x nameSpan value span =>
    rw [expr, pushedExpr, Node.callSites]
    simp only [Node.nodes, rule.admits_cons, Node.places, List.forall_mem_cons] at hn
    exact relates_assignment rule x hn.1.2.1 (relates_expr around value hn.2) h
  | assignIndex receiver i value span =>
    rw [expr, pushedExpr, Node.callSites]
    simp only [Node.nodes, rule.admits_cons, rule.admits_append] at hn
    refine rule.bind (relates_expr around receiver hn.2.1) fun r => ?_
    refine rule.bind (relates_expr around i hn.2.2.1) fun j => ?_
    exact rule.bindQuiet (relates_expr around value hn.2.2.2) fun v => quiet_assignIndex rule r j v h
  | binary op left right span =>
    rw [expr, pushedExpr, Node.callSites]
    simp only [Node.nodes, rule.admits_cons, rule.admits_append] at hn
    refine rule.bind (relates_expr around left hn.2.1) fun l => ?_
    exact rule.bindQuiet (relates_expr around right hn.2.2) fun r => quiet_binary rule op l r h
  | unary op operand span =>
    rw [expr, pushedExpr, Node.callSites]
    simp only [Node.nodes, rule.admits_cons] at hn
    exact rule.bindQuiet (relates_expr around operand hn.2) fun i => quiet_unary rule op i h
  | branch condition thenBranch elseBranch span =>
    rw [expr, pushedExpr, Node.callSites]
    simp only [Node.nodes, rule.admits_cons, rule.admits_append] at hn
    obtain ⟨_, hcondition, hthen, helse⟩ := hn
    exact relates_branch rule (relates_expr around condition hcondition)
      (relates_expr around thenBranch hthen) (relates_exprOption around elseBranch helse) h
  | loop condition body span =>
    rw [expr, pushedExpr, Node.callSites]
    simp only [Node.nodes, rule.admits_cons, rule.admits_append] at hn
    exact relates_loop rule (relates_expr around condition hn.2.1) (relates_expr around body hn.2.2) h
  | ret value span =>
    rw [expr, pushedExpr, Node.callSites]
    simp only [Node.nodes, rule.admits_cons] at hn
    exact rule.bindQuiet (relates_exprOption around value hn.2) fun v => quiet_ret rule v h
  | test value case span =>
    rw [expr, pushedExpr, Node.callSites]
    simp only [Node.nodes, rule.admits_cons] at hn
    exact rule.bindQuiet (relates_expr around value hn.2) fun v => quiet_caseTest rule v case h
  | array elements span =>
    rw [expr, pushedExpr, Node.callSites]
    simp only [Node.nodes, rule.admits_cons] at hn
    exact rule.bindQuiet (relates_exprs around elements hn.2) fun ids => quiet_array rule ids h
termination_by structural n

theorem relates_exprs (around : List FunctionHead) (ns : List Node)
    (hn : rule.Admits (Node.allNodes ns)) :
    rule.relates around (Node.allCallSites around ns) (exprs ns) (pushedExprs ns) := by
  cases ns with
  | nil => exact rule.done _
  | cons n ns =>
    rw [exprs, pushedExprs, Node.allCallSites]
    simp only [Node.allNodes, rule.admits_append] at hn
    refine rule.bind (relates_expr around n hn.1) fun i => ?_
    exact rule.bindQuiet (relates_exprs around ns hn.2) fun is => rule.done _
termination_by structural ns

theorem relates_exprOption (around : List FunctionHead) (n : Option Node)
    (hn : rule.Admits (Node.optionNodes n)) :
    rule.relates around (Node.optionCallSites around n) (exprOption n) (pushedExprOption n) := by
  cases n with
  | none => exact rule.done _
  | some n =>
    rw [exprOption, pushedExprOption, Node.optionCallSites]
    exact rule.bindQuiet (relates_expr around n hn) fun _ => rule.done _
termination_by structural n

theorem relates_exprParts (around : List FunctionHead) (ps : List Part)
    (hp : rule.Admits (Part.allNodes ps)) :
    rule.relates around (Part.allCallSites around ps) (exprParts ps) (pushedExprParts ps) := by
  cases ps with
  | nil => exact rule.done _
  | cons p ps =>
    cases p with
    | text s =>
      rw [exprParts, pushedExprParts, Part.allCallSites]
      exact rule.bindQuiet (relates_exprParts around ps hp) fun _ => rule.done _
    | expr n =>
      rw [exprParts, pushedExprParts, Part.allCallSites]
      simp only [Part.allNodes, rule.admits_append] at hp
      refine rule.bind (relates_expr around n hp.1) fun i => ?_
      exact rule.bindQuiet (relates_exprParts around ps hp.2) fun _ => rule.done _
termination_by structural ps

end

/-! Items and units -/

theorem relates_item (n : Node) (hn : rule.Admits n.nodes) :
    rule.relates [] (n.callSites []) (item n) (pushedItem n) := by
  have h := hn.span
  have hexpr := rule.bindQuiet (relates_expr rule [] n hn)
    fun id => rule.done (Except.ok (ε := CheckFault) id)
  cases n with
  | function head body span =>
    rw [Node.callSites]
    simp only [Node.nodes, rule.admits_cons, Node.places, List.forall_mem_cons,
      List.forall_mem_append] at hn
    obtain ⟨⟨_, hps, hret⟩, hbody⟩ := hn
    change rule.relates [] _ (packageFunction head body span) (pushedPackageFunction head body span)
    refine rule.look fun c => ?_
    split
    · exact rule.ofQuiet (rule.done _)
    · refine rule.afterQuiet (relates_signature rule false hps hret) ?_
      rintro ⟨ps, ret⟩
      refine rule.afterQuiet (quiet_declare rule _) fun _ => ?_
      have hfunction := relates_function rule (relates_exprs rule ([] ++ [head]) body hbody)
        (fits_lastSpan rule hbody h) ps (some ret) h
      have hmade (v : Nat) : rule.Quiet []
          (alloc (.defineFunction ⟨c.path, head.name, head.isPublic, false⟩ v span) .unit) :=
        rule.alloc .unit h rfl
      exact rule.bindQuiet (rule.generics hfunction) fun v => rule.bind (hmade v) fun _ => rule.done _
  | data decl span =>
    change rule.relates [] _ (packageData decl span) (packageData decl span)
    refine rule.look fun c => ?_
    have hmade (d : Definition) : rule.Quiet [] (alloc (.defineData d span) .unit) :=
      rule.alloc .unit h rfl
    split
    · exact rule.bind (hmade _) fun _ => rule.done _
    · exact rule.done _
  | _ => exact hexpr

theorem relates_items (ns : List Node) (hn : ∀ n ∈ ns, rule.Admits n.nodes) :
    rule.relates [] (ns.flatMap (Node.callSites [])) (items ns) (pushedItems ns) := by
  induction ns with
  | nil => exact rule.done _
  | cons n ns ih =>
    rw [items, pushedItems, List.flatMap_cons]
    refine rule.bind (relates_item rule n (hn n List.mem_cons_self)) fun r => ?_
    cases r with
    | error fault => exact rule.ofQuiet (rule.done _)
    | ok id =>
      exact rule.afterQuiet (rule.item id) fun _ => ih fun m hm => hn m (List.mem_cons_of_mem _ hm)

/-- A cycle is reported at one of its items. -/
theorem fits_cycles {items : List Node} (hn : ∀ n ∈ items, rule.Admits n.nodes) :
    ∀ c ∈ (Order.ofItems items).cycles, rule.fits c.span := by
  intro c hc
  obtain ⟨first, rest, _, _, hreport⟩ := (Order.mem_cycles_iff_circle items).mp hc
  obtain ⟨n, hi, rfl⟩ := Option.map_eq_some_iff.mp hreport
  exact (hn n (List.mem_of_getElem? hi)).span

theorem relates_unit {u : SourceUnit} (himports : ∀ d ∈ u.imports, ∀ s ∈ d.places, rule.fits s)
    (hitems : ∀ n ∈ u.items, rule.Admits n.nodes) :
    rule.relates [] (((Order.ofItems u.items).order.filterMap fun i => u.items[i]?).flatMap
      (Node.callSites [])) (unit u) (pushedUnit u) := by
  refine rule.afterQuiet (rule.imports himports) fun _ => ?_
  have hcycles := fits_cycles rule hitems
  refine rule.afterQuiet (rule.forM fun k hk => rule.report _ (hcycles k hk)) fun _ => ?_
  refine rule.afterQuiet (relates_register rule hitems) fun _ => ?_
  refine relates_items rule _ fun n hn => ?_
  obtain ⟨i, _, hi⟩ := List.mem_filterMap.mp hn
  exact hitems n (List.mem_of_getElem? hi)

end Check

end Tern
