import Tern.Proofs.Horizon.Steps
import Tern.Proofs.Twin.Rules

/-!
Every rule of checking stays within a horizon if its parts do. Whatever type it gives to an expression
is founded, so that the packages in which it looks for fields and methods are seen.
-/

set_option autoImplicit false

namespace Tern.Check

variable {α : Type} {h : Horizon} {Q : Namespace → α → Prop} {c : Context} {e : Namespace}

/-! Whether types fit -/

theorem stays_expectType (hc : h.Covers c e) (t : Ty) (i : Nat) :
    Stays h Any (expectType t i) c e := by
  unfold expectType
  refine stays_typeOf_bind (stays_ite (fun _ => stays_pure hc trivial) fun _ => ?_)
  exact stays_spanOf_bind (stays_report hc _ _)

theorem stays_functionResult (hc : h.Covers c e) (ret bodyType : Ty) (lastSpan span : Span) :
    Stays h Any (functionResult ret bodyType lastSpan span) c e := by
  unfold functionResult
  refine stays_ite (fun _ => stays_pure hc trivial) fun _ => ?_
  refine stays_ite (fun _ => stays_report hc _ _) fun _ => ?_
  exact stays_ite (fun _ => stays_pure hc trivial) fun _ => stays_report hc _ _

theorem stays_arithmetic (hc : h.Covers c e) (op : BinaryOp) (i j : Nat) :
    Stays h h.Founds (arithmetic op i j) c e := by
  unfold arithmetic
  have hprimitive (p : Primitive) (ns : Namespace) : h.Founds ns (.primitive p) :=
    Ty.obeys_primitive p
  refine stays_typeOf_bind (stays_typeOf_bind ?_)
  refine stays_ite (fun _ => stays_pure hc (hprimitive _ _)) fun _ => ?_
  refine stays_ite (fun _ => stays_pure hc (hprimitive _ _)) fun _ => ?_
  refine stays_ite (fun _ => stays_spanOf_bind (stays_report_return hc _ _ (hprimitive _))) fun _ => ?_
  refine stays_ite (fun _ => stays_spanOf_bind (stays_report_return hc _ _ (hprimitive _))) fun _ => ?_
  exact stays_ite (fun _ => stays_pure hc (hprimitive _ _)) fun _ => stays_pure hc (hprimitive _ _)

theorem stays_comparison (hc : h.Covers c e) (op : BinaryOp) (i j : Nat) (span : Span) :
    Stays h Any (comparison op i j span) c e := by
  unfold comparison
  refine stays_typeOf_bind (stays_typeOf_bind ?_)
  exact stays_ite (fun _ => stays_pure hc trivial) fun _ => stays_report hc _ _

theorem stays_negation (hc : h.Covers c e) (i : Nat) : Stays h h.Founds (negation i) c e := by
  unfold negation
  refine stays_typeOf_bind ?_
  refine stays_ite (fun _ => stays_pure hc (hc.within.types i)) fun _ => ?_
  exact stays_spanOf_bind (stays_report_return hc _ _ fun _ => Ty.obeys_primitive _)

theorem stays_branchType (hc : h.Covers c e) (i : Nat) (k : Option Nat) (span : Span) :
    Stays h h.Founds (branchType i k span) c e := by
  unfold branchType
  cases k with
  | none => exact stays_pure hc (Ty.obeys_primitive _)
  | some j =>
    refine stays_typeOf_bind (stays_typeOf_bind (stays_ite (fun _ => stays_pure hc ?_) fun _ => ?_))
    · split
      · exact hc.within.types j
      · exact hc.within.types i
    · exact stays_report_return hc _ _ fun _ => Ty.obeys_primitive _

/-! Names and declarations -/

theorem stays_name (hc : h.Covers c e) (x : String) (span : Span) :
    Stays h Any (name x span) c e := by
  unfold name
  refine stays_get_bind ?_ ?_
  · rw [hc.within.resolveName_moved hc.same]
  · cases hr : c.resolveName x with
    | some r => exact stays_read hc (hc.within.obeys_resolveName hr) span
    | none => exact stays_failure hc _ _ _

theorem stays_qualifiedName (hc : h.Covers c e) {path : PackagePath} (hp : h.sees path) (x : String)
    (nameSpan span : Span) : Stays h Any (qualifiedName path x nameSpan span) c e := by
  unfold qualifiedName
  refine stays_get_bind ?_ ?_
  · have hpackage : (c.moved e).ns.package? path = c.ns.package? path := hc.same path hp
    rw [hpackage, Context.resolveIn_moved hc.same hp]
  · refine stays_ite (fun _ => stays_failure hc _ _ _) fun _ => ?_
    cases hr : c.resolveIn path x with
    | some r => exact stays_read hc (hc.within.obeys_resolveIn hp hr) span
    | none => exact stays_failure hc _ _ _

theorem stays_declareVariable (hc : h.Covers c e) (head : VariableHead) {t : Ty}
    (ht : h.Founds c.ns t) (value : Nat) (span : Span) :
    Stays h Any (declareVariable head t value span) c e := by
  unfold declareVariable
  have hunit (ns : Namespace) : h.Founds ns .unit := Ty.obeys_primitive _
  refine stays_get_bind rfl (stays_ite (fun _ => ?_) fun _ => ?_)
  · refine (stays_declare (s := ⟨head.name, t, head.isPublic, head.isMutable⟩) hc ht).bind
      fun _ d f hl _ => ?_
    exact stays_ite (fun _ => stays_alloc hl.covers _ (hunit _) trivial)
      fun _ => stays_alloc hl.covers _ (hunit _) trivial
  · let s : Symbol := ⟨head.name, t, false, head.isMutable⟩
    have hdeclared : Stays h Any (modifyScopes fun scopes => scopes.addSymbol c.scope s) c e :=
      ⟨e, rfl, ⟨hc.declareLocal (s := s) ht, .refl c.ns, rfl⟩, trivial⟩
    exact hdeclared.bind fun _ d f hl _ => stays_alloc hl.covers _ (hunit _) trivial

/-- The step stays within the horizon wherever it is taken. -/
def Local (h : Horizon) {α : Type} (m : Check α) : Prop := ∀ c e, h.Covers c e → Stays h Any m c e

theorem stays_variableDecl (hc : h.Covers c e) (head : VariableHead) {value : Check Nat}
    (hv : Local h value) (span : Span) : Stays h Any (variableDecl head value span) c e := by
  unfold variableDecl
  refine (stays_optionalType hc true head.type).bind fun written d f hl hwritten => ?_
  refine (hv d f hl.covers).bind fun i d' f' hl' _ => ?_
  cases written with
  | some t =>
    refine (stays_expectType hl'.covers t i).bind fun _ d'' f'' hl'' _ => ?_
    exact stays_declareVariable hl''.covers head ((hl'.trans hl'').founds (hwritten t rfl)) i span
  | none =>
    exact stays_typeOf_bind (stays_declareVariable hl'.covers head (hl'.covers.within.types i) i span)

theorem stays_assignment (hc : h.Covers c e) (x : String) (nameSpan : Span) {value : Check Nat}
    (hv : Local h value) (span : Span) : Stays h Any (assignment x nameSpan value span) c e := by
  unfold assignment
  refine stays_get_bind ?_ ?_
  · dsimp only
    rw [hc.within.resolveName_moved hc.same]
  · refine (hv c e hc).bind fun i d f hl _ => ?_
    cases c.resolveName x with
    | none => exact stays_failure hl.covers _ _ _
    | some r =>
      have hend {d : Context} {f : Namespace} (hd : h.Covers d f) : Stays h Any
          (do
            expectType r.symbol.type i
            let scope := (← get).scope
            alloc (.assign ⟨r.target, scope, nameSpan⟩ i span) .unit) d f := by
        refine (stays_expectType hd _ i).bind fun _ d' f' hl' _ => ?_
        exact stays_get_bind rfl (stays_alloc hl'.covers _ (Ty.obeys_primitive _) trivial)
      refine stays_ite (fun _ => hend hl.covers) fun _ => ?_
      exact (stays_report hl.covers _ _).bind fun _ _ _ hl' _ => hend hl'.covers

theorem stays_nestedData (hc : h.Covers c e) (decl : DataDecl) (span : Span) :
    Stays h Any (nestedData decl span) c e := by
  unfold nestedData
  refine (stays_definition hc decl).bind fun d c' e' hl hd => ?_
  refine (stays_define hl.covers (hd.1.trans hl.path.symm) hd.2).bind fun _ c'' e'' hl' _ => ?_
  exact stays_alloc hl'.covers _ (Ty.obeys_primitive _) (hd.2.mono fun _ => hl'.founds)

/-! Functions and blocks -/

theorem stays_inScope (hc : h.Covers c e) {kind : ScopeKind} {step : Nat → Check α}
    (hs : h.Covers (c.enter kind) e → Stays h Q (step c.program.scopes.size) (c.enter kind) e) :
    Stays h Q (inScope kind step) c e := by
  refine (hs (hc.enter kind)).around (fun d => { d with scope := c.scope }) (fun _ _ => rfl)
    (fun _ => rfl) ?_ rfl rfl
  exact fun _ _ hl => ⟨hl.covers.surroundings _ _ _, hl.keeps, hl.path⟩

theorem stays_returning (hc : h.Covers c e) {t : Ty} {m : Check α}
    (hm : h.Covers { c with returnTypes := t :: c.returnTypes } e →
      Stays h Q m { c with returnTypes := t :: c.returnTypes } e) :
    Stays h Q (returning t m) c e := by
  refine (hm (hc.surroundings _ _ _)).around (fun d => { d with returnTypes := c.returnTypes })
    (fun _ _ => rfl) (fun _ => rfl) ?_ rfl rfl
  exact fun _ _ hl => ⟨hl.covers.surroundings _ _ _, hl.keeps, hl.path⟩

theorem stays_block (hc : h.Covers c e) {body : Check (List Nat)} (hb : Local h body) (span : Span) :
    Stays h Any (block body span) c e := by
  unfold block
  have hinner : Stays h Any (inScope .block fun scope => do return (scope, ← body)) c e := by
    refine stays_inScope hc fun hc => ?_
    exact (hb _ e hc).bind fun _ _ _ hl _ => stays_pure hl.covers trivial
  refine hinner.bind fun r d f hl _ => ?_
  obtain ⟨scope, ids⟩ := r
  dsimp only
  cases ids.getLast? with
  | none => exact stays_alloc hl.covers _ (Ty.obeys_primitive _) trivial
  | some i => exact stays_typeOf_bind (stays_alloc hl.covers _ (hl.covers.within.types i) trivial)

theorem stays_function (hc : h.Covers c e) {ps : List TypedParam} {ret? : Option Ty}
    (hps : ∀ p ∈ ps, h.Founds c.ns p.type) (hret : ∀ t ∈ ret?, h.Founds c.ns t)
    {body : Check (List Nat)} (hb : Local h body) (lastSpan span : Span) :
    Stays h Any (function ps ret? body lastSpan span) c e := by
  unfold function
  have hinner : Stays h Any (inScope .function fun scope => do
      ps.forM fun p => modifyScopes fun t => t.addParameter scope p.name p.type
      return (scope, ← returning (ret?.getD .any) (block body span))) c e := by
    refine stays_inScope hc fun _ => ?_
    have hparams := hc.enterFunction (ret?.getD .any) hps
    have hadded : Stays h Any (ps.forM fun p => modifyScopes fun t =>
        t.addParameter c.program.scopes.size p.name p.type) (c.enter .function) e := by
      refine ⟨e, ?_, ?_, trivial⟩
      · rw [run_addParameters, run_addParameters]
        rfl
      · rw [run_addParameters]
        exact ⟨hparams.surroundings _ _ _, .refl c.ns, rfl⟩
    refine hadded.bind fun _ d f hl _ => ?_
    refine (stays_returning hl.covers fun hc => stays_block hc hb span).bind fun _ _ _ hl' _ => ?_
    exact stays_pure hl'.covers trivial
  refine hinner.bind fun r d f hl _ => ?_
  obtain ⟨scope, i⟩ := r
  refine stays_typeOf_bind ?_
  have hend {t : Ty} {d' : Context} {f' : Namespace} (hl' : h.Leads c d' f') (ht : h.Founds d'.ns t) :
      Stays h Any (alloc (.function scope ps t i span) (functionType ps t)) d' f' :=
    have hsig : h.FoundsSignature d'.ns (ps, t) := ⟨fun p hp => hl'.founds (hps p hp), ht⟩
    stays_alloc hl'.covers _ (founds_functionType hsig) hsig
  cases ret? with
  | none => exact hend hl (hl.covers.within.types i)
  | some t =>
    refine (stays_functionResult hl.covers t _ lastSpan span).bind fun _ d' f' hl' _ => ?_
    exact hend (hl.trans hl') ((hl.trans hl').founds (hret t rfl))

/-- A function with a signature that was read before. -/
theorem stays_declaredFunction (hc : h.Covers c e) (typeParams : List String) {ps : List TypedParam}
    {ret : Ty} (hsig : h.FoundsSignature c.ns (ps, ret)) {body : Check (List Nat)} (hb : Local h body)
    (lastSpan span : Span) :
    Stays h Any (withGenerics typeParams (function ps (some ret) body lastSpan span)) c e := by
  refine stays_withGenerics hc typeParams fun hc => ?_
  refine stays_function hc hsig.1 ?_ hb lastSpan span
  rintro _ ⟨⟩
  exact hsig.2

theorem stays_localFunction (hc : h.Covers c e) (head : FunctionHead) {body : Check (List Nat)}
    (hb : Local h body) (lastSpan span : Span) :
    Stays h Any (localFunction head body lastSpan span) c e := by
  unfold localFunction
  refine (stays_signature hc true head).bind fun sig d f hl hsig => ?_
  obtain ⟨ps, ret⟩ := sig
  let s : Symbol := ⟨head.name, functionType ps ret, false, false⟩
  have hdeclared : Stays h Any (modifyScopes fun t => t.addSymbol d.scope s) d f :=
    ⟨f, rfl, ⟨hl.covers.declareLocal (s := s) (founds_functionType hsig), .refl d.ns, rfl⟩, trivial⟩
  refine stays_get_bind rfl (hdeclared.bind fun _ d' f' hl' _ => ?_)
  refine (stays_declaredFunction hl'.covers head.typeParams (hl'.foundsSignature hsig) hb lastSpan
    span).bind fun i d'' f'' hl'' _ => ?_
  exact stays_alloc hl''.covers _ (Ty.obeys_primitive _) trivial

theorem stays_lambda (hc : h.Covers c e) (ps : List Param) (ret : Option TypeRef)
    {body : Check (List Nat)} (hb : Local h body) (lastSpan span : Span) :
    Stays h Any (lambda ps ret body lastSpan span) c e := by
  unfold lambda
  refine (stays_params hc true ps).bind fun ts d f hl hts => ?_
  refine (stays_optionalType hl.covers true ret).bind fun t? d' f' hl' ht => ?_
  exact stays_function hl'.covers (fun p hp => hl'.founds (hts p hp)) ht hb lastSpan span

/-! Operators and control flow -/

theorem stays_binary (hc : h.Covers c e) (op : BinaryOp) (i j : Nat) (span : Span) :
    Stays h Any (binary op i j span) c e := by
  unfold binary
  have hend {d : Context} {f : Namespace} (hd : h.Covers d f) :
      Stays h Any (alloc (.binary op i j span) .bool) d f :=
    stays_alloc hd _ (Ty.obeys_primitive _) trivial
  dsimp only
  refine stays_ite (fun _ => ?_) fun _ => stays_ite (fun _ => ?_) fun _ => ?_
  · exact (stays_arithmetic hc op i j).bind fun t _ _ hl ht => stays_alloc hl.covers _ ht trivial
  · exact (stays_comparison hc op i j span).bind fun _ _ _ hl _ => hend hl.covers
  · refine (stays_expectType hc .bool i).bind fun _ d f hl _ => ?_
    exact (stays_expectType hl.covers .bool j).bind fun _ _ _ hl' _ => hend hl'.covers

theorem stays_unary (hc : h.Covers c e) (op : UnaryOp) (i : Nat) (span : Span) :
    Stays h Any (unary op i span) c e := by
  unfold unary
  cases op with
  | not =>
    refine (stays_expectType hc .bool i).bind fun _ _ _ hl _ => ?_
    exact stays_alloc hl.covers _ (Ty.obeys_primitive _) trivial
  | negate => exact (stays_negation hc i).bind fun t _ _ hl ht => stays_alloc hl.covers _ ht trivial

theorem stays_branch (hc : h.Covers c e) {condition thenBranch : Check Nat}
    {elseBranch : Check (Option Nat)} (hcond : Local h condition) (hthen : Local h thenBranch)
    (helse : Local h elseBranch) (span : Span) :
    Stays h Any (branch condition thenBranch elseBranch span) c e := by
  unfold branch
  refine (hcond c e hc).bind fun i c₁ e₁ h₁ _ => ?_
  refine (stays_expectType h₁.covers .bool i).bind fun _ c₂ e₂ h₂ _ => ?_
  refine (hthen c₂ e₂ h₂.covers).bind fun j c₃ e₃ h₃ _ => ?_
  refine (helse c₃ e₃ h₃.covers).bind fun k c₄ e₄ h₄ _ => ?_
  refine (stays_branchType h₄.covers j k span).bind fun t c₅ e₅ h₅ ht => ?_
  exact stays_alloc h₅.covers _ ht trivial

theorem stays_loop (hc : h.Covers c e) {condition body : Check Nat} (hcond : Local h condition)
    (hbody : Local h body) (span : Span) : Stays h Any (loop condition body span) c e := by
  unfold loop
  refine (hcond c e hc).bind fun i c₁ e₁ h₁ _ => ?_
  refine (stays_expectType h₁.covers .bool i).bind fun _ c₂ e₂ h₂ _ => ?_
  refine (hbody c₂ e₂ h₂.covers).bind fun j c₃ e₃ h₃ _ => ?_
  exact stays_alloc h₃.covers _ (Ty.obeys_primitive _) trivial

theorem stays_ret (hc : h.Covers c e) (value : Option Nat) (span : Span) :
    Stays h Any (ret value span) c e := by
  unfold ret
  have hend {d : Context} {f : Namespace} (hd : h.Covers d f) :
      Stays h Any (alloc (.ret value span) .any) d f :=
    stays_alloc hd _ (Ty.obeys_primitive _) trivial
  refine stays_get_bind rfl ?_
  dsimp only
  cases c.returnTypes.head? with
  | none => exact (stays_report hc _ _).bind fun _ _ _ hl _ => hend hl.covers
  | some expected =>
    cases value with
    | none =>
      refine stays_ite (fun _ => hend hc) fun _ => ?_
      exact (stays_report hc _ _).bind fun _ _ _ hl _ => hend hl.covers
    | some i => exact (stays_expectType hc expected i).bind fun _ _ _ hl _ => hend hl.covers

/-! Values -/

theorem founds_elementType? {ns : Namespace} {t u : Ty} (ht : h.Founds ns t)
    (hu : elementType? t = some u) : h.Founds ns u := by
  unfold elementType? at hu
  split at hu
  · cases hu
    exact Ty.obeys_array.mp ht
  · split at hu
    · cases hu
      exact ht
    · cases hu

theorem stays_index (hc : h.Covers c e) (i j : Nat) (span : Span) :
    Stays h Any (index i j span) c e := by
  unfold index
  refine (stays_expectType hc .int j).bind fun _ d f hl _ => stays_typeOf_bind ?_
  cases hu : elementType? (d.program.type i) with
  | some u =>
    exact stays_alloc hl.covers _ (founds_elementType? (hl.covers.within.types i) hu) trivial
  | none =>
    refine stays_spanOf_bind ((stays_report hl.covers _ _).bind fun _ _ _ hl' _ => ?_)
    exact stays_alloc hl'.covers _ (Ty.obeys_primitive _) trivial

theorem stays_assignIndex (hc : h.Covers c e) (i j k : Nat) (span : Span) :
    Stays h Any (assignIndex i j k span) c e := by
  unfold assignIndex
  have hend {d : Context} {f : Namespace} (hd : h.Covers d f) :
      Stays h Any (alloc (.assignIndex i j k span) .unit) d f :=
    stays_alloc hd _ (Ty.obeys_primitive _) trivial
  refine (stays_expectType hc .int j).bind fun _ d f hl _ => stays_typeOf_bind ?_
  dsimp only
  split
  · exact (stays_expectType hl.covers _ k).bind fun _ _ _ hl' _ => hend hl'.covers
  · refine stays_ite (fun _ => hend hl.covers) fun _ => ?_
    exact stays_spanOf_bind ((stays_report hl.covers _ _).bind fun _ _ _ hl' _ => hend hl'.covers)

theorem stays_caseTest (hc : h.Covers c e) (i : Nat) (case : String) (span : Span) :
    Stays h Any (caseTest i case span) c e := by
  unfold caseTest
  have hend {d : Context} {f : Namespace} (hd : h.Covers d f) :
      Stays h Any (alloc (.test i case span) .bool) d f :=
    stays_alloc hd _ (Ty.obeys_primitive _) trivial
  have htype := hc.within.types i
  refine stays_typeOf_bind ?_
  generalize c.program.type i = t at htype ⊢
  refine stays_get_bind ?_ (stays_ite (fun _ => hend hc) fun _ => ?_)
  · have hknows : knowsCase (c.moved e) case t = knowsCase c case t := by
      cases t with
      | variant head args => exact Context.hasCase_moved hc.same (Ty.obeys_variant.mp htype).1.1 case
      | _ => rfl
    rw [hknows]
  · exact (stays_report hc _ _).bind fun _ _ _ hl _ => hend hl.covers

theorem stays_mapM_typeOf_bind {k : List Ty → Check α} {is : List Nat}
    (hc : Stays h Q (k (is.map c.program.type)) c e) : Stays h Q (is.mapM typeOf >>= k) c e := by
  obtain ⟨f, hrun, hc⟩ := hc
  rw [Stays, StateT.run_bind, StateT.run_bind, run_mapM_typeOf, run_mapM_typeOf]
  exact ⟨f, hrun, hc⟩

theorem stays_array (hc : h.Covers c e) (is : List Nat) (span : Span) :
    Stays h Any (array is span) c e := by
  unfold array
  refine stays_mapM_typeOf_bind ?_
  dsimp only
  have helement : h.Founds c.ns (((is.map c.program.type).find? fun t => !t.isAny).getD .any) := by
    cases ht : (is.map c.program.type).find? fun t => !t.isAny with
    | none => exact Ty.obeys_primitive _
    | some t =>
      obtain ⟨i, _, rfl⟩ := List.mem_map.mp (List.mem_of_find?_eq_some ht)
      exact hc.within.types i
  refine (stays_forM (fun i _ d g hl => stays_expectType hl.covers _ i) hc).bind fun _ d f hl _ => ?_
  exact stays_alloc hl.covers _ (Ty.obeys_array.mpr (hl.founds helement)) trivial

/-! Calls and members -/

/-- What a call gives is founded if the signature and the arguments are. -/
theorem founds_resultOf? {ns : Namespace} {s : Signature} {args : List Ty} {t : Ty}
    (hs : s.Obeys (h.rule ns)) (hargs : ∀ a ∈ args, h.Founds ns a)
    (ht : resultOf? s args = some t) : h.Founds ns t := by
  have hr := h.stable_rule ns
  rw [Signature.obeys_iff] at hs
  unfold resultOf? at ht
  split at ht
  · obtain ⟨u, hu, rfl⟩ := Option.map_eq_some_iff.mp ht
    -- the unifier stays founded from one argument to the next
    have hobeys : u.Obeys (h.rule ns) ∧ u.Tidy .outside := by
      refine List.foldlRecOn (motive := fun u? =>
        ∀ u, u? = some u → u.Obeys (h.rule ns) ∧ u.Tidy .outside) _ _ ?_ ?_ u hu
      · rintro _ ⟨⟩
        exact ⟨Unifier.obeys_empty, Unifier.tidy_empty _⟩
      · intro u? hu? p hp u' hu'
        obtain ⟨hparam, harg⟩ := List.of_mem_zip hp
        obtain ⟨v, rfl, hv⟩ := Option.bind_eq_some_iff.mp hu'
        obtain ⟨hobeys, htidy⟩ := hu? v rfl
        have hunified := hobeys.unify hr htidy (hs.1 p.1 hparam) (hargs p.2 harg)
        have htidied := htidy.unify p.1 p.2
        split at hv
        · rename_i heq
          cases hv
          rw [heq] at hunified htidied
          exact ⟨hunified, htidied⟩
        · cases hv
    exact hobeys.1.apply hr hs.2
  · cases ht

theorem stays_arguments (hc : h.Covers c e) {u : Unifier} (hu : u.Obeys (h.rule c.ns))
    (ht : u.Tidy .outside) {pairs : List (Ty × Nat)} (hp : ∀ p ∈ pairs, h.Founds c.ns p.1) :
    Stays h (fun ns u => u.Obeys (h.rule ns)) (arguments u pairs) c e := by
  induction pairs generalizing u c e with
  | nil => exact stays_pure hc hu
  | cons p pairs ih =>
    obtain ⟨param, arg⟩ := p
    rw [List.forall_mem_cons] at hp
    have hunified := hu.unify (h.stable_rule c.ns) ht hp.1 (hc.within.types arg)
    have htidied := ht.unify param (c.program.type arg)
    rw [arguments]
    refine stays_typeOf_bind ?_
    generalize u.unify param (c.program.type arg) = attempt at hunified htidied ⊢
    obtain ⟨u', _ | fault⟩ := attempt
    · exact ih hc hunified htidied hp.2
    · refine stays_spanOf_bind ((stays_report hc _ _).bind fun _ d f hl _ => ?_)
      refine ih hl.covers ?_ htidied fun q hq => hl.founds (hp.2 q hq)
      exact fun x t hx => hl.founds (hunified x t hx)

theorem stays_signatureCall (hc : h.Covers c e) {s : Signature} (hs : s.Obeys (h.rule c.ns))
    (args : List Nat) (span : Span) : Stays h h.Founds (signatureCall s args span) c e := by
  unfold signatureCall
  rw [Signature.obeys_iff] at hs
  refine stays_ite (fun _ => ?_) fun _ => ?_
  · have hparams : ∀ p ∈ s.params.zip args, h.Founds c.ns p.1 :=
      fun p hp => hs.1 p.1 (List.of_mem_zip hp).1
    refine (stays_arguments hc Unifier.obeys_empty (Unifier.tidy_empty _) hparams).bind fun u d f hl hu => ?_
    exact stays_pure hl.covers (hu.apply (h.stable_rule d.ns) (hl.founds hs.2))
  · refine (stays_report hc _ _).bind fun _ d f hl _ => stays_pure hl.covers ?_
    split
    · exact Ty.obeys_primitive _
    · exact hl.founds hs.2

theorem stays_callType (hc : h.Covers c e) (x : String) (i : Nat) (args : List Nat) (span : Span) :
    Stays h h.Founds (callType x i args span) c e := by
  unfold callType
  have htype := hc.within.types i
  have hany (ns : Namespace) : h.Founds ns .any := Ty.obeys_primitive _
  refine stays_typeOf_bind ?_
  generalize c.program.type i = t at htype ⊢
  have hother : Stays h h.Founds (do
      unless t.isAny do
        report (.notAFunction x t) (← spanOf i)
      return Ty.any) c e :=
    stays_ite (fun _ => stays_pure hc (hany _))
      fun _ => stays_spanOf_bind (stays_report_return hc _ _ hany)
  cases t with
  | function s => exact stays_signatureCall hc (Ty.obeys_function.mp htype) args span
  | overloaded ss =>
    refine stays_mapM_typeOf_bind ?_
    have htypes : ∀ a ∈ args.map c.program.type, h.Founds c.ns a :=
      List.forall_mem_map.mpr fun j _ => hc.within.types j
    cases hresult : ss.findSome? fun s => resultOf? s (args.map c.program.type) with
    | some t =>
      obtain ⟨s, hs, hst⟩ := List.exists_of_findSome?_eq_some hresult
      exact stays_pure hc (founds_resultOf? ((Ty.obeys_overloaded.mp htype).2 s hs) htypes hst)
    | none => exact stays_report_return hc _ _ hany
  | _ => exact hother

theorem stays_call (hc : h.Covers c e) (x : String) (i : Nat) (args : List Nat) (span : Span) :
    Stays h Any (call x i args span) c e := by
  unfold call
  refine (stays_callType hc x i args span).bind fun t d f hl ht => stays_get_bind rfl ?_
  exact stays_alloc hl.covers _ ((h.stable_rule d.ns).erase d.generics ht) trivial

section Calls

variable {args : Check (List Nat)} (ha : Local h args)
include ha

theorem stays_packageCall (hc : h.Covers c e) (package method : String) (methodSpan span : Span) :
    Stays h Any (packageCall package method methodSpan args span) c e := by
  unfold packageCall
  refine (ha c e hc).bind fun is d f hl _ => stays_get_bind ?_ ?_
  · rw [hl.covers.within.resolveQualified_moved hl.covers.same]
  · cases hr : d.resolveQualified package method with
    | some r =>
      have hfounds := hl.covers.within.obeys_resolveQualified hr
      exact (stays_read hl.covers hfounds methodSpan).bind
        fun i _ _ hl' _ => stays_call hl'.covers method i is span
    | none => exact stays_failure hl.covers _ _ _

theorem stays_receiverCall (hc : h.Covers c e) {r : Resolved} (hr : h.Founds c.ns r.symbol.type)
    (receiver : Nat) (method : String) (methodSpan span : Span) :
    Stays h Any (receiverCall r receiver method methodSpan args span) c e := by
  unfold receiverCall
  refine (stays_read hc hr methodSpan).bind fun i d f hl _ => ?_
  refine (ha d f hl.covers).bind fun is d' f' hl' _ => ?_
  exact stays_call hl'.covers method i (receiver :: is) span

theorem stays_fieldCall (hc : h.Covers c e) {t : Ty} (ht : h.Founds c.ns t) (receiver : Nat)
    (method : String) (methodSpan span : Span) :
    Stays h Any (fieldCall t receiver method methodSpan args span) c e := by
  unfold fieldCall
  refine stays_spanOf_bind ((stays_alloc hc _ ht ?_).bind fun i d f hl _ => ?_)
  · trivial
  refine (ha d f hl.covers).bind fun is d' f' hl' _ => ?_
  exact stays_call hl'.covers method i is span

theorem stays_plainMethodCall (hc : h.Covers c e) (receiver : Nat) (method : String)
    (methodSpan span : Span) :
    Stays h Any (plainMethodCall receiver method methodSpan args span) c e := by
  unfold plainMethodCall
  refine stays_get_bind ?_ ?_
  · rw [hc.within.resolveName_moved hc.same]
  · cases hr : c.resolveName method with
    | some r =>
      exact stays_receiverCall ha hc (hc.within.obeys_resolveName hr) receiver method methodSpan span
    | none =>
      refine (stays_report hc _ _).bind fun _ d f hl _ => ?_
      exact (ha d f hl.covers).bind fun _ _ _ hl' _ => stays_error hl'.covers span

/-- The package of the receiver's type is seen, because the type is founded. -/
theorem stays_valueMethodCall (hc : h.Covers c e) (receiver : Nat) (method : String)
    (methodSpan span : Span) :
    Stays h Any (valueMethodCall receiver method methodSpan args span) c e := by
  unfold valueMethodCall
  have htype := hc.within.types receiver
  have hplain := stays_plainMethodCall ha hc receiver method methodSpan span
  have hprogram : (c.moved e).program = c.program := rfl
  refine stays_get_bind ?_ ?_
  · rw [hprogram]
    cases hv : c.program.type receiver with
    | variant head typeArgs =>
      rw [hv] at htype
      have hseen := (Ty.obeys_variant.mp htype).1.1
      dsimp only
      rw [Context.resolveIn_moved hc.same hseen, Context.fieldType?_moved hc.same hseen]
    | _ => rfl
  · cases hv : c.program.type receiver with
    | variant head typeArgs =>
      rw [hv] at htype
      have hseen := (Ty.obeys_variant.mp htype).1.1
      dsimp only
      cases hr : c.resolveIn head.path method with
      | some r =>
        exact stays_receiverCall ha hc (hc.within.obeys_resolveIn hseen hr) receiver method
          methodSpan span
      | none =>
        cases hf : c.fieldType? head typeArgs method with
        | some t =>
          exact stays_fieldCall ha hc (hc.within.obeys_fieldType? htype hf) receiver method
            methodSpan span
        | none => exact hplain
    | _ => exact hplain

end Calls

theorem packageName?_moved (hc : h.Covers c e) (receiver : Node) :
    packageName? (c.moved e) receiver = packageName? c receiver := by
  cases receiver with
  | name x span => rw [packageName?, packageName?, hc.within.namesPackage_moved hc.same]
  | _ => rfl

theorem stays_methodCall (hc : h.Covers c e) (receiverNode : Node) {receiver : Check Nat}
    (hr : Local h receiver) {args : Check (List Nat)} (ha : Local h args) (method : String)
    (methodSpan span : Span) :
    Stays h Any (methodCall receiverNode receiver method methodSpan args span) c e := by
  unfold methodCall
  refine stays_get_bind ?_ ?_
  · rw [packageName?_moved hc]
  · cases packageName? c receiverNode with
    | some package => exact stays_packageCall ha hc package method methodSpan span
    | none =>
      refine (hr c e hc).bind fun i d f hl _ => ?_
      exact stays_valueMethodCall ha hl.covers i method methodSpan span

theorem memberType?_moved (hc : h.Covers c e) {t : Ty} (ht : h.Founds c.ns t) (x : String) :
    memberType? (c.moved e) x t = memberType? c x t := by
  cases t with
  | variant head args =>
    exact Context.fieldType?_moved hc.same (Ty.obeys_variant.mp ht).1.1 args x
  | _ => rfl

theorem founds_memberType? (hc : h.Covers c e) {t u : Ty} (ht : h.Founds c.ns t) {x : String}
    (hu : memberType? c x t = some u) : h.Founds c.ns u := by
  unfold memberType? at hu
  split at hu
  · exact hc.within.obeys_fieldType? ht hu
  · split at hu
    · cases hu
      exact Ty.obeys_primitive _
    · cases hu

theorem stays_valueMember (hc : h.Covers c e) (receiver : Nat) (x : String) (memberSpan span : Span) :
    Stays h Any (valueMember receiver x memberSpan span) c e := by
  unfold valueMember
  have htype := hc.within.types receiver
  have hprogram : (c.moved e).program = c.program := rfl
  refine stays_get_bind ?_ ?_
  · dsimp only
    rw [hprogram, memberType?_moved hc htype]
  · dsimp only
    cases hm : memberType? c x (c.program.type receiver) with
    | some t => exact stays_alloc hc _ (founds_memberType? hc htype hm) trivial
    | none => exact stays_failure hc _ _ _

theorem stays_member (hc : h.Covers c e) (receiverNode : Node) {receiver : Check Nat}
    (hr : Local h receiver) (x : String) (memberSpan span : Span) :
    Stays h Any (member receiverNode receiver x memberSpan span) c e := by
  unfold member
  refine stays_get_bind ?_ ?_
  · have hqualified : ∀ package, (c.moved e).resolveQualified package x =
        c.resolveQualified package x := fun package => hc.within.resolveQualified_moved hc.same _ _
    simp only [packageName?_moved hc, hqualified]
  · cases packageName? c receiverNode with
    | some package =>
      dsimp only
      cases hq : c.resolveQualified package x with
      | some r => exact stays_read hc (hc.within.obeys_resolveQualified hq) span
      | none => exact stays_failure hc _ _ _
    | none =>
      refine (hr c e hc).bind fun i d f hl _ => ?_
      exact stays_valueMember hl.covers i x memberSpan span

end Tern.Check
