import Mathlib.Data.List.Forall2
import Tern.Proofs.Twin.Context
import Tern.Proofs.Check.Rules

/-!
Every rule of checking keeps twins. A rule that is given numbers of expressions may be given other
numbers in the other run, as long as the expressions have the same types and places.
-/

set_option autoImplicit false

namespace Tern

section

variable {o : Outlook} {c c' d d' : Context}

namespace Context

/-! Surroundings -/

theorem Twin.enter (h : c.Twin o c') (kind : ScopeKind) : (c.enter kind).Twin o (c'.enter kind) :=
  { h with
    placed := Nat.lt_succ_self _
    placed' := Nat.lt_succ_self _
    level := by
      have hne {e : Context} (he : e.scope < e.program.scopes.size) :
          (e.enter kind).isAtPackageLevel = false :=
        beq_eq_false_iff_ne.mpr (Nat.ne_of_gt (Nat.lt_of_le_of_lt (Nat.zero_le _) he))
      rw [hne h.placed, hne h.placed']
    tables := by
      refine (ScopeTree.tables_createChild h.placed' kind).trans ?_
      rw [h.tables]
      exact (ScopeTree.tables_createChild h.placed kind).symm
    program := fun hexact => by
      obtain ⟨hprogram, hscope⟩ := h.program hexact
      simp only [Context.enter, inside, hprogram, hscope, and_self] }

theorem tables_addParameters {t t' : ScopeTree} {a a' : Nat} (ps : List TypedParam)
    (ha : a < t.size) (ha' : a' < t'.size) (h : t'.tables a' = t.tables a) :
    (t'.addParameters a' ps).tables a' = (t.addParameters a ps).tables a := by
  induction ps generalizing t t' with
  | nil => exact h
  | cons p ps ih =>
    have hp : a < (t.addParameter a p.name p.type).size := by
      simpa [ScopeTree.addParameter] using ha
    have hp' : a' < (t'.addParameter a' p.name p.type).size := by
      simpa [ScopeTree.addParameter] using ha'
    refine ih hp hp' ?_
    rw [ScopeTree.tables_addParameter _ _ ha', ScopeTree.tables_addParameter _ _ ha, h]

theorem Twin.enterFunction (h : c.Twin o c') (ps : List TypedParam) (ret : Ty) :
    (c.enterFunction ps ret).Twin o (c'.enterFunction ps ret) :=
  let k := h.enter .function
  { k with
    returnTypes := congrArg (List.cons ret) h.returnTypes
    placed := by
      change _ < (ScopeTree.addParameters _ _ ps).size
      rw [ScopeTree.size_addParameters]
      exact k.placed
    placed' := by
      change _ < (ScopeTree.addParameters _ _ ps).size
      rw [ScopeTree.size_addParameters]
      exact k.placed'
    tables := tables_addParameters ps k.placed k.placed' k.tables
    program := fun hexact => by
      obtain ⟨hprogram, hscope⟩ := h.program hexact
      simp only [Context.enterFunction, inside, hprogram, hscope, and_self] }

theorem Twin.withGenerics (h : c.Twin o c') (names : List String) :
    Twin o { c with generics := c.generics ++ names } { c' with generics := c'.generics ++ names } :=
  { h with generics := congrArg (· ++ names) h.generics }

theorem Twin.declareLocal (h : c.Twin o c') (s : Symbol) :
    (c.declareLocal s).Twin o (c'.declareLocal s) :=
  { h with
    placed := by simpa [Context.declareLocal, ScopeTree.addSymbol] using h.placed
    placed' := by simpa [Context.declareLocal, ScopeTree.addSymbol] using h.placed'
    tables := by
      refine (ScopeTree.tables_addSymbol s h.placed').trans ?_
      rw [h.tables]
      exact (ScopeTree.tables_addSymbol s h.placed).symm
    program := fun hexact => by
      obtain ⟨hprogram, hscope⟩ := h.program hexact
      simp only [Context.declareLocal, hprogram, hscope, and_self] }

/-! What is known there -/

variable {x : String}

theorem knows_of_lookup (h : (c.program.scopes.lookup c.scope x).isSome) : c.Knows o x :=
  Or.inl (by rwa [← map_lookup, Option.isSome_map])

theorem Knows.inside {t : ScopeTree} {s : Scope} (h : c.Knows o x)
    (hc : c.scope < c.program.scopes.size) (ht : c.program.scopes.Extends t)
    (hs : t.scope? c.program.scopes.size = some s) (hp : s.parent = some c.scope)
    (returnTypes : List Ty) : (c.inside t returnTypes).Knows o x := by
  refine h.elim (fun h => ?_) Or.inr
  rw [← map_lookup, Option.isSome_map] at h
  exact knows_of_lookup (c := c.inside t returnTypes) (lookup_inside hc ht hs hp h)

theorem Knows.enter (h : c.Knows o x) (hc : c.scope < c.program.scopes.size) (kind : ScopeKind) :
    (c.enter kind).Knows o x :=
  h.inside hc (ScopeTree.extends_createChild _ _ _) (ScopeTree.scope?_createChild_self _ _ _) rfl _

theorem Knows.enterFunction (h : c.Knows o x) (hc : c.scope < c.program.scopes.size)
    (ps : List TypedParam) (ret : Ty) : (c.enterFunction ps ret).Knows o x := by
  obtain ⟨s, hs, hp, _, _, _⟩ := ScopeTree.scope?_addParameters_self ps
    (c.program.scopes.scope?_createChild_self c.scope .function)
  exact h.inside hc (c.program.scopes.extends_addParameters c.scope .function ps) hs hp _

theorem knows_parameter (c : Context) {ps : List TypedParam} (ret : Ty)
    (h : x ∈ ps.map TypedParam.name) : (c.enterFunction ps ret).Knows o x :=
  knows_of_lookup (c := c.enterFunction ps ret) (c.lookup_parameter ret h)

theorem knows_declareLocal (hc : c.scope < c.program.scopes.size) (s : Symbol) :
    (c.declareLocal s).Knows o s.name := by
  refine knows_of_lookup (c := c.declareLocal s) ?_
  refine ScopeTree.lookup_isSome_iff.mpr ⟨c.scope, ?_, ScopeTree.declares_addSymbol hc⟩
  refine ScopeTree.mem_ancestors_self ?_
  simpa [declareLocal, ScopeTree.addSymbol] using hc

end Context

/-- Out of a new scope again. -/
theorem Onward.leave {t t' : ScopeTree} {returnTypes returnTypes' : List Ty} (h : c.Twin o c')
    (ht : c.program.scopes.Extends t) (ht' : c'.program.scopes.Extends t')
    (k : Onward o (c.inside t returnTypes) (c'.inside t' returnTypes') d d') :
    Onward o c c' (c.leave d) (c'.leave d') where
  twin :=
    { k.twin with
      returnTypes := h.returnTypes
      placed := Nat.lt_of_lt_of_le h.placed (k.grows.extends ht).refines.size_le
      placed' := Nat.lt_of_lt_of_le h.placed' (k.grows'.extends ht').refines.size_le
      level := h.level
      tables := by
        refine ((k.grows'.extends ht').tables_eq h.placed').trans ?_
        rw [h.tables]
        exact ((k.grows.extends ht).tables_eq h.placed).symm
      program := fun hexact => ⟨(k.twin.program hexact).1, (h.program hexact).2⟩ }
  grows := k.grows.leave ht
  grows' := k.grows'.leave ht'
  reports := k.reports

end

namespace Check

variable {o : Outlook} {c c' : Context}

/-! Single steps -/

section

variable {α : Type}

theorem pairs_report (ht : c.Twin o c') (problem : Problem) (span : Span) :
    Pairs o Equal (report problem span) (report problem span) c c' :=
  ⟨⟨{ ht with }, Context.grows_later (.refl _ _) [⟨problem, span⟩],
    Context.grows_later (.refl _ _) [⟨problem, span⟩], [⟨problem, span⟩], rfl, rfl⟩, rfl⟩

theorem pairs_alloc {e e' : Expr} (ht : c.Twin o c') (t : Ty) (hspan : e'.span = e.span)
    (he : o.exact → e' = e) :
    Pairs o (SameValue o) (alloc e t) (alloc e' t) c c' := by
  have hnumber : o.exact → c'.program.exprs.size = c.program.exprs.size :=
    fun hexact => by rw [(ht.program hexact).1]
  refine ⟨.of_twin { ht with program := ?_ } (Context.grows_alloc c e t)
    (Context.grows_alloc c' e' t) rfl rfl, ?_⟩
  · intro hexact
    obtain ⟨hprogram, hscope⟩ := ht.program hexact
    exact ⟨by change c'.program.alloc e' t = c.program.alloc e t; rw [hprogram, he hexact], hscope⟩
  · exact
      { lt := by
          change c.program.exprs.size < (c.program.exprs.push _).size
          simp
        lt' := by
          change c'.program.exprs.size < (c'.program.exprs.push _).size
          simp
        type := (c'.type_alloc_self e' t).trans (c.type_alloc_self e t).symm
        span := by
          change (c'.alloc e' t).program.span c'.program.exprs.size =
            (c.alloc e t).program.span c.program.exprs.size
          simp [Context.alloc, Program.alloc, Program.span, Program.expr?, hspan]
        number := hnumber }

theorem Reads.pairs {m : Check α} {v : TypeScope → α} {ds : TypeScope → List Diagnostic}
    (hm : Reads m v ds) (ht : c.Twin o c') : Pairs o Equal m m c c' := by
  rw [Pairs, hm c, hm c', ht.typeScope_eq]
  exact ⟨⟨{ ht with }, Context.grows_later (.refl _ _) _, Context.grows_later (.refl _ _) _, _, rfl,
    rfl⟩, rfl⟩

theorem pairs_error (ht : c.Twin o c') (span : Span) :
    Pairs o (SameValue o) (error span) (error span) c c' := pairs_alloc ht _ rfl fun _ => rfl

/-- What failed is reported and left out. -/
theorem pairs_failure (ht : c.Twin o c') (problem : Problem) (reportSpan span : Span) :
    Pairs o (SameValue o) (do report problem reportSpan; error span)
      (do report problem reportSpan; error span) c c' :=
  (pairs_report ht problem reportSpan).bind_equal fun _ _ _ hon => pairs_error hon.twin span

theorem pairs_read {r r' : Resolved} (ht : c.Twin o c') (hr : r.Same o r') (span : Span) :
    Pairs o (SameValue o) (read r span) (read r' span) c c' := by
  unfold read
  refine pairs_get_bind ?_
  dsimp only
  rw [hr.symbol]
  refine pairs_alloc ht _ rfl fun hexact => ?_
  rw [hr.target hexact, (ht.program hexact).2]

theorem pairs_declare (ht : c.Twin o c') (s : Symbol) :
    Pairs o Equal (declare s) (declare s) c c' := by
  have hns := ht.ns.addSymbol s
  refine ⟨.of_twin { ht with ns := ?_ } ?_ ?_ rfl rfl, rfl⟩
  · change (c.ns.addSymbol c.path s).Like o.path o.reads (c'.ns.addSymbol c'.path s)
    rw [ht.path, ht.path']
    exact hns
  · exact { Context.Grows.refl c with ns := Namespace.grows_addSymbol _ _ s }
  · exact { Context.Grows.refl c' with ns := Namespace.grows_addSymbol _ _ s }

/-- The same steps for things that go together. -/
theorem pairs_forM {R : Context → Context → α → α → Prop}
    (hR : ∀ a a' c c' d d', Onward o c c' d d' → R c c' a a' → R d d' a a') {f f' : α → Check Unit}
    (hf : ∀ a a' c c', c.Twin o c' → R c c' a a' → Pairs o Equal (f a) (f' a') c c')
    {as as' : List α} (ht : c.Twin o c') (h : List.Forall₂ (R c c') as as') :
    Pairs o Equal (as.forM f) (as'.forM f') c c' := by
  induction as generalizing as' c c' with
  | nil =>
    cases h
    exact pairs_pure ht rfl
  | cons a as ih =>
    cases h with
    | cons ha has =>
      refine (hf _ _ _ _ ht ha).bind_equal fun _ d d' hon => ?_
      exact ih hon.twin (has.imp fun _ _ hr => hR _ _ _ _ _ _ hon hr)

/-- The same steps for the same things. -/
theorem pairs_forM_same {f : α → Check Unit}
    (hf : ∀ a c c', c.Twin o c' → Pairs o Equal (f a) (f a) c c') (ht : c.Twin o c') (as : List α) :
    Pairs o Equal (as.forM f) (as.forM f) c c' := by
  refine pairs_forM (R := Equal) (fun _ _ _ _ _ _ _ h => h) ?_ ht
    (List.forall₂_same.mpr fun _ _ => rfl)
  rintro a _ c c' ht rfl
  exact hf _ c c' ht

/-- A type of the package is defined, with or without its cases. -/
theorem pairs_modify_define (ht : c.Twin o c') (d : PackagePath → Definition) :
    Pairs o Equal (do let path := (← get).path; modifyNamespace fun ns => ns.define path (d path))
      (do let path := (← get).path; modifyNamespace fun ns => ns.define path (d path)) c c' := by
  have hns := ht.ns.define (d o.path)
  refine ⟨.of_twin { ht with ns := ?_ } ?_ ?_ rfl rfl, rfl⟩
  · change (c.ns.define c.path (d c.path)).Like o.path o.reads (c'.ns.define c'.path (d c'.path))
    rw [ht.path, ht.path']
    exact hns
  · exact { Context.Grows.refl c with ns := Namespace.grows_define _ _ (d c.path) }
  · exact { Context.Grows.refl c' with ns := Namespace.grows_define _ _ (d c'.path) }

theorem pairs_define (ht : c.Twin o c') (d : Definition) :
    Pairs o Equal (define d) (define d) c c' :=
  (pairs_forM_same (fun _ _ _ ht => pairs_declare ht _) ht d.cases).bind_equal
    fun _ _ _ hon => pairs_modify_define hon.twin fun _ => d

theorem run_mapM_typeOf (c : Context) (is : List Nat) :
    (is.mapM typeOf).run c = (is.map c.program.type, c) := by
  induction is with
  | nil => rfl
  | cons i is ih =>
    rw [List.mapM_cons]
    change (StateT.run (is.mapM typeOf >>= fun ts => pure (c.program.type i :: ts)) c) = _
    rw [StateT.run_bind, ih]
    rfl

theorem map_type_eq {is is' : List Nat} (h : List.Forall₂ (SameValue o c c') is is') :
    is'.map c'.program.type = is.map c.program.type := by
  induction h with
  | nil => rfl
  | cons hi _ ih => rw [List.map_cons, List.map_cons, hi.type, ih]

theorem numbers_eq {is is' : List Nat} (h : List.Forall₂ (SameValue o c c') is is')
    (hexact : o.exact) : is' = is := by
  induction h with
  | nil => rfl
  | cons hi _ ih => rw [hi.number hexact, ih]

theorem rel_getLast? {R : α → α → Prop} {as as' : List α} (h : List.Forall₂ R as as') :
    Option.Rel R as.getLast? as'.getLast? := by
  induction h with
  | nil => exact .none
  | cons ha hs ih =>
    cases hs with
    | nil => exact .some ha
    | cons _ _ => simpa only [List.getLast?_cons_cons] using ih

theorem pairs_mapM_typeOf_bind {g g' : List Ty → Check α} {V : Context → Context → α → α → Prop}
    {is is' : List Nat} (his : List.Forall₂ (SameValue o c c') is is')
    (h : Pairs o V (g (is.map c.program.type)) (g' (is.map c.program.type)) c c') :
    Pairs o V (is.mapM typeOf >>= g) (is'.mapM typeOf >>= g') c c' := by
  rw [Pairs, StateT.run_bind, StateT.run_bind, run_mapM_typeOf, run_mapM_typeOf, map_type_eq his]
  exact h

end

/-! Whether types fit -/

section

variable {i i' j j' : Nat} {is is' : List Nat}

theorem pairs_expectType (ht : c.Twin o c') (t : Ty) (hi : SameValue o c c' i i') :
    Pairs o Equal (expectType t i) (expectType t i') c c' := by
  unfold expectType
  refine pairs_typeOf_bind hi (pairs_ite (fun _ => pairs_pure ht rfl) fun _ => ?_)
  exact pairs_spanOf_bind hi (pairs_report ht _ _)

theorem pairs_functionResult (ht : c.Twin o c') (ret bodyType : Ty) (lastSpan span : Span) :
    Pairs o Equal (functionResult ret bodyType lastSpan span)
      (functionResult ret bodyType lastSpan span) c c' := by
  unfold functionResult
  refine pairs_ite (fun _ => pairs_pure ht rfl) fun _ => ?_
  refine pairs_ite (fun _ => pairs_report ht _ _) fun _ => ?_
  exact pairs_ite (fun _ => pairs_pure ht rfl) fun _ => pairs_report ht _ _

/-- A report at the place of an expression, and then a value. -/
theorem pairs_spanOf_report {α : Type} (ht : c.Twin o c') (hi : SameValue o c c' i i')
    (problem : Problem) (a : α) :
    Pairs o Equal (do report problem (← spanOf i); return a)
      (do report problem (← spanOf i'); return a) c c' :=
  pairs_spanOf_bind hi ((pairs_report ht _ _).bind_equal fun _ _ _ hon => pairs_pure hon.twin rfl)

theorem pairs_report_return {α : Type} (ht : c.Twin o c') (problem : Problem) (span : Span) (a : α) :
    Pairs o Equal (do report problem span; return a) (do report problem span; return a) c c' :=
  (pairs_report ht _ _).bind_equal fun _ _ _ hon => pairs_pure hon.twin rfl

theorem pairs_arithmetic (ht : c.Twin o c') (op : BinaryOp) (hi : SameValue o c c' i i')
    (hj : SameValue o c c' j j') : Pairs o Equal (arithmetic op i j) (arithmetic op i' j') c c' := by
  unfold arithmetic
  refine pairs_typeOf_bind hi (pairs_typeOf_bind hj ?_)
  refine pairs_ite (fun _ => pairs_pure ht rfl) fun _ => ?_
  refine pairs_ite (fun _ => pairs_pure ht rfl) fun _ => ?_
  refine pairs_ite (fun _ => pairs_spanOf_report ht hi _ _) fun _ => ?_
  refine pairs_ite (fun _ => pairs_spanOf_report ht hj _ _) fun _ => ?_
  exact pairs_ite (fun _ => pairs_pure ht rfl) fun _ => pairs_pure ht rfl

theorem pairs_comparison (ht : c.Twin o c') (op : BinaryOp) (hi : SameValue o c c' i i')
    (hj : SameValue o c c' j j') (span : Span) :
    Pairs o Equal (comparison op i j span) (comparison op i' j' span) c c' := by
  unfold comparison
  refine pairs_typeOf_bind hi (pairs_typeOf_bind hj ?_)
  exact pairs_ite (fun _ => pairs_pure ht rfl) fun _ => pairs_report ht _ _

theorem pairs_negation (ht : c.Twin o c') (hi : SameValue o c c' i i') :
    Pairs o Equal (negation i) (negation i') c c' := by
  unfold negation
  refine pairs_typeOf_bind hi ?_
  exact pairs_ite (fun _ => pairs_pure ht rfl) fun _ => pairs_spanOf_report ht hi _ _

theorem pairs_branchType {k k' : Option Nat} (ht : c.Twin o c') (hi : SameValue o c c' i i')
    (hk : Option.Rel (SameValue o c c') k k') (span : Span) :
    Pairs o Equal (branchType i k span) (branchType i' k' span) c c' := by
  unfold branchType
  cases hk with
  | none => exact pairs_pure ht rfl
  | some hj =>
    refine pairs_typeOf_bind hi (pairs_typeOf_bind hj ?_)
    exact pairs_ite (fun _ => pairs_pure ht rfl) fun _ => pairs_report_return ht _ _ _

theorem pairs_arguments (ht : c.Twin o c') (u : Unifier) (ts : List Ty)
    (his : List.Forall₂ (SameValue o c c') is is') :
    Pairs o Equal (arguments u (ts.zip is)) (arguments u (ts.zip is')) c c' := by
  induction ts generalizing u c c' is is' with
  | nil => exact pairs_pure ht rfl
  | cons t ts ih =>
    cases his with
    | nil => exact pairs_pure ht rfl
    | cons hi his =>
      refine pairs_typeOf_bind hi ?_
      rcases u.unify t (c.program.type _) with ⟨u', _ | fault⟩
      · exact ih ht u' his
      · refine pairs_spanOf_bind hi ((pairs_report ht _ _).bind_equal fun _ d d' hon => ?_)
        exact ih hon.twin u' (his.imp fun _ _ h => h.onward hon)

theorem pairs_signatureCall (ht : c.Twin o c') (s : Signature)
    (his : List.Forall₂ (SameValue o c c') is is') (span : Span) :
    Pairs o Equal (signatureCall s is span) (signatureCall s is' span) c c' := by
  unfold signatureCall
  rw [← his.length_eq]
  refine pairs_ite (fun _ => ?_) fun _ => pairs_report_return ht _ _ _
  exact (pairs_arguments ht {} s.params his).bind_equal fun u _ _ hon => pairs_pure hon.twin rfl

theorem pairs_callType (ht : c.Twin o c') (x : String) (hi : SameValue o c c' i i')
    (his : List.Forall₂ (SameValue o c c') is is') (span : Span) :
    Pairs o Equal (callType x i is span) (callType x i' is' span) c c' := by
  unfold callType
  refine pairs_typeOf_bind hi ?_
  have hother (t : Ty) : Pairs o Equal
      (do
        unless t.isAny do
          report (.notAFunction x t) (← spanOf i)
        return Ty.any)
      (do
        unless t.isAny do
          report (.notAFunction x t) (← spanOf i')
        return Ty.any) c c' :=
    pairs_ite (fun _ => pairs_pure ht rfl) fun _ => pairs_spanOf_report ht hi _ _
  cases c.program.type i with
  | function s => exact pairs_signatureCall ht s his span
  | overloaded ss =>
    refine pairs_mapM_typeOf_bind his ?_
    cases ss.findSome? fun s => resultOf? s (is.map c.program.type) with
    | some t => exact pairs_pure ht rfl
    | none => exact pairs_report_return ht _ _ _
  | _ => exact hother _

end

/-! Names and declarations -/

section

theorem pairs_declareLocal_bind {α : Type} {V : Context → Context → α → α → Prop} {g g' : Check α}
    (ht : c.Twin o c') (s : Symbol) (h : Pairs o V g g' (c.declareLocal s) (c'.declareLocal s)) :
    Pairs o V (do modifyScopes fun t => t.addSymbol c.scope s; g)
      (do modifyScopes fun t => t.addSymbol c'.scope s; g') c c' :=
  ⟨(Onward.of_twin (ht.declareLocal s) (Context.grows_declareLocal c s)
    (Context.grows_declareLocal c' s) rfl rfl).trans h.1, h.2⟩

variable {x : String} {i i' j j' k k' : Nat} {is is' : List Nat} {V : Context → Context → Nat → Nat → Prop}

/-- A name is looked up, and what is done with it goes alike. -/
theorem pairs_resolveName (ht : c.Twin o c') (hx : c.Knows o x) {f f' : Resolved → Check Nat}
    {g g' : Check Nat} (hf : ∀ r r', r.Same o r' → Pairs o V (f r) (f' r') c c')
    (hg : Pairs o V g g' c c') :
    Pairs o V (match c.resolveName x with | some r => f r | none => g)
      (match c'.resolveName x with | some r => f' r | none => g') c c' := by
  have h := ht.resolveName_same hx
  generalize c.resolveName x = r at h ⊢
  generalize c'.resolveName x = r' at h ⊢
  cases h with
  | none => exact hg
  | some h => exact hf _ _ h

theorem pairs_name (ht : c.Twin o c') (hx : c.Knows o x) (span : Span) :
    Pairs o (SameValue o) (name x span) (name x span) c c' := by
  unfold name
  refine pairs_get_bind (pairs_resolveName ht hx (fun r r' hr => pairs_read ht hr span) ?_)
  exact pairs_failure ht _ _ _

/-- A name in a package is looked up, and what is done with it goes alike. -/
theorem pairs_resolveIn (ht : c.Twin o c') {path : PackagePath}
    (hx : path = o.path → o.reads path x) {f f' : Resolved → Check Nat} {g g' : Check Nat}
    (hf : ∀ r, Pairs o V (f r) (f' r) c c') (hg : Pairs o V g g' c c') :
    Pairs o V (match c.resolveIn path x with | some r => f r | none => g)
      (match c'.resolveIn path x with | some r => f' r | none => g') c c' := by
  rw [ht.resolveIn_eq hx]
  cases c.resolveIn path x with
  | none => exact hg
  | some r => exact hf r

theorem pairs_qualifiedName (ht : c.Twin o c') {path : PackagePath}
    (hx : path = o.path → o.reads path x) (nameSpan span : Span) :
    Pairs o (SameValue o) (qualifiedName path x nameSpan span)
      (qualifiedName path x nameSpan span) c c' := by
  unfold qualifiedName
  refine pairs_get_bind ?_
  have hnone : (c'.ns.package? path).isNone = (c.ns.package? path).isNone := by
    rw [← Option.not_isSome, ← Option.not_isSome, ht.ns.package]
  rw [hnone]
  refine pairs_ite (fun _ => pairs_failure ht _ _ _) fun _ => ?_
  refine pairs_resolveIn ht hx (fun r => ?_) (pairs_failure ht _ _ _)
  exact pairs_read ht ⟨rfl, fun _ => rfl⟩ span

/-- The name of a variable is declared alike; in a scope it is known then. -/
theorem pairs_declareVariable (ht : c.Twin o c') (head : VariableHead) (type : Ty)
    (hi : SameValue o c c' i i') (span : Span) :
    Pairs o (fun d d' j j' => SameValue o d d' j j' ∧ (c.scope ≠ ScopeTree.root → d.Knows o head.name))
      (declareVariable head type i span) (declareVariable head type i' span) c c' := by
  unfold declareVariable
  refine pairs_get_bind ?_
  dsimp only
  rw [ht.level]
  refine pairs_ite (fun hroot => ?_) fun _ => ?_
  · have hscope : c.scope = ScopeTree.root := by simpa [Context.isAtPackageLevel] using hroot
    refine (pairs_declare ht _).bind_equal fun _ d d' hon => ?_
    rw [ht.path, ht.path']
    have hend {e e' : Expr} (he : o.exact → e' = e) (hspan : e'.span = e.span) :
        Pairs o (fun d d' j j' => SameValue o d d' j j' ∧
          (c.scope ≠ ScopeTree.root → d.Knows o head.name)) (alloc e .unit) (alloc e' .unit) d d' :=
      (pairs_alloc hon.twin .unit hspan he).mono fun _ _ _ _ _ h =>
        ⟨h, fun hne => absurd hscope hne⟩
    exact pairs_ite (fun _ => hend (fun hexact => by rw [hi.number hexact]) rfl)
      fun _ => hend (fun hexact => by rw [hi.number hexact]) rfl
  · let s : Symbol := ⟨head.name, type, false, head.isMutable⟩
    have hmade : Pairs o (SameValue o)
        (alloc (.defineLocal c.scope head.name head.isMutable i span) .unit)
        (alloc (.defineLocal c'.scope head.name head.isMutable i' span) .unit)
        (c.declareLocal s) (c'.declareLocal s) := by
      refine pairs_alloc (ht.declareLocal s) .unit rfl fun hexact => ?_
      rw [hi.number hexact, (ht.program hexact).2]
    refine pairs_declareLocal_bind ht s (hmade.mono fun j j' d d' hon hj => ⟨hj, fun _ => ?_⟩)
    exact hon.grows.knows (Context.knows_declareLocal ht.placed s)

/-- Where certain names are known, the step goes alike in twins. -/
def Mirrors {α : Type} (o : Outlook) (p : Place) (known : String → Prop)
    (V : Context → Context → α → α → Prop) (m : Check α) : Prop :=
  ∀ c c', c.Twin o c' → (∀ x, known x → c.Knows o x) → c.Hosts p → Pairs o V m m c c'

variable {known inside : String → Prop}

/-- The step comes later than something else. -/
theorem Mirrors.after {α : Type} {U : Context → Context → α → α → Prop} {m : Check α}
    (hm : Mirrors o .part known U m) (hk : ∀ x, known x → c.Knows o x) {d d' : Context}
    (hon : Onward o c c' d d') : Pairs o U m m d d' :=
  hm d d' hon.twin (fun x hx => hon.grows.knows (hk x hx)) trivial

theorem pairs_variableDecl (ht : c.Twin o c') (hk : ∀ x, known x → c.Knows o x)
    (head : VariableHead) {value : Check Nat} (hv : Mirrors o .part known (SameValue o) value)
    (span : Span) :
    Pairs o (fun d d' j j' => SameValue o d d' j j' ∧ (c.scope ≠ ScopeTree.root → d.Knows o head.name))
      (variableDecl head value span) (variableDecl head value span) c c' := by
  unfold variableDecl
  refine ((reads_optionalType true head.type).pairs ht).bind_equal fun written d d' hon => ?_
  refine (hv.after hk hon).bind fun i i' e e' hon' hi => ?_
  have hend (type : Ty) {f f' : Context} (k : Onward o c c' f f') (hi : SameValue o f f' i i') :=
    k.grows.scope ▸ pairs_declareVariable k.twin head type hi span
  cases written with
  | some type =>
    refine (pairs_expectType hon'.twin type hi).bind_equal fun _ f f' hon'' => ?_
    exact hend type ((hon.trans hon').trans hon'') (hi.onward hon'')
  | none => exact pairs_typeOf_bind hi (hend _ (hon.trans hon') hi)

theorem pairs_assignment (ht : c.Twin o c') (hk : ∀ x, known x → c.Knows o x) (hx : c.Knows o x)
    (nameSpan : Span) {value : Check Nat} (hv : Mirrors o .part known (SameValue o) value)
    (span : Span) :
    Pairs o (SameValue o) (assignment x nameSpan value span) (assignment x nameSpan value span)
      c c' := by
  unfold assignment
  refine pairs_get_bind ?_
  dsimp only
  have hsame := ht.resolveName_same hx
  generalize c.resolveName x = r at hsame ⊢
  generalize c'.resolveName x = r' at hsame ⊢
  refine (hv c c' ht hk trivial).bind fun i i' d d' hon hi => ?_
  cases hsame with
  | none => exact pairs_failure hon.twin _ _ _
  | @some r r' hr =>
    have hend {e e' : Context} (k : Onward o d d' e e') : Pairs o (SameValue o)
        (do
          expectType r.symbol.type i
          let scope := (← get).scope
          alloc (.assign ⟨r.target, scope, nameSpan⟩ i span) .unit)
        (do
          expectType r.symbol.type i'
          let scope := (← get).scope
          alloc (.assign ⟨r'.target, scope, nameSpan⟩ i' span) .unit) e e' := by
      refine (pairs_expectType k.twin _ (hi.onward k)).bind_equal fun _ f f' hon' => ?_
      refine pairs_get_bind (pairs_alloc hon'.twin .unit rfl fun hexact => ?_)
      rw [hi.number hexact, hr.target hexact, (hon'.twin.program hexact).2]
    dsimp only
    rw [hr.symbol]
    refine pairs_ite (fun _ => hend (.refl hon.twin)) fun _ => ?_
    exact (pairs_report hon.twin _ _).bind_equal fun _ e e' hon' => hend hon'

theorem pairs_definition (ht : c.Twin o c') (decl : DataDecl) :
    Pairs o Equal (definition decl) (definition decl) c c' := by
  rw [Pairs, run_definition, run_definition, ht.typeScope_eq, ht.path, ht.path']
  exact ⟨⟨{ ht with }, Context.grows_later (.refl _ _) _, Context.grows_later (.refl _ _) _, _,
    rfl, rfl⟩, rfl⟩

theorem pairs_nestedData (ht : c.Twin o c') (decl : DataDecl) (span : Span) :
    Pairs o (SameValue o) (nestedData decl span) (nestedData decl span) c c' := by
  unfold nestedData
  refine (pairs_definition ht decl).bind_equal fun d _ _ hon => ?_
  refine (pairs_define hon.twin d).bind_equal fun _ _ _ hon' => ?_
  exact pairs_alloc hon'.twin .unit rfl fun _ => rfl

/-! Functions and blocks -/

theorem pairs_withGenerics {α : Type} {U : Context → Context → α → α → Prop} {m m' : Check α}
    (ht : c.Twin o c') (names : List String)
    (h : Pairs o U m m' { c with generics := c.generics ++ names }
      { c' with generics := c'.generics ++ names })
    (hU : ∀ d d' a a', U d d' a a' →
      U { d with generics := c.generics } { d' with generics := c'.generics } a a') :
    Pairs o U (withGenerics names m) (withGenerics names m') c c' := by
  obtain ⟨hon, hu⟩ := h
  refine ⟨⟨?_, ?_, ?_, hon.reports⟩, hU _ _ _ _ hu⟩
  · exact { hon.twin with generics := ht.generics }
  · exact { hon.grows with generics := rfl }
  · exact { hon.grows' with generics := rfl }

theorem pairs_block (ht : c.Twin o c') (hk : ∀ x, known x → c.Knows o x) {body : Check (List Nat)}
    (hb : Mirrors o .statement known (fun d d' => List.Forall₂ (SameValue o d d')) body)
    (span : Span) : Pairs o (SameValue o) (block body span) (block body span) c c' := by
  unfold block
  have hinner := hb _ _ (ht.enter .block) (fun x hx => (hk x hx).enter ht.placed .block)
    (hosts_enter ht.placed .block)
  refine Pairs.bind (V := fun d d' r r' => (o.exact → r'.1 = r.1) ∧
    List.Forall₂ (SameValue o d d') r.2 r'.2) ?_ ?_
  · refine ⟨?_, ?_, ?_⟩
    · have hon := hinner.1.leave ht (ScopeTree.extends_createChild _ _ _)
        (ScopeTree.extends_createChild _ _ _)
      rw [leave_enter hinner.1.grows, leave_enter hinner.1.grows'] at hon
      exact hon
    · intro hexact
      change c'.program.scopes.size = c.program.scopes.size
      rw [(ht.program hexact).1]
    · exact hinner.2.imp fun i i' hi => { hi with }
  · rintro ⟨scope, ids⟩ ⟨scope', ids'⟩ d d' hon ⟨hscope, hids⟩
    dsimp only at hscope hids ⊢
    have hend (t : Ty) : Pairs o (SameValue o) (alloc (.block scope ids span) t)
        (alloc (.block scope' ids' span) t) d d' :=
      pairs_alloc hon.twin t rfl fun hexact => by rw [hscope hexact, numbers_eq hids hexact]
    have hlast := rel_getLast? hids
    generalize ids.getLast? = last at hlast ⊢
    generalize ids'.getLast? = last' at hlast ⊢
    cases hlast with
    | none => exact hend .unit
    | some hi => exact pairs_typeOf_bind hi (hend _)

theorem pairs_function (ht : c.Twin o c') (hk : ∀ x, known x → c.Knows o x) (ps : List TypedParam)
    (ret? : Option Ty) {body : Check (List Nat)}
    (hb : Mirrors o .statement inside (fun d d' => List.Forall₂ (SameValue o d d')) body)
    (hin : ∀ x, inside x → x ∈ ps.map TypedParam.name ∨ known x) (lastSpan span : Span) :
    Pairs o (SameValue o) (function ps ret? body lastSpan span)
      (function ps ret? body lastSpan span) c c' := by
  unfold function
  have hknown (x : String) (hx : inside x) : (c.enterFunction ps (ret?.getD .any)).Knows o x := by
    rcases hin x hx with hx | hx
    · exact c.knows_parameter _ hx
    · exact (hk x hx).enterFunction ht.placed ps _
  have hinner := pairs_block (ht.enterFunction ps (ret?.getD .any)) hknown hb span
  refine Pairs.bind (V := fun d d' r r' => (o.exact → r'.1 = r.1) ∧ SameValue o d d' r.2 r'.2) ?_ ?_
  · have hrun (c : Context) : (inScope .function fun scope => do
          ps.forM fun p => modifyScopes fun t => t.addParameter scope p.name p.type
          return (scope, ← returning (ret?.getD .any) (block body span))).run c =
        ((c.program.scopes.size, ((block body span).run (c.enterFunction ps (ret?.getD .any))).1),
          c.leave ((block body span).run (c.enterFunction ps (ret?.getD .any))).2) := by
      change (fun r : (Nat × Nat) × Context => (r.1, { r.2 with scope := c.scope }))
        (StateT.run (do
          ps.forM fun p => modifyScopes fun t => t.addParameter c.program.scopes.size p.name p.type
          return (c.program.scopes.size, ← returning (ret?.getD .any) (block body span)))
          (c.enter .function)) = _
      rw [StateT.run_bind, run_addParameters]
      rfl
    rw [Pairs, hrun, hrun]
    refine ⟨?_, ?_, { hinner.2 with }⟩
    · exact hinner.1.leave ht (ScopeTree.extends_addParameters _ _ _ ps)
        (ScopeTree.extends_addParameters _ _ _ ps)
    · intro hexact
      change c'.program.scopes.size = c.program.scopes.size
      rw [(ht.program hexact).1]
  · rintro ⟨scope, i⟩ ⟨scope', i'⟩ d d' hon ⟨hscope, hi⟩
    dsimp only at hscope hi ⊢
    refine pairs_typeOf_bind hi ?_
    have hend (ret : Ty) {e e' : Context} (k : Onward o d d' e e') :
        Pairs o (SameValue o) (alloc (.function scope ps ret i span) (functionType ps ret))
          (alloc (.function scope' ps ret i' span) (functionType ps ret)) e e' :=
      pairs_alloc k.twin _ rfl fun hexact => by rw [hscope hexact, hi.number hexact]
    cases ret? with
    | none => exact hend _ (.refl hon.twin)
    | some ret =>
      exact (pairs_functionResult hon.twin ret _ lastSpan span).bind_equal fun _ _ _ k => hend ret k

/-- The function is known in its own body and after it. -/
theorem pairs_localFunction (ht : c.Twin o c') (hk : ∀ x, known x → c.Knows o x)
    (head : FunctionHead) {body : Check (List Nat)}
    (hb : Mirrors o .statement inside (fun d d' => List.Forall₂ (SameValue o d d')) body)
    (hin : ∀ x, inside x → x ∈ head.params.map Param.name ∨ x = head.name ∨ known x)
    (lastSpan span : Span) :
    Pairs o (fun d d' j j' => SameValue o d d' j j' ∧ d.Knows o head.name)
      (localFunction head body lastSpan span) (localFunction head body lastSpan span) c c' := by
  unfold localFunction
  refine (((reads_signature true head).pairs ht).and (yields_signature true head)).bind ?_
  rintro ⟨ps, ret⟩ _ d d' hon ⟨rfl, hps⟩
  let s : Symbol := ⟨head.name, functionType ps ret, false, false⟩
  have hd := hon.twin.declareLocal s
  have hname : (d.declareLocal s).Knows o head.name := Context.knows_declareLocal hon.twin.placed s
  have hknown (x : String) (hx : x = head.name ∨ known x) : (d.declareLocal s).Knows o x := by
    rcases hx with rfl | hx
    · exact hname
    · exact (Context.grows_declareLocal d s).knows (hon.grows.knows (hk x hx))
  refine pairs_get_bind (pairs_declareLocal_bind hon.twin s ?_)
  have hvalue := pairs_withGenerics hd head.typeParams (pairs_function (hd.withGenerics head.typeParams)
    hknown ps (some ret) hb (hps ▸ hin) lastSpan span) fun _ _ _ _ h => { h with }
  refine hvalue.bind fun i i' e e' k hi => ?_
  have hmade : Pairs o (SameValue o) (alloc (.defineLocal d.scope head.name false i span) .unit)
      (alloc (.defineLocal d'.scope head.name false i' span) .unit) e e' := by
    refine pairs_alloc k.twin .unit rfl fun hexact => ?_
    rw [hi.number hexact, (hon.twin.program hexact).2]
  exact hmade.mono fun j j' f f' k' hj => ⟨hj, (k.trans k').grows.knows hname⟩

theorem pairs_lambda (ht : c.Twin o c') (hk : ∀ x, known x → c.Knows o x) (ps : List Param)
    (ret : Option TypeRef) {body : Check (List Nat)}
    (hb : Mirrors o .statement inside (fun d d' => List.Forall₂ (SameValue o d d')) body)
    (hin : ∀ x, inside x → x ∈ ps.map Param.name ∨ known x) (lastSpan span : Span) :
    Pairs o (SameValue o) (lambda ps ret body lastSpan span) (lambda ps ret body lastSpan span)
      c c' := by
  unfold lambda
  refine (((reads_params true ps).pairs ht).and (yields_params true ps)).bind ?_
  rintro _ ts d d' hon ⟨rfl, hts⟩
  refine ((reads_optionalType true ret).pairs hon.twin).bind_equal fun ret' e e' hon' => ?_
  exact pairs_function hon'.twin (fun x hx => (hon.trans hon').grows.knows (hk x hx)) ts ret' hb
    (hts ▸ hin) lastSpan span

/-! Operators and control flow -/

theorem pairs_binary (ht : c.Twin o c') (op : BinaryOp) (hi : SameValue o c c' i i')
    (hj : SameValue o c c' j j') (span : Span) :
    Pairs o (SameValue o) (binary op i j span) (binary op i' j' span) c c' := by
  unfold binary
  have hend (t : Ty) {d d' : Context} (k : Onward o c c' d d') :
      Pairs o (SameValue o) (alloc (.binary op i j span) t) (alloc (.binary op i' j' span) t) d d' :=
    pairs_alloc k.twin t rfl fun hexact => by rw [hi.number hexact, hj.number hexact]
  dsimp only
  refine pairs_ite (fun _ => ?_) fun _ => pairs_ite (fun _ => ?_) fun _ => ?_
  · exact (pairs_arithmetic ht op hi hj).bind_equal fun t _ _ k => hend t k
  · exact (pairs_comparison ht op hi hj span).bind_equal fun _ _ _ k => hend .bool k
  · refine (pairs_expectType ht .bool hi).bind_equal fun _ d d' k => ?_
    exact (pairs_expectType k.twin .bool (hj.onward k)).bind_equal
      fun _ _ _ k' => hend .bool (k.trans k')

theorem pairs_unary (ht : c.Twin o c') (op : UnaryOp) (hi : SameValue o c c' i i') (span : Span) :
    Pairs o (SameValue o) (unary op i span) (unary op i' span) c c' := by
  unfold unary
  have hend (t : Ty) {d d' : Context} (k : Onward o c c' d d') :
      Pairs o (SameValue o) (alloc (.unary op i span) t) (alloc (.unary op i' span) t) d d' :=
    pairs_alloc k.twin t rfl fun hexact => by rw [hi.number hexact]
  cases op with
  | not => exact (pairs_expectType ht .bool hi).bind_equal fun _ _ _ k => hend .bool k
  | negate => exact (pairs_negation ht hi).bind_equal fun t _ _ k => hend t k

theorem pairs_branch (ht : c.Twin o c') (hk : ∀ x, known x → c.Knows o x)
    {condition thenBranch : Check Nat} {elseBranch : Check (Option Nat)}
    (hcond : Mirrors o .part known (SameValue o) condition)
    (hthen : Mirrors o .part known (SameValue o) thenBranch)
    (helse : Mirrors o .part known (fun d d' => Option.Rel (SameValue o d d')) elseBranch)
    (span : Span) :
    Pairs o (SameValue o) (branch condition thenBranch elseBranch span)
      (branch condition thenBranch elseBranch span) c c' := by
  unfold branch
  refine (hcond c c' ht hk trivial).bind fun i i' c₁ c₁' k₁ hi => ?_
  refine (pairs_expectType k₁.twin .bool hi).bind_equal fun _ c₂ c₂' k₂ => ?_
  refine (hthen.after hk (k₁.trans k₂)).bind fun j j' c₃ c₃' k₃ hj => ?_
  refine (helse.after hk ((k₁.trans k₂).trans k₃)).bind fun l l' c₄ c₄' k₄ hl => ?_
  have hj₄ := hj.onward k₄
  refine (pairs_branchType k₄.twin hj₄ hl span).bind_equal fun t c₅ c₅' k₅ => ?_
  refine pairs_alloc k₅.twin t rfl fun hexact => ?_
  have hopt : l' = l := by
    cases hl with
    | none => rfl
    | some h => rw [h.number hexact]
  rw [hi.number hexact, hj.number hexact, hopt]

theorem pairs_loop (ht : c.Twin o c') (hk : ∀ x, known x → c.Knows o x)
    {condition body : Check Nat} (hcond : Mirrors o .part known (SameValue o) condition)
    (hbody : Mirrors o .part known (SameValue o) body) (span : Span) :
    Pairs o (SameValue o) (loop condition body span) (loop condition body span) c c' := by
  unfold loop
  refine (hcond c c' ht hk trivial).bind fun i i' c₁ c₁' k₁ hi => ?_
  refine (pairs_expectType k₁.twin .bool hi).bind_equal fun _ c₂ c₂' k₂ => ?_
  refine (hbody.after hk (k₁.trans k₂)).bind fun j j' c₃ c₃' k₃ hj => ?_
  exact pairs_alloc k₃.twin .unit rfl fun hexact => by rw [hi.number hexact, hj.number hexact]

theorem pairs_ret {v v' : Option Nat} (ht : c.Twin o c')
    (hv : Option.Rel (SameValue o c c') v v') (span : Span) :
    Pairs o (SameValue o) (ret v span) (ret v' span) c c' := by
  unfold ret
  have hend {d d' : Context} (k : Onward o c c' d d') :
      Pairs o (SameValue o) (alloc (.ret v span) .any) (alloc (.ret v' span) .any) d d' := by
    refine pairs_alloc k.twin _ rfl fun hexact => ?_
    cases hv with
    | none => rfl
    | some h => rw [h.number hexact]
  refine pairs_get_bind ?_
  dsimp only
  rw [ht.returnTypes]
  cases c.returnTypes.head? with
  | none => exact (pairs_report ht _ _).bind_equal fun _ _ _ k => hend k
  | some expected =>
    cases hv with
    | none =>
      refine pairs_ite (fun _ => hend (.refl ht)) fun _ => ?_
      exact (pairs_report ht _ _).bind_equal fun _ _ _ k => hend k
    | some hi => exact (pairs_expectType ht expected hi).bind_equal fun _ _ _ k => hend k

/-! Values -/

theorem pairs_index (ht : c.Twin o c') (hi : SameValue o c c' i i') (hj : SameValue o c c' j j')
    (span : Span) : Pairs o (SameValue o) (index i j span) (index i' j' span) c c' := by
  unfold index
  refine (pairs_expectType ht .int hj).bind_equal fun _ d d' k => ?_
  have hi' := hi.onward k
  refine pairs_typeOf_bind hi' ?_
  have hend (t : Ty) {e e' : Context} (k' : Onward o d d' e e') :
      Pairs o (SameValue o) (alloc (.index i j span) t) (alloc (.index i' j' span) t) e e' :=
    pairs_alloc k'.twin t rfl fun hexact => by rw [hi.number hexact, hj.number hexact]
  cases elementType? (d.program.type i) with
  | some element => exact hend element (.refl k.twin)
  | none =>
    exact pairs_spanOf_bind hi' ((pairs_report k.twin _ _).bind_equal fun _ _ _ k' => hend .any k')

theorem pairs_assignIndex {l l' : Nat} (ht : c.Twin o c') (hi : SameValue o c c' i i')
    (hj : SameValue o c c' j j') (hl : SameValue o c c' l l') (span : Span) :
    Pairs o (SameValue o) (assignIndex i j l span) (assignIndex i' j' l' span) c c' := by
  unfold assignIndex
  refine (pairs_expectType ht .int hj).bind_equal fun _ d d' k => ?_
  have hi' := hi.onward k
  refine pairs_typeOf_bind hi' ?_
  have hend {e e' : Context} (k' : Onward o d d' e e') : Pairs o (SameValue o)
      (alloc (.assignIndex i j l span) .unit) (alloc (.assignIndex i' j' l' span) .unit) e e' :=
    pairs_alloc k'.twin _ rfl fun hexact => by
      rw [hi.number hexact, hj.number hexact, hl.number hexact]
  dsimp only
  split
  · exact (pairs_expectType k.twin _ (hl.onward k)).bind_equal fun _ _ _ k' => hend k'
  · refine pairs_ite (fun _ => hend (.refl k.twin)) fun _ => ?_
    exact pairs_spanOf_bind hi' ((pairs_report k.twin _ _).bind_equal fun _ _ _ k' => hend k')

theorem pairs_caseTest (ht : c.Twin o c') (hi : SameValue o c c' i i') (case : String)
    (span : Span) : Pairs o (SameValue o) (caseTest i case span) (caseTest i' case span) c c' := by
  unfold caseTest
  have hend {d d' : Context} (k : Onward o c c' d d') :
      Pairs o (SameValue o) (alloc (.test i case span) .bool) (alloc (.test i' case span) .bool) d d' :=
    pairs_alloc k.twin _ rfl fun hexact => by rw [hi.number hexact]
  have hknows (t : Ty) : knowsCase c' case t = knowsCase c case t := by
    cases t with
    | variant head args => exact ht.hasCase_eq head case
    | _ => rfl
  refine pairs_typeOf_bind hi (pairs_get_bind ?_)
  rw [hknows]
  refine pairs_ite (fun _ => hend (.refl ht)) fun _ => ?_
  exact (pairs_report ht _ _).bind_equal fun _ _ _ k => hend k

theorem pairs_array (ht : c.Twin o c') (his : List.Forall₂ (SameValue o c c') is is')
    (span : Span) : Pairs o (SameValue o) (array is span) (array is' span) c c' := by
  unfold array
  refine pairs_mapM_typeOf_bind his ?_
  dsimp only
  refine (pairs_forM (R := SameValue o) (fun _ _ _ _ _ _ hon h => h.onward hon)
    (fun _ _ _ _ ht hi => pairs_expectType ht _ hi) ht his).bind_equal fun _ d d' k => ?_
  exact pairs_alloc k.twin _ rfl fun hexact => by rw [numbers_eq his hexact]

/-! Calls and members -/

theorem pairs_call (ht : c.Twin o c') (x : String) (hi : SameValue o c c' i i')
    (his : List.Forall₂ (SameValue o c c') is is') (span : Span) :
    Pairs o (SameValue o) (call x i is span) (call x i' is' span) c c' := by
  unfold call
  refine (pairs_callType ht x hi his span).bind_equal fun t d d' k => pairs_get_bind ?_
  dsimp only
  rw [k.twin.generics]
  exact pairs_alloc k.twin _ rfl fun hexact => by rw [hi.number hexact, numbers_eq his hexact]

section Calls

variable {args : Check (List Nat)} {method : String}

theorem pairs_packageCall (ht : c.Twin o c') (hk : ∀ x, known x → c.Knows o x) (package : String)
    (hx : o.imports.package? package = some o.path → o.reads o.path method) (methodSpan : Span)
    (ha : Mirrors o .part known (fun d d' => List.Forall₂ (SameValue o d d')) args) (span : Span) :
    Pairs o (SameValue o) (packageCall package method methodSpan args span)
      (packageCall package method methodSpan args span) c c' := by
  unfold packageCall
  refine (ha c c' ht hk trivial).bind fun is is' d d' hon his => pairs_get_bind ?_
  rw [Context.resolveQualified, Context.resolveQualified, hon.twin.imports, hon.twin.imports']
  cases hp : o.imports.package? package with
  | none => exact pairs_failure hon.twin _ _ _
  | some path =>
    refine pairs_resolveIn hon.twin (fun h => ?_) (fun r => ?_) (pairs_failure hon.twin _ _ _)
    · subst h
      exact hx hp
    · refine (pairs_read hon.twin ⟨rfl, fun _ => rfl⟩ methodSpan).bind fun i i' e e' k hi => ?_
      exact pairs_call k.twin method hi (his.imp fun _ _ h => h.onward k) span

theorem pairs_receiverCall {r r' : Resolved} (ht : c.Twin o c') (hk : ∀ x, known x → c.Knows o x)
    (hr : r.Same o r') (hi : SameValue o c c' i i') (methodSpan : Span)
    (ha : Mirrors o .part known (fun d d' => List.Forall₂ (SameValue o d d')) args) (span : Span) :
    Pairs o (SameValue o) (receiverCall r i method methodSpan args span)
      (receiverCall r' i' method methodSpan args span) c c' := by
  unfold receiverCall
  refine (pairs_read ht hr methodSpan).bind fun f f' d d' k hf => ?_
  refine (ha.after hk k).bind fun is is' e e' k' his => ?_
  exact pairs_call k'.twin method (hf.onward k') (.cons (hi.onward (k.trans k')) his) span

theorem pairs_fieldCall (ht : c.Twin o c') (hk : ∀ x, known x → c.Knows o x) (type : Ty)
    (hi : SameValue o c c' i i') (methodSpan : Span)
    (ha : Mirrors o .part known (fun d d' => List.Forall₂ (SameValue o d d')) args) (span : Span) :
    Pairs o (SameValue o) (fieldCall type i method methodSpan args span)
      (fieldCall type i' method methodSpan args span) c c' := by
  unfold fieldCall
  refine pairs_spanOf_bind hi ?_
  refine Pairs.bind (V := SameValue o)
    (pairs_alloc ht type rfl fun hexact => by rw [hi.number hexact]) fun f f' d d' k hf => ?_
  refine (ha.after hk k).bind fun is is' e e' k' his => ?_
  exact pairs_call k'.twin method (hf.onward k') his span

theorem pairs_plainMethodCall (ht : c.Twin o c') (hk : ∀ x, known x → c.Knows o x)
    (hx : c.Knows o method) (hi : SameValue o c c' i i') (methodSpan : Span)
    (ha : Mirrors o .part known (fun d d' => List.Forall₂ (SameValue o d d')) args) (span : Span) :
    Pairs o (SameValue o) (plainMethodCall i method methodSpan args span)
      (plainMethodCall i' method methodSpan args span) c c' := by
  unfold plainMethodCall
  refine pairs_get_bind (pairs_resolveName ht hx (fun r r' hr => ?_) ?_)
  · exact pairs_receiverCall ht hk hr hi methodSpan ha span
  · refine (pairs_report ht _ _).bind_equal fun _ d d' hon => ?_
    exact (ha.after hk hon).bind fun _ _ _ _ k _ => pairs_error k.twin span

/-- The package of the receiver's type may be the unit's own. -/
theorem pairs_valueMethodCall (ht : c.Twin o c') (hk : ∀ x, known x → c.Knows o x)
    (hx : c.Knows o method) (hown : o.reads o.path method) (hi : SameValue o c c' i i')
    (methodSpan : Span)
    (ha : Mirrors o .part known (fun d d' => List.Forall₂ (SameValue o d d')) args) (span : Span) :
    Pairs o (SameValue o) (valueMethodCall i method methodSpan args span)
      (valueMethodCall i' method methodSpan args span) c c' := by
  unfold valueMethodCall
  refine pairs_get_bind ?_
  rw [hi.type]
  have hplain := pairs_plainMethodCall ht hk hx hi methodSpan ha span
  cases c.program.type i with
  | variant head typeArgs =>
    dsimp only
    have hin : head.path = o.path → o.reads head.path method := by
      intro h
      rwa [h]
    rw [ht.resolveIn_eq hin, ht.fieldType?_eq]
    cases c.resolveIn head.path method with
    | some r => exact pairs_receiverCall ht hk ⟨rfl, fun _ => rfl⟩ hi methodSpan ha span
    | none =>
      cases c.fieldType? head typeArgs method with
      | some type => exact pairs_fieldCall ht hk type hi methodSpan ha span
      | none => exact hplain
  | _ => exact hplain

end Calls

/-- The name of a package that a receiver stands for is found alike. -/
theorem packageName?_eq (ht : c.Twin o c') {receiver : Node}
    (hx : ∀ y span, receiver = .name y span → c.Knows o y) :
    packageName? c' receiver = packageName? c receiver := by
  cases receiver with
  | name y span => simp only [packageName?, ht.namesPackage_eq (hx y span rfl)]
  | _ => rfl

theorem name_of_packageName? {receiver : Node} {package : String}
    (h : packageName? c receiver = some package) : ∃ span, receiver = .name package span := by
  cases receiver with
  | name y span =>
    rw [packageName?] at h
    split at h
    · cases h
      exact ⟨span, rfl⟩
    · cases h
  | _ => cases h

theorem pairs_methodCall (ht : c.Twin o c') (hk : ∀ x, known x → c.Knows o x) {receiverNode : Node}
    (hname : ∀ y span, receiverNode = .name y span → c.Knows o y) {receiver : Check Nat}
    {method : String} (hx : c.Knows o method) (hown : o.reads o.path method)
    (hr : Mirrors o .part known (SameValue o) receiver) (methodSpan : Span)
    {args : Check (List Nat)}
    (ha : Mirrors o .part known (fun d d' => List.Forall₂ (SameValue o d d')) args) (span : Span) :
    Pairs o (SameValue o) (methodCall receiverNode receiver method methodSpan args span)
      (methodCall receiverNode receiver method methodSpan args span) c c' := by
  unfold methodCall
  refine pairs_get_bind ?_
  rw [packageName?_eq ht hname]
  cases packageName? c receiverNode with
  | some package => exact pairs_packageCall ht hk package (fun _ => hown) methodSpan ha span
  | none =>
    refine (hr c c' ht hk trivial).bind fun i i' d d' hon hi => ?_
    exact pairs_valueMethodCall hon.twin (fun x hx => hon.grows.knows (hk x hx))
      (hon.grows.knows hx) hown hi methodSpan ha span

theorem pairs_member (ht : c.Twin o c') (hk : ∀ x, known x → c.Knows o x) {receiverNode : Node}
    (hname : ∀ y span, receiverNode = .name y span → c.Knows o y)
    (hown : ∀ y span, receiverNode = .name y span → o.imports.package? y = some o.path →
      o.reads o.path x) {receiver : Check Nat}
    (hr : Mirrors o .part known (SameValue o) receiver) (memberSpan span : Span) :
    Pairs o (SameValue o) (member receiverNode receiver x memberSpan span)
      (member receiverNode receiver x memberSpan span) c c' := by
  unfold member
  refine pairs_get_bind ?_
  rw [packageName?_eq ht hname]
  cases hp : packageName? c receiverNode with
  | some package =>
    obtain ⟨s, rfl⟩ := name_of_packageName? hp
    dsimp only
    rw [Context.resolveQualified, Context.resolveQualified, ht.imports, ht.imports']
    cases hpath : o.imports.package? package with
    | none => exact pairs_failure ht _ _ _
    | some path =>
      refine pairs_resolveIn ht (fun h => ?_) (fun r => ?_) (pairs_failure ht _ _ _)
      · subst h
        exact hown package s rfl hpath
      · exact pairs_read ht ⟨rfl, fun _ => rfl⟩ span
  | none =>
    refine (hr c c' ht hk trivial).bind fun i i' d d' hon hi => ?_
    unfold valueMember
    refine pairs_get_bind ?_
    dsimp only
    have htype : memberType? d' x (d.program.type i) = memberType? d x (d.program.type i) := by
      cases d.program.type i with
      | variant head args => exact hon.twin.fieldType?_eq head args x
      | _ => rfl
    rw [hi.type, htype]
    cases memberType? d x (d.program.type i) with
    | some type => exact pairs_alloc hon.twin type rfl fun hexact => by rw [hi.number hexact]
    | none => exact pairs_failure hon.twin _ _ _

end

end Check

end Tern
