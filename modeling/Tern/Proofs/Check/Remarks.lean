import Tern.Proofs.Check.Built

/-!
Steps of checking that make no expressions: they find types and report what does not fit. They leave
the context as it was, but for their reports, and no report blames the type `any`.
-/

set_option autoImplicit false

namespace Tern

namespace Context

@[simp] theorem later_nil (c : Context) : c.later c.ns [] = c := by simp [later]

theorem later_later (c : Context) (ns ns' : Namespace) (ds ds' : List Diagnostic) :
    (c.later ns ds).later ns' ds' = c.later ns' (ds ++ ds') := by
  simp [later, List.append_assoc]

end Context

/-- The problem is with what was found and not with a name. -/
def Problem.IsRemark (problem : Problem) : Prop :=
  problem.SparesAny ∧ ∀ x, problem ≠ .unrecognizedName x

theorem Problem.isRemark_typeMismatch {expected actual : Ty} (h : expected ≠ .any ∧ actual ≠ .any) :
    (typeMismatch expected actual).IsRemark := ⟨h, by simp⟩

theorem Permit.allows_of_isRemark (permit : Permit) {problem : Problem} (h : problem.IsRemark) :
    permit.Allows problem := ⟨h.1, fun x hx => absurd hx (h.2 x)⟩

theorem Permit.allows_name {permit : Permit} {x : String} (h : permit.unknown x) :
    permit.Allows (.unrecognizedName x) :=
  ⟨trivial, fun _ hy => Problem.unrecognizedName.inj hy ▸ h⟩

namespace Check

variable {α β : Type}

/-- The step ends with a value and a context of which `Q` holds. -/
def Yields (m : Check α) (c : Context) (Q : α → Context → Prop) : Prop := Q (m.run c).1 (m.run c).2

section Yields

variable {m : Check α} {f : α → Check β} {c : Context} {P : α → Context → Prop}
  {Q : β → Context → Prop}

theorem Yields.bind (hm : Yields m c P) (hf : ∀ a c', P a c' → Yields (f a) c' Q) :
    Yields (m >>= f) c Q := hf _ _ hm

theorem Yields.mono {P' : α → Context → Prop} (hm : Yields m c P)
    (h : ∀ a c', P a c' → P' a c') : Yields m c P' := h _ _ hm

theorem Yields.and {P' : α → Context → Prop} (hm : Yields m c P) (hm' : Yields m c P') :
    Yields m c fun a c' => P a c' ∧ P' a c' := ⟨hm, hm'⟩

theorem yields_pure {a : α} (h : P a c) : Yields (pure a) c P := h

theorem yields_of_run {m' : Check α} {c' : Context} (h : m.run c = m'.run c') (h' : Yields m' c' P) :
    Yields m c P := by
  rw [Yields, h]
  exact h'

theorem yields_get_bind {g : Context → Check β} (h : Yields (g c) c Q) :
    Yields (get >>= g) c Q := h

end Yields

/-- The step only reports, and not that a name is unrecognized. -/
def Remarks (m : Check α) : Prop :=
  ∀ c, m.Yields c fun _ c' => ∃ ds, c' = c.later c.ns ds ∧ ∀ d ∈ ds, d.problem.IsRemark

theorem remarks_pure (a : α) : Remarks (pure a : Check α) :=
  fun c => ⟨[], c.later_nil.symm, by simp⟩

theorem Remarks.bind {m : Check α} {f : α → Check β} (hm : Remarks m) (hf : ∀ a, Remarks (f a)) :
    Remarks (m >>= f) := by
  intro c
  refine (hm c).bind fun a c' ⟨ds, hc, hds⟩ => (hf a c').mono fun _ c'' ⟨ds', hc', hds'⟩ => ?_
  refine ⟨ds ++ ds', ?_, ?_⟩
  · rw [hc', hc, Context.later_later]
    rfl
  · intro d hd
    rcases List.mem_append.mp hd with hd | hd
    · exact hds d hd
    · exact hds' d hd

theorem remarks_get_bind {f : Context → Check α} (h : ∀ c, Remarks (f c)) : Remarks (get >>= f) :=
  fun c => h c c

theorem remarks_report {problem : Problem} (span : Span) (h : problem.IsRemark) :
    Remarks (report problem span) :=
  fun _ => ⟨[⟨problem, span⟩], rfl, by simpa using h⟩

theorem remarks_typeOf (id : Nat) : Remarks (typeOf id) :=
  remarks_get_bind fun _ => remarks_pure _

theorem remarks_spanOf (id : Nat) : Remarks (spanOf id) :=
  remarks_get_bind fun _ => remarks_pure _

theorem remarks_mapM {f : α → Check β} (h : ∀ a, Remarks (f a)) (as : List α) :
    Remarks (as.mapM f) := by
  induction as with
  | nil => exact remarks_pure _
  | cons a as ih =>
    rw [List.mapM_cons]
    exact (h a).bind fun _ => ih.bind fun _ => remarks_pure _

theorem remarks_forM {f : α → Check PUnit} (h : ∀ a, Remarks (f a)) (as : List α) :
    Remarks (as.forM f) := by
  induction as with
  | nil => exact remarks_pure _
  | cons a as ih => exact (h a).bind fun _ => ih

/-- A report at the place of an expression. -/
theorem remarks_spanOf_report {problem : Problem} (id : Nat) (h : problem.IsRemark) :
    Remarks (do let span ← spanOf id; report problem span) :=
  (remarks_spanOf id).bind fun span => remarks_report span h

theorem remarks_withGenerics {m : Check α} (names : List String) (hm : Remarks m) :
    Remarks (withGenerics names m) := by
  intro c
  obtain ⟨ds, hc, hds⟩ := hm { c with generics := c.generics ++ names }
  refine ⟨ds, ?_, hds⟩
  change { (m.run _).2 with generics := c.generics } = _
  rw [hc]
  rfl

/-! Types -/

theorem remarks_resolveType (reports : Bool) (r : TypeRef) : Remarks (resolveType reports r) := by
  unfold resolveType
  refine remarks_get_bind fun c => ?_
  split
  · exact remarks_pure _
  · rename_i e _
    dsimp only
    split
    · refine (remarks_report _ ?_).bind fun _ => remarks_pure _
      cases e <;> exact ⟨trivial, by simp [Diagnostic.ofTypeRefError]⟩
    · exact remarks_pure _

theorem remarks_params (reports : Bool) (ps : List Param) : Remarks (params reports ps) := by
  unfold params
  exact remarks_mapM
    (fun p : Param => (remarks_resolveType reports p.type).bind fun _ => remarks_pure _) ps

theorem remarks_optionalType (reports : Bool) (r : Option TypeRef) :
    Remarks (optionalType reports r) := by
  cases r with
  | none => exact remarks_pure _
  | some r => exact (remarks_resolveType reports r).bind fun _ => remarks_pure _

theorem remarks_signature (reports : Bool) (head : FunctionHead) :
    Remarks (signature reports head) :=
  remarks_withGenerics _ <| (remarks_params reports head.params).bind fun _ =>
    (remarks_optionalType reports head.returnType).bind fun _ => remarks_pure _

theorem remarks_fields (isPublic : Bool) (fs : List FieldDecl) : Remarks (fields isPublic fs) := by
  unfold fields
  exact remarks_mapM
    (fun f : FieldDecl => (remarks_resolveType true f.type).bind fun _ => remarks_pure _) fs

theorem remarks_cases (isPublic : Bool) (cs : List CaseDecl) : Remarks (cases isPublic cs) := by
  unfold cases
  exact remarks_mapM
    (fun c : CaseDecl => (remarks_fields isPublic c.fields).bind fun _ => remarks_pure _) cs

theorem remarks_definition (decl : DataDecl) : Remarks (definition decl) :=
  (remarks_withGenerics _ (remarks_cases _ _)).bind fun _ =>
    remarks_get_bind fun _ => remarks_pure _

/-! Whether types fit -/

theorem remarks_expectType (expected : Ty) (id : Nat) : Remarks (expectType expected id) := by
  unfold expectType
  refine (remarks_typeOf id).bind fun actual => ?_
  split
  · exact remarks_pure _
  · rename_i h
    exact remarks_spanOf_report id (Problem.isRemark_typeMismatch (Ty.ne_any_of_not_assignable h))

theorem remarks_functionResult (ret bodyType : Ty) (lastSpan span : Span) :
    Remarks (functionResult ret bodyType lastSpan span) := by
  unfold functionResult
  split
  · exact remarks_pure _
  · rename_i hret
    simp only [Bool.or_eq_true, Ty.isUnit_iff, Ty.isAny_iff, not_or] at hret
    split
    · exact remarks_report _ ⟨hret.symm, by simp⟩
    · split
      · exact remarks_pure _
      · rename_i h
        exact remarks_report _ (Problem.isRemark_typeMismatch (Ty.ne_any_of_not_assignable h))

theorem remarks_arithmetic (op : BinaryOp) (left right : Nat) :
    Remarks (arithmetic op left right) := by
  unfold arithmetic
  refine (remarks_typeOf left).bind fun l => (remarks_typeOf right).bind fun r => ?_
  split
  · exact remarks_pure _
  · split
    · exact remarks_pure _
    · rename_i hany
      simp only [Bool.or_eq_true, Ty.isAny_iff, not_or] at hany
      split
      · exact (remarks_spanOf left).bind fun s =>
          (remarks_report s (Problem.isRemark_typeMismatch ⟨by simp, hany.1⟩)).bind
            fun _ => remarks_pure _
      · split
        · exact (remarks_spanOf right).bind fun s =>
            (remarks_report s (Problem.isRemark_typeMismatch hany)).bind fun _ => remarks_pure _
        · split
          · exact remarks_pure _
          · exact remarks_pure _

/-- Types that cannot be compared are not `any`. -/
theorem ne_any_of_not_comparable {op : BinaryOp} {l r : Ty} (h : ¬ areComparable op l r = true) :
    l ≠ .any ∧ r ≠ .any := by
  unfold areComparable at h
  split at h
  · simp only [Bool.or_eq_true, not_or] at h
    exact Ty.ne_any_of_not_assignable h.1.2
  · simp only [Bool.or_eq_true, not_or] at h
    exact Ty.ne_any_of_not_assignable h.1.2
  · simp only [Bool.or_eq_true, not_or] at h
    exact ⟨Ty.ne_any_of_isAny h.1.1.1, Ty.ne_any_of_isAny h.1.1.2⟩

theorem remarks_comparison (op : BinaryOp) (left right : Nat) (span : Span) :
    Remarks (comparison op left right span) := by
  unfold comparison
  refine (remarks_typeOf left).bind fun l => (remarks_typeOf right).bind fun r => ?_
  split
  · exact remarks_pure _
  · rename_i h
    exact remarks_report _ (Problem.isRemark_typeMismatch (ne_any_of_not_comparable h))

theorem remarks_negation (operand : Nat) : Remarks (negation operand) := by
  unfold negation
  refine (remarks_typeOf operand).bind fun t => ?_
  split
  · exact remarks_pure _
  · rename_i h
    simp only [Bool.or_eq_true, Ty.isAny_iff, not_or] at h
    exact (remarks_spanOf operand).bind fun s =>
      (remarks_report s (Problem.isRemark_typeMismatch ⟨by simp, h.2⟩)).bind
        fun _ => remarks_pure _

theorem remarks_branchType (thenBranch : Nat) (elseBranch : Option Nat) (span : Span) :
    Remarks (branchType thenBranch elseBranch span) := by
  unfold branchType
  split
  · exact remarks_pure _
  · rename_i other
    refine (remarks_typeOf thenBranch).bind fun t => (remarks_typeOf other).bind fun e => ?_
    split
    · exact remarks_pure _
    · rename_i h
      have hne : t ≠ .any ∧ e ≠ .any := by
        by_cases hte : t.isAssignable e = true
        · have het : ¬ e.isAssignable t = true := by simpa [hte] using h
          exact (Ty.ne_any_of_not_assignable het).symm
        · exact Ty.ne_any_of_not_assignable hte
      have hremark : (Problem.branchMismatch t e).IsRemark := ⟨hne, by simp⟩
      exact (remarks_report _ hremark).bind fun _ => remarks_pure _

/-- Bindings that an argument leaves behind are used for the next one, also if it did not fit. -/
theorem remarks_arguments {u : Unifier} (hu : u.SparesAny) (ht : u.Tidy .outside)
    (ps : List (Ty × Nat)) : Remarks (arguments u ps) := by
  induction ps generalizing u with
  | nil => exact remarks_pure _
  | cons x rest ih =>
    obtain ⟨param, arg⟩ := x
    refine (remarks_typeOf arg).bind fun actual => ?_
    have hu' := hu.unify ht param actual
    have ht' := ht.unify param actual
    split
    · rename_i heq
      rw [heq] at hu' ht'
      exact ih hu' ht'
    · rename_i heq
      rw [heq] at hu' ht'
      refine (remarks_spanOf arg).bind fun s => ?_
      have hremark := Problem.isRemark_typeMismatch (hu.mismatch ht heq)
      exact (remarks_report s hremark).bind fun _ => ih hu' ht'

theorem remarks_signatureCall (s : Signature) (args : List Nat) (span : Span) :
    Remarks (signatureCall s args span) := by
  unfold signatureCall
  split
  · exact (remarks_arguments Unifier.sparesAny_empty (Unifier.tidy_empty _) _).bind fun _ => remarks_pure _
  · refine (remarks_report _ ?_).bind fun _ => remarks_pure _
    exact ⟨trivial, by simp⟩

theorem remarks_callType (name : String) (callee : Nat) (args : List Nat) (span : Span) :
    Remarks (callType name callee args span) := by
  unfold callType
  refine (remarks_typeOf callee).bind fun t => ?_
  split
  · exact remarks_signatureCall _ args span
  · refine (remarks_mapM remarks_typeOf args).bind fun types => ?_
    split
    · exact remarks_pure _
    · refine (remarks_report _ ?_).bind fun _ => remarks_pure _
      exact ⟨trivial, by simp⟩
  · dsimp only
    split
    · exact remarks_pure _
    · rename_i h
      refine (remarks_spanOf callee).bind fun s => (remarks_report s ?_).bind fun _ => remarks_pure _
      exact ⟨Ty.ne_any_of_isAny h, by simp⟩

end Check

end Tern
