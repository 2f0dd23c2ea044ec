import Tern.Diagnostic
import Tern.Proofs.Unifier.Settled

/-!
Which types a report blames. What failed has the type `any`, which fits everything, so no report
should name it: this holds as long as nothing that is looked at is `any`. A parameter is never bound
to `any` either, so the type that stands for a parameter in a report is not `any`.
-/

set_option autoImplicit false

namespace Tern

/-- The report is not about a value that failed already, and no result is missed where none is
needed. -/
def Problem.SparesAny : Problem → Prop
  | typeMismatch expected actual => expected ≠ .any ∧ actual ≠ .any
  | branchMismatch thenType elseType => thenType ≠ .any ∧ elseType ≠ .any
  | notAFunction _ type | notIndexable type | unknownMember type _ => type ≠ .any
  | missingReturnValue expected => expected ≠ .any ∧ expected ≠ .unit
  | _ => True

namespace Ty

theorem isAny_iff {t : Ty} : t.isAny = true ↔ t = .any := by
  unfold isAny
  split <;> simp_all

theorem isUnit_iff {t : Ty} : t.isUnit = true ↔ t = .unit := by
  unfold isUnit
  split <;> simp_all

theorem ne_any_of_isAny {t : Ty} (h : ¬ t.isAny = true) : t ≠ .any := fun ht => h (isAny_iff.mpr ht)

theorem ne_any_of_not_assignable {expected found : Ty} (h : ¬ expected.isAssignable found = true) :
    expected ≠ .any ∧ found ≠ .any := by
  constructor
  · rintro rfl
    exact h (isAssignable_of_fits (by simp [isAny]))
  · rintro rfl
    exact h (isAssignable_of_fits (by simp [isAny]))

end Ty

/-! Bindings -/

/-- No parameter stands for `any`. -/
def Unifier.SparesAny (u : Unifier) : Prop := ∀ name t, u.bindings.lookup name = some t → t ≠ .any

namespace Unifier

variable {u : Unifier}

theorem sparesAny_empty : SparesAny {} := by simp [SparesAny]

theorem SparesAny.replace (hu : u.SparesAny) {t : Ty} (ht : t ≠ .any) :
    t.replace u.bindings ≠ .any := by
  cases t with
  | primitive p => simpa only [Ty.replace] using ht
  | param name =>
    rw [Ty.replace]
    cases h : u.bindings.lookup name with
    | none => simp
    | some bound => exact hu name bound h
  | _ => simp [Ty.replace]

theorem SparesAny.substitute (hu : u.SparesAny) {t : Ty} (ht : t ≠ .any) :
    t.substitute u.bindings ≠ .any := by
  unfold Ty.substitute
  split
  · exact ht
  · exact hu.replace ht

theorem SparesAny.apply (hu : u.SparesAny) {t : Ty} (ht : t ≠ .any) : u.apply t ≠ .any :=
  apply_of_substitute (P := (· ≠ .any)) (fun _ => hu.substitute) (hu.substitute ht)

theorem SparesAny.bind (hu : u.SparesAny) (name : String) {t : Ty} (ht : t ≠ .any) :
    (u.bind name t).1.SparesAny := by
  intro x bound hx
  rcases lookup_bind hx with hx | ⟨_, rfl⟩
  · exact hu x bound hx
  · exact hu.apply ht

/-- Whether or not it fails, a call binds no parameter to `any`. -/
theorem SparesAny.unify (hu : u.SparesAny) (ht : u.Tidy .outside) (expected found : Ty) :
    (u.unify expected found).1.SparesAny :=
  (ht.run_unify expected found).keeps_always
    (fun _ x _ hu hany _ => hu.bind x (Ty.ne_any_of_isAny hany)) hu

theorem ne_any_of_unify {expected found : Ty} {u' : Unifier} {e : UnifyError}
    (h : u.unify expected found = (u', some e)) : expected ≠ .any ∧ found ≠ .any := by
  constructor
  · rintro rfl
    have hfits : u.unify .any found = u.fits := u.unify_of_fits (by simp [Ty.isAny])
    simp [hfits, fits] at h
  · rintro rfl
    have hfits : u.unify expected .any = u.fits := u.unify_of_fits (by simp [Ty.isAny])
    simp [hfits, fits] at h

/-- The type that a failed argument is reported against is not `any`. -/
theorem SparesAny.mismatch (hu : u.SparesAny) (ht : u.Tidy .outside) {expected found : Ty}
    {u' : Unifier} {e : UnifyError} (h : u.unify expected found = (u', some e)) :
    u'.apply expected ≠ .any ∧ found ≠ .any := by
  have hu' := hu.unify ht expected found
  rw [h] at hu'
  obtain ⟨hexpected, hfound⟩ := ne_any_of_unify h
  exact ⟨hu'.apply hexpected, hfound⟩

end Unifier

end Tern
