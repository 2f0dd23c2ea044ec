import Tern.Ty.Equality
import Tern.Ty.Overload
import Tern.Ty.Resolve
import Tern.Ty.Unify

/-!
Types that are compared with themselves: every type equals itself and may stand for itself, and a
function that is declared twice leaves the type of its name as it was.
-/

set_option autoImplicit false

namespace Tern

mutual

theorem Ty.equals_self (turned : Bool) (t : Ty) : t.equals turned t = true := by
  cases t with
  | primitive p => simp [Ty.equals]
  | function s => simpa only [Ty.equals] using Signature.equals_self turned s
  | overloaded ss =>
    have hmem := Signature.members_equals_self ss
    rw [Ty.equals]
    simp only [beq_self_eq_true, Bool.true_and]
    split
    · simp only [List.all_eq_true, Signature.isMet_eq_any, List.any_eq_true]
      exact fun s hs => ⟨s, hs, hmem s hs false⟩
    · simp only [Signature.areMet_eq_all, List.all_eq_true, List.any_eq_true]
      exact fun s hs => ⟨s, hs, hmem s hs true⟩
  | param name => simp [Ty.equals]
  | variant head args => simp [Ty.equals, Ty.allEqual_self turned args]
  | array element => simpa only [Ty.equals] using Ty.equals_self turned element

theorem Ty.allEqual_self (turned : Bool) (ts : List Ty) : Ty.allEqual turned ts ts = true := by
  cases ts with
  | nil => simp [Ty.allEqual]
  | cons t ts => simp [Ty.allEqual, Ty.equals_self turned t, Ty.allEqual_self turned ts]

theorem Signature.equals_self (turned : Bool) (s : Signature) : s.equals turned s = true := by
  cases s with
  | mk ps r => simp [Signature.equals, Ty.allEqual_self turned ps, Ty.equals_self turned r]

theorem Signature.members_equals_self (ss : List Signature) (s : Signature) (h : s ∈ ss)
    (turned : Bool) : s.equals turned s = true := by
  cases ss with
  | nil => simp at h
  | cons t ts =>
    rcases List.mem_cons.mp h with h | h
    · exact h ▸ Signature.equals_self turned t
    · exact Signature.members_equals_self ts s h turned

end

instance : ReflBEq Ty := ⟨Ty.equals_self false _⟩

theorem Overload.insert_insert (s : Signature) (set : List Signature) :
    insert s (insert s set) = insert s set := by
  induction set with
  | nil => simp [insert]
  | cons t ts ih => by_cases h : t.params == s.params <;> simp [insert, h, ih]

/-- A function that is declared again and again stays as it was declared first. -/
theorem Ty.redeclare_redeclare (t : Ty) (s : Signature) :
    (t.redeclare (.function s)).redeclare (.function s) = t.redeclare (.function s) := by
  cases t with
  | function old =>
    by_cases h : old.params == s.params
    · simp [redeclare, h]
    · simp [redeclare, h, Overload.ofList, Overload.extend, Overload.insert_insert]
  | overloaded set => simp [redeclare, Overload.insert_insert]
  | _ => simp [redeclare]

namespace Unifier

theorem behind_eq_self {t : Ty} (ht : ∀ x, t ≠ .param x) (u : Unifier) (n : Nat) :
    u.behind n t = t := by
  cases t with
  | param x => exact absurd rfl (ht x)
  | _ => cases n <;> rfl

theorem met_eq_self {found : Ty} (hfound : ∀ x, found ≠ .param x) (u : Unifier) (expected : Ty) :
    u.met expected found = found := by
  cases expected with
  | param x => rfl
  | _ => exact u.behind_eq_self hfound _

/-- Types that fit still fit when a parameter on the right is followed: the left one is the same
parameter then, which follows nothing, or `any`. -/
theorem fits_met (u : Unifier) {expected found : Ty}
    (h : (expected == found || expected.isAny || found.isAny) = true) :
    (expected == u.met expected found || expected.isAny || (u.met expected found).isAny) = true := by
  cases found with
  | param x =>
    cases expected with
    | param y => exact h
    | primitive p =>
      have hany : (Ty.primitive p).isAny = true := by
        rw [show (Ty.primitive p == Ty.param x) = false from rfl, Bool.false_or] at h
        exact (Bool.or_false _).symm.trans h
      rw [hany, Bool.or_true, Bool.true_or]
    | _ => cases h
  | _ => rwa [u.met_eq_self (by simp)]

theorem descend_of_fits (follow : Rule) (u : Unifier) {expected found : Ty}
    (h : (expected == found || expected.isAny || found.isAny) = true) :
    descend follow expected u found = u.fits := by
  rw [descend.eq_def]
  dsimp only
  rw [if_pos (u.fits_met h)]

theorem unify_of_fits (u : Unifier) {expected found : Ty}
    (h : (expected == found || expected.isAny || found.isAny) = true) :
    u.unify expected found = u.fits := by
  unfold unify
  cases u.depthBound expected found with
  | zero => exact descend_of_fits _ u h
  | succ n => exact descend_of_fits _ u h

end Unifier

namespace Ty

theorem isAssignable_of_fits {expected found : Ty}
    (h : (expected == found || expected.isAny || found.isAny) = true) :
    expected.isAssignable found := by
  rw [isAssignable, Unifier.unify_of_fits {} h]
  rfl

theorem isAssignable_self (t : Ty) : t.isAssignable t := isAssignable_of_fits (by simp)

theorem isAssignable_of_isAny {expected : Ty} (h : expected.isAny) (found : Ty) :
    expected.isAssignable found := isAssignable_of_fits (by simp [h])

end Ty

end Tern
