import Tern.Ty

/-!
Equality of types, asked from either side. Main statement: `a.equals true b` is `b == a`, so that two
sets of signatures are equal exactly when they have as many members and every member of the first
is met by one of the second.
-/

set_option autoImplicit false

namespace Tern

theorem Signature.isMet_eq_any (ss : List Signature) (t : Signature) :
    Signature.isMet ss t = ss.any fun s => s.equals false t := by
  induction ss with
  | nil => simp [Signature.isMet]
  | cons s ss ih => simp [Signature.isMet, ih]

theorem Signature.areMet_eq_all (ss ts : List Signature) :
    Signature.areMet ss ts = ss.all fun s => ts.any fun t => s.equals true t := by
  induction ss with
  | nil => simp [Signature.areMet]
  | cons s ss ih => simp [Signature.areMet, ih]

mutual
/-- Turning the question round asks the other type. -/
theorem Ty.equals_turned (a b : Ty) :
    a.equals true b = b.equals false a ∧ a.equals false b = b.equals true a := by
  cases a with
  | primitive p => cases b <;> simp [Ty.equals, Bool.beq_comm]
  | function s =>
    cases b with
    | function t => simpa [Ty.equals] using Signature.equals_turned s t
    | _ => simp [Ty.equals]
  | overloaded ss =>
    cases b with
    | overloaded ts =>
      have h := Signature.members_turned ss
      rw [Ty.equals, Ty.equals, Ty.equals, Ty.equals, Bool.beq_comm (a := ss.length)]
      simp only [if_true, Bool.false_eq_true, if_false, Signature.areMet_eq_all]
      constructor
      · congr 2
        funext t
        rw [Signature.isMet_eq_any, Bool.eq_iff_iff, List.any_eq_true, List.any_eq_true]
        exact exists_congr fun s => and_congr_right fun hs => by rw [(h s hs t).2]
      · congr 1
        rw [Bool.eq_iff_iff, List.all_eq_true, List.all_eq_true]
        refine forall_congr' fun s => forall_congr' fun hs => ?_
        rw [Signature.isMet_eq_any, List.any_eq_true, List.any_eq_true]
        exact exists_congr fun t => and_congr_right fun _ => by rw [(h s hs t).1]
    | _ => simp [Ty.equals]
  | param x => cases b <;> simp [Ty.equals, Bool.beq_comm]
  | variant h as =>
    cases b with
    | variant k bs =>
      have hs := Ty.allEqual_turned as bs
      simp [Ty.equals, hs.1, hs.2, Bool.beq_comm]
    | _ => simp [Ty.equals]
  | array x =>
    cases b with
    | array y => simpa [Ty.equals] using Ty.equals_turned x y
    | _ => simp [Ty.equals]
theorem Ty.allEqual_turned (as bs : List Ty) :
    Ty.allEqual true as bs = Ty.allEqual false bs as ∧
      Ty.allEqual false as bs = Ty.allEqual true bs as := by
  cases as with
  | nil => cases bs <;> simp [Ty.allEqual]
  | cons a as =>
    cases bs with
    | nil => simp [Ty.allEqual]
    | cons b bs =>
      have h := Ty.equals_turned a b
      have hs := Ty.allEqual_turned as bs
      simp [Ty.allEqual, h.1, h.2, hs.1, hs.2]
theorem Signature.equals_turned (s t : Signature) :
    s.equals true t = t.equals false s ∧ s.equals false t = t.equals true s := by
  cases s with
  | mk ps r =>
    cases t with
    | mk qs q =>
      have hs := Ty.allEqual_turned ps qs
      have h := Ty.equals_turned r q
      simp [Signature.equals, h.1, h.2, hs.1, hs.2]
theorem Signature.members_turned (ss : List Signature) (s : Signature) (h : s ∈ ss)
    (t : Signature) :
    s.equals true t = t.equals false s ∧ s.equals false t = t.equals true s := by
  cases ss with
  | nil => simp at h
  | cons u us =>
    rcases List.mem_cons.1 h with rfl | h
    · exact Signature.equals_turned s t
    · exact Signature.members_turned us s h t
end

theorem Ty.equals_true (a b : Ty) : a.equals true b = (b == a) := (Ty.equals_turned a b).1

theorem Signature.equals_true (s t : Signature) : s.equals true t = (t == s) :=
  (Signature.equals_turned s t).1

/-- Members are looked for in the second set, and each of them is asked whether it is the one. -/
theorem Ty.overloaded_beq_overloaded (ss ts : List Signature) :
    (Ty.overloaded ss == Ty.overloaded ts) =
      (ss.length == ts.length && ss.all fun s => ts.any fun t => t == s) := by
  change Ty.equals false (.overloaded ss) (.overloaded ts) = _
  rw [Ty.equals, if_neg Bool.false_ne_true, Signature.areMet_eq_all]
  simp only [Signature.equals_true]

end Tern
