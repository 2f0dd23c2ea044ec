import Tern.Ty.Unify
import Tern.Proofs.Ty.Renaming

/-!
Unification under other names. Every step asks of a parameter only which one it is, so unifying
renamed types from renamed bindings ends as it does with the old names, in the same bindings and
with the same error, renamed. This holds of the calls that are cut off as well, since the bound on
the way counts parameters and asks for no name.
-/

set_option autoImplicit false

namespace Tern

def UnifyError.rename (π : String → String) : UnifyError → UnifyError
  | mismatch expected found => mismatch (expected.rename π) (found.rename π)
  | occurs param type => occurs (π param) (type.rename π)

namespace Unifier

def rename (π : String → String) (u : Unifier) : Unifier := ⟨u.bindings.rename π⟩

def Attempt.rename (π : String → String) (r : Attempt) : Attempt :=
  (r.1.rename π, r.2.map (UnifyError.rename π))

/-- The rule does the same under the new names. -/
def Rule.Alike (π : String → String) (rule : Rule) : Prop :=
  ∀ u expected found, rule (u.rename π) (expected.rename π) (found.rename π) =
    (rule u expected found).rename π

section

variable {π : String → String}

theorem fails_rename (u : Unifier) (e : UnifyError) :
    (u.rename π).fails (e.rename π) = Attempt.rename π (u.fails e) := rfl

theorem length_rename (u : Unifier) : (u.rename π).bindings.length = u.bindings.length :=
  List.length_map _

theorem settle_rename (hπ : π.Injective) (b : Bindings) (n : Nat) (t : Ty) :
    settle (b.rename π) n (t.rename π) = (settle b n t).rename π := by
  induction n generalizing t with
  | zero => rfl
  | succ n ih =>
    rw [settle, settle, Ty.substitute_rename hπ, Ty.beq_rename hπ, ih]
    split
    · rfl
    · rfl

theorem apply_rename (hπ : π.Injective) (u : Unifier) (t : Ty) :
    (u.rename π).apply (t.rename π) = (u.apply t).rename π := by
  rw [apply, length_rename, rename, Ty.substitute_rename hπ, settle_rename hπ, apply]

theorem bind_rename (hπ : π.Injective) (u : Unifier) (x : String) (t : Ty) :
    (u.rename π).bind (π x) (t.rename π) = Attempt.rename π (u.bind x t) := by
  rw [bind, bind, apply_rename hπ, Ty.mentions_rename hπ]
  split
  · exact fails_rename u (.occurs x (u.apply t))
  · rw [Attempt.rename, fits, fits, rename, rename, Bindings.rename, Bindings.rename,
      List.map_append, List.map_singleton, Option.map_none]

theorem bindLeft_rename (hπ : π.Injective) {follow : Rule} (hf : follow.Alike π) (u : Unifier)
    (x : String) (found : Ty) :
    bindLeft follow (u.rename π) (π x) (found.rename π) =
      Attempt.rename π (bindLeft follow u x found) := by
  rw [bindLeft, bindLeft, rename, Bindings.lookup_rename hπ, ← rename]
  cases u.bindings.lookup x with
  | none => exact bind_rename hπ u x found
  | some bound => exact hf u bound found

theorem behind_rename (hπ : π.Injective) (u : Unifier) (n : Nat) (t : Ty) :
    (u.rename π).behind n (t.rename π) = (u.behind n t).rename π := by
  induction n generalizing t with
  | zero => rfl
  | succ n ih =>
    cases t with
    | param x =>
      rw [Ty.rename, behind, behind, rename, Bindings.lookup_rename hπ, ← rename]
      cases u.bindings.lookup x with
      | none => rfl
      | some bound => exact ih bound
    | _ => rfl

theorem met_rename (hπ : π.Injective) (u : Unifier) (expected found : Ty) :
    (u.rename π).met (expected.rename π) (found.rename π) = (u.met expected found).rename π := by
  have hbehind : (u.rename π).behind (u.rename π).bindings.length (found.rename π) =
      (u.behind u.bindings.length found).rename π := by
    rw [length_rename, behind_rename hπ]
  cases expected with
  | param x => rfl
  | _ => exact hbehind

theorem firstFit_rename (u : Unifier) (ss : List Signature) {attempt attempt' : Signature → Attempt}
    (h : ∀ s, attempt' (s.rename π) = Attempt.rename π (attempt s)) :
    firstFit (u.rename π) attempt' (Signature.renameAll π ss) =
      (firstFit u attempt ss).map (rename π) := by
  induction ss with
  | nil => rfl
  | cons s ss ih =>
    rw [Signature.renameAll, firstFit, firstFit, h, ih]
    rcases attempt s with ⟨u', _ | e⟩
    · rfl
    · rfl

mutual
theorem descend_rename (hπ : π.Injective) {follow : Rule} (hf : follow.Alike π) (expected : Ty)
    (u : Unifier) (found : Ty) :
    descend follow (expected.rename π) (u.rename π) (found.rename π) =
      Attempt.rename π (descend follow expected u found) := by
  rw [descend.eq_def, descend.eq_def follow expected]
  dsimp only
  rw [met_rename hπ]
  generalize u.met expected found = found
  rw [Ty.beq_rename hπ, Ty.isAny_rename, Ty.isAny_rename]
  split
  · rfl
  · cases expected with
    | param x => exact bindLeft_rename hπ hf u x found
    | primitive p =>
      cases found with
      | param x => exact bind_rename hπ u x (.primitive p)
      | _ => rfl
    | function s =>
      cases found with
      | param x => exact bind_rename hπ u x (.function s)
      | function t => exact descendSignature_rename hπ hf s u t
      | overloaded ts =>
        simp only [Ty.rename]
        rw [firstFit_rename u ts (descendSignature_rename hπ hf s u)]
        cases firstFit u (fun t => descendSignature follow s u t) ts with
        | none => exact fails_rename u (.mismatch (.function s) (.overloaded ts))
        | some u' => rfl
      | _ => rfl
    | overloaded ss =>
      cases found with
      | param x => exact bind_rename hπ u x (.overloaded ss)
      | _ => rfl
    | variant h as =>
      cases found with
      | param x => exact bind_rename hπ u x (.variant h as)
      | variant k bs =>
        simp only [Ty.rename, Ty.length_renameAll]
        split
        · exact descendAll_rename hπ hf as u bs
        · rfl
      | _ => rfl
    | array a =>
      cases found with
      | param x => exact bind_rename hπ u x (.array a)
      | array b => exact descend_rename hπ hf a u b
      | _ => rfl
theorem descendAll_rename (hπ : π.Injective) {follow : Rule} (hf : follow.Alike π)
    (as : List Ty) (u : Unifier) (bs : List Ty) :
    descendAll follow (Ty.renameAll π as) (u.rename π) (Ty.renameAll π bs) =
      Attempt.rename π (descendAll follow as u bs) := by
  cases as with
  | nil => rfl
  | cons a as =>
    cases bs with
    | nil => rfl
    | cons b bs =>
      rw [Ty.renameAll, Ty.renameAll, descendAll, descendAll, descend_rename hπ hf a u b]
      rcases descend follow a u b with ⟨u', _ | e⟩
      · exact descendAll_rename hπ hf as u' bs
      · rfl
theorem descendSignature_rename (hπ : π.Injective) {follow : Rule} (hf : follow.Alike π)
    (s : Signature) (u : Unifier) (t : Signature) :
    descendSignature follow (s.rename π) (u.rename π) (t.rename π) =
      Attempt.rename π (descendSignature follow s u t) := by
  cases s with
  | mk ps r =>
    cases t with
    | mk qs q =>
      rw [Signature.rename, Signature.rename, descendSignature, descendSignature,
        Ty.length_renameAll, Ty.length_renameAll]
      split
      · rw [descendAll_rename hπ hf ps u qs]
        rcases descendAll follow ps u qs with ⟨u', _ | e⟩
        · exact descend_rename hπ hf r u' q
        · rfl
      · rfl
end

theorem alike_unifyWithin (hπ : π.Injective) (n : Nat) : (unifyWithin n).Alike π := by
  induction n with
  | zero =>
    intro u expected found
    exact descend_rename hπ (fun u e f => fails_rename u (.mismatch e f)) expected u found
  | succ n ih =>
    intro u expected found
    exact descend_rename hπ ih expected u found

theorem depthBound_rename (u : Unifier) (expected found : Ty) :
    (u.rename π).depthBound (expected.rename π) (found.rename π) = u.depthBound expected found := by
  have htypes : (u.rename π).bindings.map (·.2) = (u.bindings.map (·.2)).map (Ty.rename π) := by
    rw [rename, Bindings.rename, List.map_map, List.map_map]
    rfl
  rw [depthBound, depthBound, htypes, Ty.paramCounts_rename, Ty.paramCount_rename,
    Ty.paramCount_rename, length_rename]

theorem unify_rename (hπ : π.Injective) (u : Unifier) (expected found : Ty) :
    (u.rename π).unify (expected.rename π) (found.rename π) =
      Attempt.rename π (u.unify expected found) := by
  rw [unify, depthBound_rename, alike_unifyWithin hπ, unify]

end

end Unifier

end Tern
