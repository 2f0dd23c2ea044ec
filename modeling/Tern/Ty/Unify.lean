import Tern.Ty.Substitution

/-!
Unification of an expected type with a found one. Parameters are bound to types on the way; a
parameter that is bound already stands for its type. A variant narrowed to a case fits its whole
type in both directions, and `any` fits everything.
-/

set_option autoImplicit false

namespace Tern

inductive UnifyError
  | mismatch (expected found : Ty)
  | occurs (param : String) (type : Ty)

def UnifyError.message : UnifyError → String
  | mismatch expected found =>
    "type mismatch: expected " ++ expected.text ++ ", found " ++ found.text
  | occurs param type => "occurs check failed: " ++ param ++ " occurs in " ++ type.text

structure Unifier where
  bindings : Bindings := []

namespace Unifier

/-- Substitutes until nothing changes, at most `n` times. -/
def settle (bindings : Bindings) : Nat → Ty → Ty
  | 0, t => t
  | n + 1, t =>
    let next := t.substitute bindings
    if next == t then t else settle bindings n next

/-- Substitutes every binding; one may refer to parameters that are bound by others. -/
def apply (u : Unifier) (t : Ty) : Ty :=
  settle u.bindings u.bindings.length (t.substitute u.bindings)

/-- Bindings after an attempt, and why it failed if it did. Bindings made before a failure stay. -/
abbrev Attempt := Unifier × Option UnifyError

abbrev Rule := Unifier → Ty → Ty → Attempt

def fits (u : Unifier) : Attempt := (u, none)

def fails (u : Unifier) (e : UnifyError) : Attempt := (u, some e)

def bind (u : Unifier) (name : String) (t : Ty) : Attempt :=
  let settled := u.apply t
  if settled.mentions name then u.fails (.occurs name settled)
  else fits { u with bindings := u.bindings ++ [(name, settled)] }

theorem bind_cases (u : Unifier) (x : String) (t : Ty) :
    ((u.apply t).mentions x = true ∧ u.bind x t = u.fails (.occurs x (u.apply t))) ∨
      ((u.apply t).mentions x = false ∧
        u.bind x t = fits { u with bindings := u.bindings ++ [(x, u.apply t)] }) := by
  unfold bind
  cases h : (u.apply t).mentions x with
  | true => exact Or.inl ⟨rfl, by simp [h]⟩
  | false => exact Or.inr ⟨rfl, by simp [h]⟩

theorem lookup_bind {u : Unifier} {x y : String} {t s : Ty}
    (h : (u.bind x t).1.bindings.lookup y = some s) :
    u.bindings.lookup y = some s ∨ y = x ∧ s = u.apply t := by
  rcases u.bind_cases x t with ⟨_, heq⟩ | ⟨_, heq⟩
  · rw [heq] at h
    exact Or.inl h
  · -- the new binding is asked for last
    rw [heq, fits, List.lookup_append, Option.or_eq_some_iff] at h
    rcases h with h | ⟨_, h⟩
    · exact Or.inl h
    · rw [List.lookup_cons] at h
      split at h
      · rename_i hx
        exact Or.inr ⟨eq_of_beq hx, (Option.some.inj h).symm⟩
      · cases h

/-- Unifies a parameter on the left with a type; `follow` takes its place if it is bound. -/
def bindLeft (follow : Rule) (u : Unifier) (name : String) (found : Ty) : Attempt :=
  match u.bindings.lookup name with
  | some bound => follow u bound found
  | none => u.bind name found

/-- What a type stands for when bound parameters are followed, at most `n` of them. -/
def behind (u : Unifier) : Nat → Ty → Ty
  | n + 1, .param name =>
    match u.bindings.lookup name with
    | some bound => u.behind n bound
    | none => .param name
  | _, t => t

/-- The right side, once the left one is no parameter. A parameter that is bound to a parameter is
bound to a later one, so that there are no more to follow than there are bindings. -/
def met (u : Unifier) : Ty → Ty → Ty
  | .param _, found => found
  | _, found => u.behind u.bindings.length found

/-- The first member that fits, each tried from the same bindings. -/
def firstFit (u : Unifier) (attempt : Signature → Attempt) : List Signature → Option Unifier
  | [] => none
  | s :: ss =>
    match attempt s with
    | (u', none) => some u'
    | (_, some _) => firstFit u attempt ss

/-- Two references to variant types fit as far as their arguments do. -/
def HeadsFit (h k : VariantHead) : Prop :=
  h.SameDefinition k ∧ (h.case = none ∨ k.case = none ∨ h.case = k.case)

instance (h k : VariantHead) : Decidable (HeadsFit h k) := inferInstanceAs (Decidable (_ ∧ _))

mutual
/-- Unifies along the structure of both types; `follow` goes on behind a bound parameter on the
left. -/
def descend (follow : Rule) : Ty → Unifier → Ty → Attempt
  | expected, u, found =>
    let found := u.met expected found
    if expected == found || expected.isAny || found.isAny then u.fits
    else
      match expected, found with
      | .param name, found => bindLeft follow u name found
      | expected, .param name => u.bind name expected
      | .function s, .function t => descendSignature follow s u t
      | .function s, .overloaded ts =>
        match firstFit u (fun t => descendSignature follow s u t) ts with
        | some u' => u'.fits
        | none => u.fails (.mismatch (.function s) (.overloaded ts))
      | .array a, .array b => descend follow a u b
      | .variant h as, .variant k bs =>
        if HeadsFit h k ∧ as.length = bs.length then descendAll follow as u bs
        else u.fails (.mismatch (.variant h as) (.variant k bs))
      | expected, found => u.fails (.mismatch expected found)
def descendAll (follow : Rule) : List Ty → Unifier → List Ty → Attempt
  | a :: as, u, b :: bs =>
    match descend follow a u b with
    | (u', none) => descendAll follow as u' bs
    | failed => failed
  | _, u, _ => u.fits
def descendSignature (follow : Rule) : Signature → Unifier → Signature → Attempt
  | .mk ps r, u, .mk qs q =>
    if ps.length = qs.length then
      match descendAll follow ps u qs with
      | (u', none) => descend follow r u' q
      | failed => failed
    else u.fails (.mismatch (.function (.mk ps r)) (.function (.mk qs q)))
end

/-- Unifies, going behind bound parameters on the left at most `n` times on the way to any part. -/
def unifyWithin : Nat → Rule
  | 0, u, expected, found =>
    descend (fun u expected found => u.fails (.mismatch expected found)) expected u found
  | n + 1, u, expected, found => descend (unifyWithin n) expected u found

/-- How often unification can go behind a bound parameter on the left. What stands behind a parameter
mentions, outside of sets, only parameters that were bound later; a set on the left is not entered,
so each name is passed at most once, and no more names can be bound than occur. -/
def depthBound (u : Unifier) (expected found : Ty) : Nat :=
  u.bindings.length + Ty.paramCounts (u.bindings.map (·.2)) + expected.paramCount + found.paramCount

def unify (u : Unifier) (expected found : Ty) : Attempt :=
  unifyWithin (u.depthBound expected found) u expected found

end Unifier

/-- A value of type `found` may stand where `expected` is required. -/
def Ty.isAssignable (expected found : Ty) : Bool := (Unifier.unify {} expected found).2.isNone

end Tern
