/-!
Lists whose entries are known by a name. An entry keeps the place where it was first put.
-/

set_option autoImplicit false

namespace Tern.Table

variable {α : Type}

/-- The entry with the given name. -/
def find? (key : α → String) (name : String) (entries : List α) : Option α :=
  entries.find? fun x => key x == name

/-- Changes the entry with the given name, or adds one at the end. -/
def put (key : α → String) (name : String) (change : Option α → α) : List α → List α
  | [] => [change none]
  | x :: xs => if key x == name then change (some x) :: xs else x :: put key name change xs

/-- Both lists have the same entries, in whatever order. -/
def same (key : α → String) (eq : α → α → Bool) (a b : List α) : Bool :=
  a.length == b.length && a.all fun x => (find? key (key x) b).any (eq x)

@[simp] theorem find?_nil (key : α → String) (name : String) : find? key name [] = none := rfl

/-! A change has to keep the name of the entry. -/

theorem find?_put_self (key : α → String) (name : String) (change : Option α → α) (xs : List α)
    (h : ∀ x?, (∀ x ∈ x?, key x = name) → key (change x?) = name) :
    find? key name (put key name change xs) = some (change (find? key name xs)) := by
  induction xs with
  | nil => simp [put, find?, h none]
  | cons x xs ih =>
    by_cases hx : key x = name
    · simp [put, find?, hx, h (some x)]
    · simpa [put, find?, hx] using ih

theorem find?_put_of_ne (key : α → String) {name other : String} (change : Option α → α)
    (xs : List α) (h : ∀ x?, (∀ x ∈ x?, key x = name) → key (change x?) = name)
    (hne : other ≠ name) :
    find? key other (put key name change xs) = find? key other xs := by
  induction xs with
  | nil => simp [put, find?, h none, Ne.symm hne]
  | cons x xs ih =>
    by_cases hx : key x = name
    · simp [put, find?, hx, h (some x), Ne.symm hne]
    · by_cases ho : key x = other
      · simp [put, find?, ho, hne]
      · simpa [put, find?, hx, ho] using ih

end Tern.Table
