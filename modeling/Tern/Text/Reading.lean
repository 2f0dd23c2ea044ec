/-!
Reading a text from its start. What is left after a reading is shorter than the text, so that a
reader may go on with it.
-/

set_option autoImplicit false

namespace Tern.Text

/-- A value at the start of the text `cs`, and the rest of the text. -/
structure Reading (cs : List Char) (α : Type) where
  value : α
  rest : List Char
  shorter : rest.length < cs.length

namespace Reading

variable {α β : Type} {cs ds : List Char}

/-- The value is told by the first character alone. -/
def next {c : Char} (a : α) : Reading (c :: cs) α := ⟨a, cs, Nat.lt_succ_self _⟩

def map (f : α → β) (r : Reading cs α) : Reading cs β := { r with value := f r.value }

/-- What was read after some text that has been passed. -/
def after (h : ds.length ≤ cs.length) (r : Reading ds α) : Reading cs α :=
  { r with shorter := Nat.lt_of_lt_of_le r.shorter h }

def later {c : Char} (r : Reading cs α) : Reading (c :: cs) α := r.after (Nat.le_succ _)

def followedBy (r : Reading cs α) (s : Reading r.rest β) : Reading cs β :=
  s.after (Nat.le_of_lt r.shorter)

def afterDrop (n : Nat) (r : Reading (cs.drop n) α) : Reading cs α :=
  r.after (List.drop_sublist n cs).length_le

def drop (n : Nat) (r : Reading cs α) : Reading cs α :=
  { r with
    rest := r.rest.drop n
    shorter := Nat.lt_of_le_of_lt (List.drop_sublist n r.rest).length_le r.shorter }

def dropWhile (p : Char → Bool) (r : Reading cs α) : Reading cs α :=
  { r with
    rest := r.rest.dropWhile p
    shorter := Nat.lt_of_le_of_lt (List.dropWhile_sublist p).length_le r.shorter }

end Reading

def isDigit (c : Char) : Bool := '0' ≤ c && c ≤ '9'

def hexValue? (c : Char) : Option Nat :=
  if isDigit c then some (c.toNat - 48)
  else if 'a' ≤ c && c ≤ 'f' then some (c.toNat - 87)
  else if 'A' ≤ c && c ≤ 'F' then some (c.toNat - 55)
  else none

end Tern.Text
