import Tern.Token.Scan

/-!
The inside of a string token: text with escapes, and holes for expressions, written `$name` or with
the expression between braces.
-/

set_option autoImplicit false

namespace Tern.Parse

inductive Hole
  | name (name : String) (span : Span)
  | code (text : List Char) (offset : Nat)
  deriving DecidableEq, Repr

def Hole.size : Hole → Nat
  | name _ _ => 0
  | code text _ => text.length

structure Template where
  /-- Each hole with the text before it. -/
  holes : List (String × Hole)
  tail : String
  /-- Where a hole starts that has no end; the string is cut there. -/
  unclosed : Option Nat
  deriving DecidableEq, Repr

namespace Template

def unescape : Char → Char
  | 'n' => '\n'
  | 't' => '\t'
  | 'r' => '\r'
  | '0' => '\x00'
  | c => c

/-- The number of characters before the brace that closes `depth` open ones. Every brace counts,
also one inside a string. -/
def codeLength? (depth : Nat) : List Char → Option Nat
  | [] => none
  | c :: cs =>
    if c = '\x7d' ∧ depth ≤ 1 then some 0
    else
      let depth' := if c = '\x7b' then depth + 1 else if c = '\x7d' then depth - 1 else depth
      (codeLength? depth' cs).map (· + 1)

def cons (text : List Char) (hole : Hole) (t : Template) : Template :=
  { t with holes := (String.ofList text.reverse, hole) :: t.holes }

/-- Splits a text that stands at byte `pos`; `text` is what was read since the last hole, in
reverse. -/
def read (cs : List Char) (pos : Nat) (text : List Char) : Template :=
  match cs with
  | [] => ⟨[], String.ofList text.reverse, none⟩
  | c :: rest =>
    if c = '\\' then
      match rest with
      | [] => ⟨[], String.ofList ('\\' :: text).reverse, none⟩
      | e :: rest => read rest (pos + 1 + e.utf8Size) (unescape e :: text)
    else if c = '$' ∧ rest.head? = some '\x7b' then
      let code := rest.tail
      match codeLength? 1 code with
      | none => ⟨[], String.ofList text.reverse, some pos⟩
      | some n =>
        let inside := code.take n
        cons text (.code inside (pos + 2))
          (read (code.drop (n + 1)) (pos + 3 + byteLength inside) [])
    else if c = '$' ∧ rest.head?.any Piece.isNameStart then
      let name := rest.takeWhile Piece.isNamePart
      let stop := pos + 1 + byteLength name
      cons text (.name (String.ofList name) ⟨pos + 1, stop⟩)
        (read (rest.drop name.length) stop [])
    else read rest (pos + c.utf8Size) (c :: text)
termination_by cs.length
decreasing_by
  · simp only [List.length_cons]
    omega
  · simp only [List.length_drop, List.length_tail, List.length_cons]
    omega
  · simp only [List.length_drop, List.length_cons]
    omega
  · simp only [List.length_cons]
    omega

theorem size_lt_of_mem_read {cs : List Char} {pos : Nat} {text : List Char} {h : String × Hole}
    (hm : h ∈ (read cs pos text).holes) : h.2.size < cs.length := by
  fun_induction read cs pos text with
  | case1 => simp at hm
  | case2 => simp at hm
  | case3 pos text e rest ih =>
    have := ih hm
    simp only [List.length_cons]
    omega
  | case4 => simp at hm
  | case5 pos text c rest h1 h2 code n hn inside ih =>
    simp only [cons, List.mem_cons] at hm
    rcases hm with rfl | hm
    · simp only [Hole.size, inside, code, List.length_take, List.length_tail, List.length_cons]
      omega
    · have := ih hm
      simp only [code, List.length_drop, List.length_tail, List.length_cons] at this ⊢
      omega
  | case6 pos text c rest h1 h2 h3 name stop ih =>
    simp only [cons, List.mem_cons] at hm
    rcases hm with rfl | hm
    · simp [Hole.size]
    · have := ih hm
      simp only [List.length_drop, List.length_cons] at this ⊢
      omega
  | case7 pos text c rest h1 h2 h3 ih =>
    have := ih hm
    simp only [List.length_cons]
    omega

/-- The template of a string token with its quotes, at byte `pos`. -/
def ofToken (raw : String) (pos : Nat) : Template := read raw.toList.tail.dropLast (pos + 1) []

theorem size_lt_of_mem_ofToken {raw : String} {pos : Nat} {h : String × Hole}
    (hm : h ∈ (ofToken raw pos).holes) : h.2.size < raw.length := by
  have := size_lt_of_mem_read hm
  simp only [List.length_dropLast, List.length_tail, String.length_toList] at this
  omega

end Template

end Tern.Parse
