import Mathlib.Data.List.TakeWhile
import Tern.Proofs.Parse.OneLine

/-!
How binary operators group. Operands with operators between them, written on one line, are read as one
expression. Read from left to right it gives back the operands and the operators, and each operator has
those that bind more tightly inside, and those that bind as tightly on its left.
-/

set_option autoImplicit false

namespace Tern

/-! Operators and operands in a row -/

/-- The level of an operator; the higher it is, the more tightly the operator binds. -/
def BinaryOp.level : BinaryOp → Nat
  | or => 0
  | and => 1
  | eq | notEq => 2
  | lt | ltEq | gt | gtEq => 3
  | add | sub => 4
  | mul | div | rem => 5

def BinaryOp.mark : BinaryOp → Mark
  | add => .plus
  | sub => .minus
  | mul => .star
  | div => .slash
  | rem => .percent
  | eq => .equalEqual
  | notEq => .notEqual
  | lt => .less
  | ltEq => .lessEqual
  | gt => .greater
  | gtEq => .greaterEqual
  | and => .andAnd
  | or => .orOr

/-- The text is an integer with or without underscores. -/
def Piece.isInteger (x : String) : Bool :=
  x.toList.head?.any isDigit && x.toList.all isNumberPart

inductive Operand
  | integer (text : String)
  | name (name : String)

namespace Operand

def text : Operand → String
  | integer text => text
  | name x => x

def token : Operand → Token
  | integer text => .integer text
  | name x => .identifier x

/-- The operand is an integer that is not too large, or a word. -/
def Written : Operand → Prop
  | integer text => Piece.isInteger text = true ∧ (Parse.integerOf? text).isSome
  | name x => Piece.isName x = true

end Operand

/-- Operands with operators between them. -/
structure Chain where
  first : Operand
  rest : List (BinaryOp × Operand)

namespace Chain

def linkText : BinaryOp × Operand → String
  | (op, operand) => " " ++ op.text ++ " " ++ operand.text

/-- The chain on one line, with a blank on both sides of each operator. -/
def text (c : Chain) : String := c.first.text ++ String.join (c.rest.map linkText)

structure Written (c : Chain) : Prop where
  first : c.first.Written
  rest : ∀ x ∈ c.rest, x.2.Written

end Chain

namespace Node

/-- Read from left to right, the expression is the operand and what follows it. -/
inductive InOrder : Node → Operand → List (BinaryOp × Operand) → Prop
  | integer {text : String} {n : Int} (span : Span) (value : Parse.integerOf? text = some n) :
    InOrder (.literal (.int n) span) (.integer text) []
  | unit (span : Span) : InOrder (.literal .unit span) (.name "unit") []
  | name {x : String} (span : Span) (h : x ≠ "unit") : InOrder (.name x span) (.name x) []
  | binary {op : BinaryOp} {l r : Node} {a b : Operand} {before after : List (BinaryOp × Operand)}
    (span : Span) (left : InOrder l a before) (right : InOrder r b after) :
    InOrder (.binary op l r span) a (before ++ (op, b) :: after)

def operator? : Node → Option BinaryOp
  | binary op _ _ _ => some op
  | _ => none

/-- In every binary node the operator on the left binds at least as tightly, and the one on the right
more tightly. -/
inductive Grouped : Node → Prop
  | operand {n : Node} (h : n.operator? = none) : Grouped n
  | binary {op : BinaryOp} {l r : Node} (span : Span) (left : ∀ o ∈ l.operator?, op.level ≤ o.level)
    (right : ∀ o ∈ r.operator?, op.level < o.level) (hl : Grouped l) (hr : Grouped r) :
    Grouped (.binary op l r span)

end Node

/-! The tokens of a chain -/

namespace Piece

/-- A number does not go on here. -/
def NumberEnds (cs : List Char) : Prop := ∀ c ∈ cs.head?, isNumberPart c = false ∧ c ≠ '.'

theorem numberLength_ends {cs rest : List Char} (hparts : ∀ d ∈ cs, isNumberPart d = true)
    (hrest : NumberEnds rest) : numberLength (cs ++ rest) = (false, cs.length) := by
  have hwhole := length_takeWhile_append hparts fun c hc => (hrest c hc).1
  rw [numberLength, hwhole, List.drop_left]
  split
  · exact absurd rfl (hrest '.' rfl).2
  · rfl

/-- The token of a number with or without a fraction. -/
def numberToken (hasFraction : Bool) (x : String) : Token := if hasFraction then .float x else .integer x

theorem atStart_digit {c : Char} {cs : List Char} {hasFraction : Bool} {n : Nat}
    (hdigit : isDigit c = true) (hn : numberLength cs = (hasFraction, n)) :
    atStart c cs = (token (numberToken hasFraction (String.ofList (c :: cs.take n))), n) := by
  have hblank : isBlank c = false := not_blank_of (by decide) hdigit
  unfold atStart
  dsimp only
  rw [if_neg (by simp [hblank]), if_pos hdigit, hn]
  cases hasFraction <;> rfl

theorem atStart_integer {x : String} {c : Char} {cs rest : List Char} (hcs : x.toList = c :: cs)
    (hdigit : isDigit c = true) (hparts : ∀ d ∈ cs, isNumberPart d = true) (hrest : NumberEnds rest) :
    atStart c (cs ++ rest) = (.token (.integer x), cs.length) := by
  have hword : String.ofList (c :: (cs ++ rest).take cs.length) = x := by
    rw [List.take_left, ← hcs, String.ofList_toList]
  rw [atStart_digit hdigit (numberLength_ends hparts hrest), hword]
  rfl

end Piece

namespace Reads

variable {rest : List Char} {ts : List Token}

theorem integer {x : String} (hx : Piece.isInteger x = true) (hrest : Piece.NumberEnds rest)
    (h : Reads rest ts) : Reads (x.toList ++ rest) (.integer x :: ts) := by
  rw [Piece.isInteger, Bool.and_eq_true] at hx
  obtain ⟨hstart, hparts⟩ := hx
  cases hcs : x.toList with
  | nil =>
    rw [hcs] at hstart
    cases hstart
  | cons c cs =>
    rw [hcs] at hstart hparts
    rw [List.all_cons, Bool.and_eq_true, List.all_eq_true] at hparts
    refine token (Piece.atStart_integer hcs hstart hparts.2 hrest) ?_
    change Reads ((cs ++ rest).drop cs.length) ts
    rwa [List.drop_left]

/-- An operand is read up to a blank or the end of the text. -/
theorem operand {o : Operand} (ho : o.Written) (hrest : ∀ c ∈ rest.head?, c = ' ')
    (h : Reads rest ts) : Reads (o.text.toList ++ rest) (o.token :: ts) := by
  cases o with
  | integer text =>
    refine integer ho.1 (fun c hc => ?_) h
    rw [hrest c hc]
    exact ⟨by decide, by decide⟩
  | name x =>
    refine name ho (fun c hc => ?_) h
    rw [hrest c hc]
    decide

theorem operator (op : BinaryOp) (h : Reads rest ts) :
    Reads (op.text.toList ++ ' ' :: rest) (.mark op.mark :: ts) := by
  cases op with
  | add | sub | mul | div | rem | lt | gt => exact token (n := 0) rfl h.blank
  | eq | notEq | ltEq | gtEq | and | or => exact token (n := 1) rfl h.blank

end Reads

namespace Chain

def linkTokens (links : List (BinaryOp × Operand)) : List Token :=
  links.flatMap fun x => [.mark x.1.mark, x.2.token]

@[simp] theorem linkTokens_cons (op : BinaryOp) (o : Operand) (links : List (BinaryOp × Operand)) :
    linkTokens ((op, o) :: links) = .mark op.mark :: o.token :: linkTokens links := rfl

theorem reads_links (links : List (BinaryOp × Operand)) (h : ∀ x ∈ links, x.2.Written) :
    Reads (String.join (links.map linkText)).toList (linkTokens links) ∧
      ∀ c ∈ (String.join (links.map linkText)).toList.head?, c = ' ' := by
  induction links with
  | nil => exact ⟨.nil, by simp⟩
  | cons x links ih =>
    obtain ⟨op, o⟩ := x
    rw [List.forall_mem_cons] at h
    obtain ⟨hreads, hhead⟩ := ih h.2
    have hlink := (Reads.operator op (Reads.operand h.1 hhead hreads)).blank
    simp only [List.map_cons, String.join_cons, linkText, String.toList_append, List.append_assoc]
    exact ⟨hlink, by simp⟩

theorem Written.reads {c : Chain} (h : c.Written) :
    Reads c.text.toList (c.first.token :: linkTokens c.rest) := by
  obtain ⟨hreads, hhead⟩ := reads_links c.rest h.rest
  rw [text, String.toList_append]
  exact hreads.operand h.first hhead

end Chain

/-! Levels -/

/-- Taking a longer run starts with taking a shorter one. -/
theorem takeWhile_split {α : Type} {p q : α → Bool} (h : ∀ a, q a = true → p a = true) (as : List α) :
    as.takeWhile p = as.takeWhile q ++ (as.dropWhile q).takeWhile p ∧
      as.dropWhile p = (as.dropWhile q).dropWhile p := by
  induction as with
  | nil => simp
  | cons a as ih =>
    by_cases hq : q a = true
    · simp [hq, h a hq, ih]
    · simp [hq]

/-- The links up to the first operator below the level. -/
def Chain.bound (k : Nat) (links : List (BinaryOp × Operand)) : List (BinaryOp × Operand) :=
  links.takeWhile fun x => k ≤ x.1.level

/-- The links from the first operator below the level on. -/
def Chain.loose (k : Nat) (links : List (BinaryOp × Operand)) : List (BinaryOp × Operand) :=
  links.dropWhile fun x => k ≤ x.1.level

namespace Chain

variable {k : Nat} {op : BinaryOp} {o : Operand} {links : List (BinaryOp × Operand)}

theorem bound_cons (h : k ≤ op.level) : bound k ((op, o) :: links) = (op, o) :: bound k links :=
  List.takeWhile_cons_of_pos (by simpa using h)

theorem loose_cons (h : k ≤ op.level) : loose k ((op, o) :: links) = loose k links :=
  List.dropWhile_cons_of_pos (by simpa using h)

theorem bound_cons_of_lt (h : op.level < k) : bound k ((op, o) :: links) = [] :=
  List.takeWhile_cons_of_neg (by simpa using h)

theorem loose_cons_of_lt (h : op.level < k) : loose k ((op, o) :: links) = (op, o) :: links :=
  List.dropWhile_cons_of_neg (by simpa using h)

theorem bound_zero (links : List (BinaryOp × Operand)) : bound 0 links = links :=
  List.takeWhile_eq_self_iff.mpr (by simp)

theorem loose_zero (links : List (BinaryOp × Operand)) : loose 0 links = [] :=
  List.dropWhile_eq_nil_iff.mpr (by simp)

theorem bound_eq (k : Nat) (links : List (BinaryOp × Operand)) :
    bound k links = bound (k + 1) links ++ bound k (loose (k + 1) links) :=
  (takeWhile_split (fun x hx => by simp at hx ⊢; omega) links).1

theorem loose_eq (k : Nat) (links : List (BinaryOp × Operand)) :
    loose k links = loose k (loose (k + 1) links) :=
  (takeWhile_split (fun x hx => by simp at hx ⊢; omega) links).2

theorem level_le_of_loose {x : BinaryOp × Operand} (hx : x ∈ (loose (k + 1) links).head?) :
    x.1.level ≤ k := by
  have hnot := List.head?_dropWhile_not (fun x : BinaryOp × Operand => decide (k + 1 ≤ x.1.level)) links
  change x ∈ (links.dropWhile _).head? at hx
  rw [hx] at hnot
  simp at hnot
  omega

theorem loose_suffix (k : Nat) (links : List (BinaryOp × Operand)) : loose k links <:+ links :=
  List.dropWhile_suffix _

end Chain

/-! Reading a chain -/

/-- The node is the operand with the links, grouped, and no operator outside of its operands is below
the level. -/
structure Node.Groups (k : Nat) (first : Operand) (links : List (BinaryOp × Operand)) (n : Node) :
    Prop where
  inOrder : n.InOrder first links
  grouped : n.Grouped
  level : ∀ o ∈ n.operator?, k ≤ o.level

theorem Node.Groups.join {k : Nat} {op : BinaryOp} {l r : Node} {a b : Operand}
    {before after : List (BinaryOp × Operand)} (span : Span) (hl : l.Groups k a before)
    (hr : r.Groups (k + 1) b after) (hop : op.level = k) :
    (Node.binary op l r span).Groups k a (before ++ (op, b) :: after) where
  inOrder := .binary span hl.inOrder hr.inOrder
  grouped := .binary span (fun o ho => hop ▸ hl.level o ho) (fun o ho => hop ▸ hr.level o ho)
    hl.grouped hr.grouped
  level := by
    intro o ho
    obtain rfl : op = o := by simpa [Node.operator?] using ho
    omega

namespace Parse

open Chain Outcome

variable {c : Cursor} {ts : List Token}

theorem operator?_mark (l : Level) (op : BinaryOp) :
    l.operator? op.mark = if l.height + op.level = 5 then some op else none := by
  cases l <;> cases op <;> rfl

theorem operator?_ahead {l : Level} {op : BinaryOp} (h : c.Ahead (.mark op.mark :: ts))
    (hop : l.height + op.level = 5) : ∃ hd, operator? l c = some (op, ⟨c.advance, hd⟩) := by
  have hlt := Cursor.weight_advance_lt (Cursor.weight_pos_of_peek? h.peek?)
  refine ⟨hlt, operator?_eq_some_iff.mpr ⟨h.isAtLineStart, op.mark, h.peek?, ?_, rfl⟩⟩
  rw [operator?_mark, if_pos hop]

theorem operator?_ahead_of_ne {l : Level} {links : List (BinaryOp × Operand)}
    (h : c.Ahead (linkTokens links)) (hne : ∀ x ∈ links.head?, l.height + x.1.level ≠ 5) :
    operator? l c = none := by
  rw [Option.eq_none_iff_forall_ne_some]
  rintro ⟨op, d, hd⟩ hsome
  obtain ⟨_, m, hm, hop, _⟩ := operator?_eq_some_iff.mp hsome
  rw [h.peek?] at hm
  cases links with
  | nil => cases hm
  | cons x links =>
    obtain rfl : x.1.mark = m := by simpa [linkTokens] using hm
    rw [operator?_mark, if_neg (hne x rfl)] at hop
    cases hop

/-- The parser takes an operand and the links above a level. -/
def Reaches (k : Nat) (p : (c : Cursor) → Outcome 1 c Node) : Prop :=
  ∀ c (first : Operand) links, first.Written → (∀ x ∈ links, x.2.Written) →
    c.Ahead (first.token :: linkTokens links) →
    (p c).Finds (Node.Groups k first (bound k links)) (linkTokens (loose k links))

/-- The links of one level are taken one after the other, each with those above the level. -/
theorem finds_binaryTail {l : Level} {k : Nat} (hk : l.height + k = 5) (ho : Reaches (k + 1) (operand l))
    {first : Operand} {links done : List (BinaryOp × Operand)} {c : Cursor} {left : Node}
    (hleft : left.Groups k first done) (hw : ∀ x ∈ links, x.2.Written)
    (hhead : ∀ x ∈ links.head?, x.1.level ≤ k) (h : c.Ahead (linkTokens links)) :
    (binaryTail l left c).Finds (Node.Groups k first (done ++ bound k links))
      (linkTokens (loose k links)) := by
  induction hn : links.length using Nat.strongRecOn generalizing links done c left with
  | ind n ih =>
    subst hn
    rcases links with _ | ⟨⟨op, o⟩, links⟩
    · rw [binaryTail, operator?_ahead_of_ne h (by simp)]
      exact finds_done (by simpa [bound] using hleft) h
    have hle : op.level ≤ k := hhead (op, o) rfl
    by_cases hop : op.level = k
    · -- the operator belongs to the level: its right operand takes the links above the level
      rw [linkTokens_cons] at h
      obtain ⟨hd, hoperator⟩ := operator?_ahead h (hop ▸ hk)
      rw [binaryTail, hoperator]
      rw [List.forall_mem_cons] at hw
      refine Finds.weaken ((ho _ o links hw.1 hw.2 h.advance).relax.thenMaybe
        fun right e _ hright he => ?_)
      have hsuffix := loose_suffix (k + 1) links
      have hmore := ih _ (Nat.lt_succ_of_le hsuffix.length_le)
        (hleft.join (left.span.join right.span) hright hop) (fun x hx => hw.2 x (hsuffix.subset hx))
        (fun x hx => level_le_of_loose hx) he rfl
      rw [bound_cons (by omega), loose_cons (by omega), bound_eq k links, loose_eq k links]
      simpa using hmore
    · -- the operator is left to a looser level
      rw [binaryTail, operator?_ahead_of_ne h (by simp; omega), bound_cons_of_lt (by omega),
        loose_cons_of_lt (by omega)]
      exact finds_done (by simpa using hleft) h

theorem reaches_binary {l : Level} {k : Nat} (hk : l.height + k = 5) (ho : Reaches (k + 1) (operand l)) :
    Reaches k (binary l) := by
  intro c first links hfirst hlinks h
  rw [binary]
  refine (ho c first links hfirst hlinks h).andThen fun left d _ hleft hd => ?_
  have hsame : left.Groups k first (bound (k + 1) links) :=
    ⟨hleft.inOrder, hleft.grouped, fun o ho => Nat.le_of_succ_le (hleft.level o ho)⟩
  rw [bound_eq k links, loose_eq k links]
  exact finds_binaryTail hk ho hsame (fun x hx => hlinks x ((loose_suffix _ _).subset hx))
    (fun x hx => level_le_of_loose hx) hd

/-- An operand by itself. -/
theorem finds_primary_operand {first : Operand} {links : List (BinaryOp × Operand)}
    (hfirst : first.Written) (h : c.Ahead (first.token :: linkTokens links)) :
    (primary c).Finds (Node.Groups 6 first []) (linkTokens links) := by
  have hgroups {n : Node} (hn : n.InOrder first []) (hnone : n.operator? = none) :
      n.Groups 6 first [] := ⟨hn, .operand hnone, by simp [hnone]⟩
  cases first with
  | integer text =>
    obtain ⟨n, hn⟩ := Option.isSome_iff_exists.mp hfirst.2
    refine (finds_primary_integer hn h).imp ?_
    rintro _ ⟨span, rfl⟩
    exact hgroups (.integer span hn) rfl
  | name x =>
    by_cases hx : x = "unit"
    · subst hx
      have hpeek : c.peek? = some (.identifier "unit") := h.peek?
      rw [primary_eq hpeek (Cursor.weight_advance_lt (Cursor.weight_pos_of_peek? hpeek)), readPrimary,
        if_pos rfl]
      exact finds_found (hgroups (.unit _) rfl) h.advance
    · have hpath : (linkTokens links)[2]? ≠ some (.mark .dot) := by
        rcases links with _ | ⟨⟨op, o⟩, _ | ⟨⟨op', o'⟩, links⟩⟩
        · simp [linkTokens]
        · simp [linkTokens]
        · cases op' <;> simp [BinaryOp.mark]
      refine (finds_primary_name hx hpath h).imp ?_
      rintro _ ⟨span, rfl⟩
      exact hgroups (.name span hx) rfl

theorem reaches_unary : Reaches 6 unary := by
  intro c first links hfirst _ h
  have hmark (m : Mark) : first.token ≠ .mark m := by cases first <;> simp [Operand.token]
  have hbound : bound 6 links = [] ∧ loose 6 links = links := by
    rcases links with _ | ⟨⟨op, o⟩, links⟩
    · exact ⟨rfl, rfl⟩
    · have hlt : op.level < 6 := by cases op <;> decide
      exact ⟨bound_cons_of_lt hlt, loose_cons_of_lt hlt⟩
  rw [unary, signOperator?_eq_none h.peek? (hmark _) (hmark _), suffixed, hbound.1, hbound.2]
  refine (finds_primary_operand hfirst h).andThen fun node d _ hnode hd => ?_
  have hnone (m : Mark) (hm : ∀ op : BinaryOp, op.mark ≠ m) : d.eat? (.mark m) = none := by
    refine hd.eat?_of_ne ?_
    rcases links with _ | ⟨⟨op, o⟩, links⟩
    · simp [linkTokens]
    · simpa using hm op
  rw [suffixTail, hnone .leftParen (by intro op; cases op <;> simp [BinaryOp.mark]),
    hnone .leftBracket (by intro op; cases op <;> simp [BinaryOp.mark]),
    hnone .dot (by intro op; cases op <;> simp [BinaryOp.mark])]
  exact finds_done hnode hd

theorem reaches_caseTest (h : Reaches 4 (binary .sum)) : Reaches 4 caseTest := by
  intro c first links hfirst hlinks hc
  rw [caseTest]
  refine (h c first links hfirst hlinks hc).andThen fun node d _ hnode hd => ?_
  have hnone : d.eat? (.keyword .isWord) = none := by
    refine hd.eat?_of_ne ?_
    rcases loose 4 links with _ | ⟨⟨op, o⟩, more⟩
    · simp [linkTokens]
    · simp
  rw [if_neg (by simp [hd.isAtLineStart]), hnone]
  exact finds_done hnode hd

/-- An expression takes a whole chain. -/
theorem reaches_expression : Reaches 0 (binary .or) := by
  have hlevel (l : Level) (k : Nat) (hk : l.height + k = 5) {p : (c : Cursor) → Outcome 1 c Node}
      (hp : ∀ c, operand l c = p c) (h : Reaches (k + 1) p) : Reaches k (binary l) :=
    reaches_binary hk (funext hp ▸ h)
  have hproduct := hlevel .product 5 rfl (fun c => by rw [operand]) reaches_unary
  have hsum := hlevel .sum 4 rfl (fun c => by rw [operand]) hproduct
  have hcomparison := hlevel .comparison 3 rfl (fun c => by rw [operand]) (reaches_caseTest hsum)
  have hequality := hlevel .equality 2 rfl (fun c => by rw [operand]) hcomparison
  have hand := hlevel .and 1 rfl (fun c => by rw [operand]) hequality
  exact hlevel .or 0 rfl (fun c => by rw [operand]) hand

end Parse

/-- A chain is read without errors as one item, which has its operands and operators in their order and
grouped by their levels. -/
theorem Parsed.operators_grouped {chain : Chain} (h : chain.Written) :
    (Parsed.ofSource chain.text).errors = [] ∧
      ∃ node, (Parsed.ofSource chain.text).unit = ⟨none, [], [node]⟩ ∧
        node.InOrder chain.first chain.rest ∧ node.Grouped := by
  have hstart := Parse.Cursor.ahead_start h.reads 0
  have hexpr := Parse.reaches_expression _ chain.first chain.rest h.first h.rest hstart
  rw [Chain.bound_zero, Chain.loose_zero] at hexpr
  have hkeyword (w : Keyword) : chain.first.token ≠ .keyword w := by
    cases chain.first <;> simp [Operand.token]
  have hopens : chain.first.token.opensStatement = true := by cases chain.first <;> rfl
  have hseparator : chain.first.token ≠ .mark .semicolon := by
    cases chain.first <;> simp [Operand.token]
  obtain ⟨node, hnode, hunit, herrors⟩ := Parse.sourceUnit_of_statement hstart hopens hseparator
    (Parse.finds_statement hstart hkeyword hexpr)
  exact ⟨herrors, node, hunit, hnode.inOrder, hnode.grouped⟩

/-- Operators of all levels, and the largest integer. -/
def mixedChain : Chain where
  first := .integer "10_0"
  rest := [(.sub, .name "a"), (.sub, .integer "9223372036854775807"), (.mul, .name "unit"),
    (.rem, .name "_b"), (.lt, .name "c"), (.eq, .name "d"), (.notEq, .name "e"), (.or, .name "f"),
    (.and, .name "g"), (.gtEq, .name "h1"), (.add, .integer "0")]

theorem operators_grouped_mixed :
    mixedChain.Written ∧
      (Parsed.ofSource ("10_0 - a - 9223372036854775807 * unit % _b < c == d != e || f && g >= h1 + 0")).errors
        = [] ∧
      ∃ node, (Parsed.ofSource
          ("10_0 - a - 9223372036854775807 * unit % _b < c == d != e || f && g >= h1 + 0")).unit =
        ⟨none, [], [node]⟩ ∧ node.InOrder mixedChain.first mixedChain.rest ∧ node.Grouped := by
  have hinteger (text : String) (hdigits : Piece.isInteger text = true)
      (hvalue : (Parse.integerOf? text).isSome = true) : (Operand.integer text).Written :=
    ⟨hdigits, hvalue⟩
  have hname (x : String) (hx : Piece.isName x = true) : (Operand.name x).Written := hx
  have hwritten : mixedChain.Written := by
    refine ⟨hinteger _ (by decide +kernel) (by decide +kernel), ?_⟩
    simp only [mixedChain, List.forall_mem_cons]
    refine ⟨hname _ ?_, hinteger _ ?_ ?_, hname _ ?_, hname _ ?_, hname _ ?_, hname _ ?_, hname _ ?_,
      hname _ ?_, hname _ ?_, hname _ ?_, hinteger _ ?_ ?_, by simp⟩
    all_goals decide +kernel
  have htext : mixedChain.text =
      "10_0 - a - 9223372036854775807 * unit % _b < c == d != e || f && g >= h1 + 0" := by
    decide +kernel
  have hgrouped := Parsed.operators_grouped hwritten
  rw [htext] at hgrouped
  exact ⟨hwritten, hgrouped⟩

end Tern
