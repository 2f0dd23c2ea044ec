import Mathlib.Data.List.Nodup
import Tern.Proofs.Parse.Interpolation
import Tern.Proofs.Parse.Operators

/-!
The longest token wins. For each kind of token a pattern says how it is written; what is read at a place
follows its pattern, and any other token that the text could go on with is shorter. What is no token is a
character that starts none, or a string or comment without an end.
-/

set_option autoImplicit false

namespace Tern

/-- What stands between the quotes of a string: a backslash takes the next character with it, and this
is no line break. -/
inductive Piece.Quotable : List Char → Prop
  | nil : Quotable []
  | plain {c : Char} {cs : List Char} (hquote : c ≠ '"') (hescape : c ≠ '\\') (h : Quotable cs) :
    Quotable (c :: cs)
  | escaped {c : Char} {cs : List Char} (hline : c ≠ '\n') (h : Quotable cs) :
    Quotable ('\\' :: c :: cs)

/-- The token follows the pattern of its kind. -/
inductive Token.Formed : Token → Prop
  | keyword (k : Keyword) : Formed (.keyword k)
  | mark (m : Mark) : Formed (.mark m)
  | integer {c : Char} {cs : List Char} (hc : Piece.isDigit c = true)
    (hcs : ∀ d ∈ cs, Piece.isNumberPart d = true) : Formed (.integer (String.ofList (c :: cs)))
  | float {c d : Char} {whole fraction : List Char} (hc : Piece.isDigit c = true)
    (hwhole : ∀ d ∈ whole, Piece.isNumberPart d = true) (hd : Piece.isDigit d = true)
    (hfraction : ∀ d ∈ fraction, Piece.isNumberPart d = true) :
    Formed (.float (String.ofList (c :: (whole ++ '.' :: d :: fraction))))
  | string {cs : List Char} (h : Piece.Quotable cs) :
    Formed (.string (String.ofList ('"' :: (cs ++ ['"']))))
  | identifier {c : Char} {cs : List Char} (hc : Piece.isNameStart c = true)
    (hcs : ∀ d ∈ cs, Piece.isNamePart d = true)
    (hword : Keyword.ofText? (String.ofList (c :: cs)) = none) :
    Formed (.identifier (String.ofList (c :: cs)))

namespace Piece

/-! What is read follows its pattern -/

theorem mem_takeWhile {p : Char → Bool} {cs : List Char} :
    ∀ d ∈ cs.take (cs.takeWhile p).length, p d = true := by
  intro d hd
  rw [← List.prefix_iff_eq_take.mp (List.takeWhile_prefix p)] at hd
  exact List.mem_takeWhile_imp hd

theorem quotable_of_stringLength {cs : List Char} {n : Nat} (h : stringLength cs = (true, n)) :
    ∃ body, cs.take n = body ++ ['"'] ∧ Quotable body := by
  fun_induction stringLength cs generalizing n with
  | case1 => cases h
  | case2 rest =>
    cases h
    exact ⟨[], rfl, .nil⟩
  | case3 => cases h
  | case4 => cases h
  | case5 c cs hline closed m hlength ih =>
    obtain ⟨rfl, rfl⟩ := Prod.mk.inj h
    obtain ⟨body, hbody, hquotable⟩ := ih hlength
    exact ⟨'\\' :: c :: body, by simp [hbody], .escaped hline hquotable⟩
  | case6 c cs hquote hescape hescape' closed m hlength ih =>
    obtain ⟨rfl, rfl⟩ := Prod.mk.inj h
    obtain ⟨body, hbody, hquotable⟩ := ih hlength
    refine ⟨c :: body, by simp [hbody], .plain hquote ?_ hquotable⟩
    rintro rfl
    cases cs with
    | nil => exact hescape rfl rfl
    | cons d cs => exact hescape' d cs rfl rfl

theorem digits_of_numberLength {cs : List Char} {n : Nat} (h : numberLength cs = (false, n)) :
    ∀ d ∈ cs.take n, isNumberPart d = true := by
  unfold numberLength at h
  dsimp only at h
  repeat' split at h
  all_goals cases h
  all_goals exact mem_takeWhile

theorem fraction_of_numberLength {cs : List Char} {n : Nat} (h : numberLength cs = (true, n)) :
    ∃ whole d fraction, cs.take n = whole ++ '.' :: d :: fraction ∧
      (∀ d ∈ whole, isNumberPart d = true) ∧ isDigit d = true ∧
      ∀ d ∈ fraction, isNumberPart d = true := by
  unfold numberLength at h
  dsimp only at h
  split at h
  · rename_i d rest heq
    split at h
    · rename_i hd
      cases h
      have hwhole : ∀ d ∈ cs.takeWhile isNumberPart, isNumberPart d = true :=
        fun _ => List.mem_takeWhile_imp
      have hsplit := Parse.Template.split_takeWhile isNumberPart cs
      rw [heq] at hsplit
      generalize cs.takeWhile isNumberPart = whole at hwhole hsplit ⊢
      subst hsplit
      refine ⟨whole, d, rest.take (rest.takeWhile isNumberPart).length, ?_, hwhole, hd, mem_takeWhile⟩
      rw [Nat.add_assoc, List.take_length_add_append, Nat.add_comm]
      rfl
    · cases h
  · cases h

theorem formed_of_atStart {c : Char} {cs : List Char} {t : Token} {n : Nat}
    (h : atStart c cs = (token t, n)) : t.Formed := by
  unfold atStart at h
  dsimp only at h
  split at h
  · cases h
  split at h
  · rename_i hdigit
    split at h
    · rename_i hlength
      cases h
      obtain ⟨whole, d, fraction, htake, hwhole, hd, hfraction⟩ := fraction_of_numberLength hlength
      rw [htake]
      exact .float hdigit hwhole hd hfraction
    · rename_i hlength
      cases h
      exact .integer hdigit (digits_of_numberLength hlength)
  split at h
  · rename_i hstart
    split at h
    · cases h
      exact .keyword _
    · rename_i hword
      cases h
      exact .identifier hstart mem_takeWhile hword
  split at h
  · rename_i hquote
    split at h
    · rename_i hlength
      cases h
      obtain ⟨body, htake, hbody⟩ := quotable_of_stringLength hlength
      rw [htake, hquote]
      exact .string hbody
    · cases h
  split at h
  · cases h
  · split at h <;> cases h
  · split at h
    · cases h
      exact .mark _
    · cases h

/-! Nothing longer follows a pattern -/

theorem length_le_takeWhile {p : Char → Bool} {w cs : List Char} (h : w <+: cs)
    (hw : ∀ d ∈ w, p d = true) : w.length ≤ (cs.takeWhile p).length := by
  obtain ⟨rest, rfl⟩ := h
  rw [List.takeWhile_append_of_pos hw, List.length_append]
  exact Nat.le_add_right _ _

theorem Quotable.inside {cs : List Char} (h : Quotable cs) : Inside cs := by
  induction h with
  | nil => exact inside_nil
  | @plain c cs hquote hescape h ih =>
    have hc : Inside [c] := inside_plain (by simp [hquote, hescape])
    exact hc.append ih
  | @escaped c cs hline h ih =>
    intro rest
    rw [List.cons_append, List.cons_append, stringLength, if_neg hline, ih rest]
    rfl

/-- In a list that goes down, what is found first is greatest. -/
theorem le_of_find? {α : Type} {p : α → Bool} {f : α → Nat} {as : List α} {a b : α}
    (hdown : as.Pairwise fun x y => f y ≤ f x) (h : as.find? p = some a) (hb : b ∈ as)
    (hp : p b = true) : f b ≤ f a := by
  obtain ⟨_, before, after, rfl, hbefore⟩ := List.find?_eq_some_iff_append.mp h
  rcases List.mem_append.mp hb with hb | hb
  · have hnot := hbefore b hb
    simp [hp] at hnot
  · rcases List.mem_cons.mp hb with rfl | hb
    · exact Nat.le_refl _
    · exact (List.pairwise_cons.mp (List.pairwise_append.mp hdown).2.1).1 b hb

end Piece

namespace Mark

open Piece

theorem mem_all (m : Mark) : m ∈ all := by cases m <;> decide

theorem text_injective {m m' : Mark} (h : m.text = m'.text) : m = m' := by
  have hnodup : (all.map text).Nodup := by decide
  exact List.inj_on_of_nodup_map hnodup (mem_all m) (mem_all m') h

/-- Any other mark that the text starts with is shorter than the one that is found. -/
theorem longest_of_ofStart? {m : Mark} {cs : List Char} (h : m.text.toList <+: cs) :
    ∃ m', ofStart? cs = some m' ∧ (m = m' ∨ m.text.length < m'.text.length) := by
  have hfits : m.text.toList.isPrefixOf cs = true := List.isPrefixOf_iff_prefix.mpr h
  obtain ⟨m', hm'⟩ : ∃ m', ofStart? cs = some m' :=
    Option.isSome_iff_exists.mp (List.find?_isSome.mpr ⟨m, mem_all m, hfits⟩)
  refine ⟨m', hm', ?_⟩
  have hle : m.text.length ≤ m'.text.length :=
    le_of_find? (f := fun m => m.text.length) (by decide) hm' (mem_all m) hfits
  rcases Nat.lt_or_eq_of_le hle with hlt | heq
  · exact .inr hlt
  · -- of one length, they are the same beginning of the text
    have h' : m'.text.toList <+: cs := List.isPrefixOf_iff_prefix.mp
      (List.find?_some (p := fun m : Mark => m.text.toList.isPrefixOf cs) hm')
    rw [List.prefix_iff_eq_take, String.length_toList] at h h'
    exact .inl (text_injective (String.toList_inj.mp (by rw [h, h', heq])))

end Mark

namespace Piece

/-- A comment could start with the character. -/
def OpensComment (c : Char) (cs : List Char) : Prop :=
  c = '/' ∧ ∃ rest, cs = '/' :: rest ∨ cs = '*' :: rest

/-- A token is read here that is `u` or longer than it. -/
def Outdoes (c : Char) (cs : List Char) (u : Token) : Prop :=
  ∃ t n, atStart c cs = (token t, n) ∧ (u = t ∨ u.text.length ≤ n)

variable {c : Char} {w cs : List Char}

theorem take_of_starts {n : Nat} (h : w <+: cs) (hn : w.length = n) : cs.take n = w := by
  rw [← hn]
  exact (List.prefix_iff_eq_take.mp h).symm

/-- The token is read if its text is as long as what is taken, and outdone if it is shorter. -/
theorem outdoes_of_length {t u : Token} {n : Nat} (hread : atStart c cs = (token t, n))
    (hu : u.text = String.ofList (c :: w)) (hle : w.length ≤ n) (hsame : w.length = n → u = t) :
    Outdoes c cs u := by
  refine ⟨t, n, hread, ?_⟩
  rcases Nat.lt_or_eq_of_le hle with hlt | heq
  · have hlength : u.text.length = w.length + 1 := by rw [hu, String.length_ofList, List.length_cons]
    exact .inr (by omega)
  · exact .inl (hsame heq)

/-- Without a fraction, the digits are all; with one, there is more than the digits. -/
theorem whole_of_numberLength {hasFraction : Bool} {n : Nat} (h : numberLength cs = (hasFraction, n)) :
    (hasFraction = false ∧ n = (cs.takeWhile isNumberPart).length) ∨
      (cs.takeWhile isNumberPart).length < n := by
  unfold numberLength at h
  dsimp only at h
  repeat' split at h
  all_goals obtain ⟨rfl, rfl⟩ := Prod.mk.inj h
  · exact .inr (by omega)
  · exact .inl ⟨rfl, rfl⟩
  · exact .inl ⟨rfl, rfl⟩

theorem outdoes_integer (hdigit : isDigit c = true) (h : w <+: cs)
    (hw : ∀ d ∈ w, isNumberPart d = true) : Outdoes c cs (.integer (String.ofList (c :: w))) := by
  rcases hn : numberLength cs with ⟨hasFraction, n⟩
  have hle := length_le_takeWhile h hw
  rcases whole_of_numberLength hn with ⟨rfl, hwhole⟩ | hmore
  · refine outdoes_of_length (atStart_digit hdigit hn) rfl (by omega) fun hsame => ?_
    rw [take_of_starts h hsame]
    rfl
  · exact outdoes_of_length (atStart_digit hdigit hn) rfl (by omega) (by omega)

theorem numberLength_fraction {d : Char} {whole rest : List Char}
    (hwhole : ∀ d ∈ whole, isNumberPart d = true) (hd : isDigit d = true) :
    numberLength (whole ++ '.' :: d :: rest) =
      (true, whole.length + 2 + (rest.takeWhile isNumberPart).length) := by
  have hlength : ((whole ++ '.' :: d :: rest).takeWhile isNumberPart).length = whole.length :=
    length_takeWhile_append hwhole (by simp; decide)
  unfold numberLength
  dsimp only
  rw [hlength, List.drop_left]
  exact if_pos hd

theorem outdoes_float {d : Char} {whole fraction : List Char} (hdigit : isDigit c = true)
    (h : whole ++ '.' :: d :: fraction <+: cs) (hwhole : ∀ d ∈ whole, isNumberPart d = true)
    (hd : isDigit d = true) (hfraction : ∀ d ∈ fraction, isNumberPart d = true) :
    Outdoes c cs (.float (String.ofList (c :: (whole ++ '.' :: d :: fraction)))) := by
  have hrest := h
  obtain ⟨rest, rfl⟩ := hrest
  have hn : numberLength (whole ++ '.' :: d :: fraction ++ rest) =
      (true, whole.length + 2 + ((fraction ++ rest).takeWhile isNumberPart).length) := by
    rw [List.append_assoc, List.cons_append, List.cons_append]
    exact numberLength_fraction hwhole hd
  have hle := length_le_takeWhile (List.prefix_append fraction rest) hfraction
  refine outdoes_of_length (atStart_digit hdigit hn) rfl ?_ fun hsame => ?_
  · simp only [List.length_append, List.length_cons]
    omega
  · rw [take_of_starts h hsame]
    rfl

theorem outdoes_string {body : List Char} (hbody : Quotable body) (h : body ++ ['"'] <+: cs) :
    Outdoes '"' cs (.string (String.ofList ('"' :: (body ++ ['"'])))) := by
  obtain ⟨rest, rfl⟩ := h
  rw [List.append_assoc]
  exact ⟨_, _, atStart_string hbody.inside rest, .inl rfl⟩

theorem text_wordToken (x : String) : (wordToken x).text = x := by
  unfold wordToken
  split
  · rename_i k hk
    exact text_of_ofText? hk
  · rfl

theorem outdoes_word (hstart : isNameStart c = true) (h : w <+: cs)
    (hw : ∀ d ∈ w, isNamePart d = true) : Outdoes c cs (wordToken (String.ofList (c :: w))) := by
  have hle := length_le_takeWhile h hw
  refine outdoes_of_length (atStart_word hstart) (text_wordToken _) hle fun hsame => ?_
  rw [take_of_starts h hsame]

theorem wordToken_text (k : Keyword) : wordToken k.text = .keyword k := by cases k <;> decide

theorem keyword_word (k : Keyword) : ∃ d w, k.text.toList = d :: w ∧ isNameStart d = true ∧
    ∀ d ∈ w, isNamePart d = true := by
  have hstart : k.text.toList.head?.all isNameStart = true := by cases k <;> decide
  have hparts : k.text.toList.tail.all isNamePart = true := by cases k <;> decide
  cases htext : k.text.toList with
  | nil => exact absurd htext (by cases k <;> decide)
  | cons d w =>
    rw [htext] at hstart hparts
    exact ⟨d, w, rfl, hstart, List.all_eq_true.mp hparts⟩

/-- Blanks, digits, letters and quotes start no mark. -/
theorem class_of_mark {m : Mark} (h : m.text.toList <+: c :: cs) :
    isBlank c = false ∧ isDigit c = false ∧ isNameStart c = false ∧ c ≠ '"' := by
  have hhead : m.text.toList.head? = some c := by
    rw [List.head?_eq_some_iff]
    obtain ⟨after, hafter⟩ := h
    cases htext : m.text.toList with
    | nil => exact absurd htext (by cases m <;> decide)
    | cons d w =>
      rw [htext, List.cons_append, List.cons.injEq] at hafter
      exact ⟨w, by rw [hafter.1]⟩
  cases m <;> cases hhead <;> decide

theorem outdoes_mark {m : Mark} (h : m.text.toList <+: c :: cs) (hopens : ¬ OpensComment c cs) :
    Outdoes c cs (.mark m) := by
  obtain ⟨hblank, hdigit, hstart, hquote⟩ := class_of_mark h
  obtain ⟨m', hm', hlongest⟩ := Mark.longest_of_ofStart? h
  have hread : atStart c cs = (token (.mark m'), m'.text.length - 1) := by
    unfold atStart
    dsimp only
    rw [if_neg (by simp [hblank]), if_neg (by simp [hdigit]), if_neg (by simp [hstart]), if_neg hquote]
    split
    · exact absurd ⟨rfl, _, .inl rfl⟩ hopens
    · exact absurd ⟨rfl, _, .inr rfl⟩ hopens
    · rw [hm']
  refine ⟨_, _, hread, ?_⟩
  rcases hlongest with rfl | hlt
  · exact .inl rfl
  · exact .inr (Nat.le_sub_one_of_lt hlt)

/-- If the text goes on with a token, one is read, and any other is shorter; but comments come first. -/
theorem outdoes_of_formed {u : Token} (hu : u.Formed) (h : u.text.toList <+: c :: cs) :
    OpensComment c cs ∨ Outdoes c cs u := by
  cases hu with
  | mark m =>
    by_cases hopens : OpensComment c cs
    · exact .inl hopens
    · exact .inr (outdoes_mark h hopens)
  | keyword k =>
    obtain ⟨d, w, htext, hd, hw⟩ := keyword_word k
    rw [Token.text, htext, List.cons_prefix_cons] at h
    obtain ⟨rfl, h⟩ := h
    rw [← wordToken_text k, ← String.ofList_toList (s := k.text), htext]
    exact .inr (outdoes_word hd h hw)
  | @integer d w hc hcs =>
    rw [Token.text, String.toList_ofList, List.cons_prefix_cons] at h
    obtain ⟨rfl, h⟩ := h
    exact .inr (outdoes_integer hc h hcs)
  | @float d d' whole fraction hc hwhole hd hfraction =>
    rw [Token.text, String.toList_ofList, List.cons_prefix_cons] at h
    obtain ⟨rfl, h⟩ := h
    exact .inr (outdoes_float hc h hwhole hd hfraction)
  | @string body hbody =>
    rw [Token.text, String.toList_ofList, List.cons_prefix_cons] at h
    obtain ⟨rfl, h⟩ := h
    exact .inr (outdoes_string hbody h)
  | @identifier d w hc hcs hword =>
    rw [Token.text, String.toList_ofList, List.cons_prefix_cons] at h
    obtain ⟨rfl, h⟩ := h
    have hsame : wordToken (String.ofList (d :: w)) = .identifier (String.ofList (d :: w)) := by
      rw [wordToken, hword]
    exact .inr (hsame ▸ outdoes_word hc h hcs)

theorem not_token_of_opensComment {t : Token} {n : Nat} (hopens : OpensComment c cs) :
    atStart c cs ≠ (token t, n) := by
  obtain ⟨rfl, rest, hrest⟩ := hopens
  intro h
  unfold atStart at h
  dsimp only at h
  rw [if_neg (by decide), if_neg (by decide), if_neg (by decide), if_neg (by decide)] at h
  split at h
  · cases h
  · split at h <;> cases h
  · rename_i hline hblock
    exact hrest.elim (hline rest rfl) (hblock rest rfl)

end Piece

/-- The token follows its pattern, and any other that does and that the text starts with is shorter. -/
def Token.Longest (t : Token) (text : List Char) : Prop :=
  t.Formed ∧
    ∀ u : Token, u.Formed → u.text.toList <+: text → u = t ∨ u.text.length < t.text.length

/-- The text is no token if `after` follows it: a character that starts none, a string without an end,
which stops at an escaped line break, or a block comment without an end. -/
inductive Unread : List Char → List Char → Prop
  | char {c : Char} {after : List Char} (hquote : c ≠ '"')
    (h : ∀ u : Token, u.Formed → ¬ u.text.toList <+: c :: after) : Unread [c] after
  | string {body after : List Char} (hbody : Piece.Quotable body)
    (hafter : after = [] ∨ after = ['\\'] ∨ ['\\', '\n'] <+: after) : Unread ('"' :: body) after
  | comment {body : List Char} (hbody : ¬ ['*', '/'] <:+: body) : Unread ('/' :: '*' :: body) []

namespace Piece

variable {c : Char} {cs : List Char} {n : Nat}

theorem longest_of_atStart {t : Token} (h : atStart c cs = (token t, n)) : t.Longest (c :: cs) := by
  refine ⟨formed_of_atStart h, fun u hu hstart => ?_⟩
  rcases outdoes_of_formed hu hstart with hopens | ⟨t', n', h', hle⟩
  · exact absurd h (not_token_of_opensComment hopens)
  · rw [h] at h'
    cases h'
    have htext : t.text.length = n + 1 := by
      rw [← String.length_toList, text_of_atStart h, List.length_cons, List.length_take,
        Nat.min_eq_left (atStart_append [] h (by simp)).2]
    exact hle.imp_right fun hle => by omega

theorem unclosed_of_stringLength (h : stringLength cs = (false, n)) :
    Quotable (cs.take n) ∧
      (cs.drop n = [] ∨ cs.drop n = ['\\'] ∨ ['\\', '\n'] <+: cs.drop n) := by
  fun_induction stringLength cs generalizing n with
  | case1 =>
    cases h
    exact ⟨.nil, .inl rfl⟩
  | case2 => cases h
  | case3 =>
    cases h
    exact ⟨.nil, .inr (.inl rfl)⟩
  | case4 cs =>
    cases h
    exact ⟨.nil, .inr (.inr ⟨cs, rfl⟩)⟩
  | case5 c cs hline closed m hlength ih =>
    obtain ⟨rfl, rfl⟩ := Prod.mk.inj h
    obtain ⟨hbody, hafter⟩ := ih hlength
    exact ⟨.escaped hline hbody, hafter⟩
  | case6 c cs hquote hescape hescape' closed m hlength ih =>
    obtain ⟨rfl, rfl⟩ := Prod.mk.inj h
    obtain ⟨hbody, hafter⟩ := ih hlength
    refine ⟨.plain hquote ?_ hbody, hafter⟩
    rintro rfl
    cases cs with
    | nil => exact hescape rfl rfl
    | cons d cs => exact hescape' d cs rfl rfl

theorem unclosed_of_commentLength? (h : commentLength? cs = none) : ¬ ['*', '/'] <:+: cs := by
  fun_induction commentLength? cs with
  | case1 => simp
  | case2 => cases h
  | case3 c cs hopen ih =>
    rw [List.infix_cons_iff]
    rintro (⟨rest, hclosed⟩ | hinfix)
    · cases hclosed
      exact hopen rest rfl rfl
    · exact ih (Option.map_eq_none_iff.mp h) hinfix

theorem unread_of_atStart (h : atStart c cs = (unknown, n)) : Unread (c :: cs.take n) (cs.drop n) := by
  have hread := h
  unfold atStart at h
  dsimp only at h
  split at h
  · cases h
  split at h
  · split at h <;> cases h
  split at h
  · split at h <;> cases h
  split at h
  · rename_i hquote
    subst hquote
    split at h
    · cases h
    · rename_i hlength
      cases h
      obtain ⟨hbody, hafter⟩ := unclosed_of_stringLength hlength
      exact .string hbody hafter
  rename_i hquote
  split at h
  · cases h
  · rename_i rest _ _ _ _
    split at h
    · cases h
    · rename_i hcomment
      cases h
      rw [Nat.add_comm, List.take_succ_cons, List.drop_succ_cons, List.take_length, List.drop_length]
      exact .comment (unclosed_of_commentLength? hcomment)
  · rename_i hline hblock
    split at h
    · cases h
    · cases h
      refine .char hquote fun u hu hstart => ?_
      rcases outdoes_of_formed hu hstart with ⟨hslash, rest, hrest⟩ | ⟨t, m, htoken, _⟩
      · exact hrest.elim (hline rest hslash) (hblock rest hslash)
      · cases hread.symm.trans htoken

end Piece

end Tern
