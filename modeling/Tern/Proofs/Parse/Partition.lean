import Mathlib.Data.List.TakeWhile
import Tern.Proofs.Span
import Tern.Proofs.Parse.LongestToken

/-!
A text comes apart into tokens, places that are no token, and gaps. The places of the tokens are in
order, and so are the others; no two places meet; each token is what stands in its place, and the
longest that could; and what no place holds is blank or a comment.
-/

set_option autoImplicit false

namespace Tern

/-! Gaps -/

/-- The text is a gap if `after` follows it: a blank, or a whole comment. -/
inductive Gap : List Char → List Char → Prop
  | blank {c : Char} (h : Piece.isBlank c = true) (after : List Char) : Gap [c] after
  | line {body after : List Char} (hbody : '\n' ∉ body) (hafter : ∀ c ∈ after.head?, c = '\n') :
      Gap ('/' :: '/' :: body) after
  | block {body : List Char} (hbody : ¬ ['*', '/'] <:+: body ++ ['*']) (after : List Char) :
      Gap ('/' :: '*' :: (body ++ ['*', '/'])) after

/-- The text starts with no gap. -/
def Solid (text : List Char) : Prop := ∀ gap after, text = gap ++ after → ¬ Gap gap after

namespace Piece

/-- A block comment ends where it is closed first. -/
theorem closed_of_commentLength? {cs : List Char} {n : Nat} (h : commentLength? cs = some n) :
    ∃ body after, cs = body ++ '*' :: '/' :: after ∧ n = body.length + 2 ∧
      ¬ ['*', '/'] <:+: body ++ ['*'] := by
  fun_induction commentLength? cs generalizing n with
  | case1 => cases h
  | case2 after =>
    cases h
    exact ⟨[], after, rfl, rfl, by decide⟩
  | case3 c cs hopen ih =>
    obtain ⟨m, hm, rfl⟩ := Option.map_eq_some_iff.mp h
    obtain ⟨body, after, rfl, rfl, hbody⟩ := ih hm
    refine ⟨c :: body, after, rfl, rfl, ?_⟩
    rw [List.cons_append, List.infix_cons_iff]
    rintro (hclosed | hinfix)
    · -- it would be closed at once
      rw [List.cons_prefix_cons] at hclosed
      obtain ⟨rfl, hslash⟩ := hclosed
      cases body with
      | nil => simp at hslash
      | cons d body =>
        rw [List.cons_append, List.cons_prefix_cons] at hslash
        obtain ⟨rfl, _⟩ := hslash
        exact hopen _ rfl rfl
    · exact hbody hinfix

/-- What is skipped between tokens is a gap. -/
theorem gap_of_atStart {c : Char} {cs : List Char} {n : Nat} (h : atStart c cs = (gap, n)) :
    Gap (c :: cs.take n) (cs.drop n) := by
  unfold atStart at h
  dsimp only at h
  split at h
  · rename_i hblank
    cases h
    exact .blank hblank cs
  split at h
  · split at h <;> cases h
  split at h
  · split at h <;> cases h
  split at h
  · split at h <;> cases h
  split at h
  · rename_i rest _ _ _ _
    cases h
    have hline : '\n' ∉ rest.takeWhile (· ≠ '\n') := fun hmem => by simpa using List.mem_takeWhile_imp hmem
    have hafter : ∀ c ∈ (rest.dropWhile (· ≠ '\n')).head?, c = '\n' := by
      intro c hc
      have hnot := List.head?_dropWhile_not (· ≠ '\n') rest
      rw [hc] at hnot
      simpa using hnot
    have hwhole := List.takeWhile_append_dropWhile (p := (· ≠ '\n')) (l := rest)
    generalize rest.takeWhile (· ≠ '\n') = line at hline hwhole ⊢
    generalize rest.dropWhile (· ≠ '\n') = after at hafter hwhole
    subst hwhole
    rw [Nat.add_comm, List.take_succ_cons, List.drop_succ_cons, List.take_left, List.drop_left]
    exact .line hline hafter
  · rename_i rest _ _ _ _
    split at h
    · rename_i m hm
      cases h
      obtain ⟨body, after, rfl, rfl, hbody⟩ := closed_of_commentLength? hm
      have hsplit : body ++ '*' :: '/' :: after = (body ++ ['*', '/']) ++ after := by simp
      rw [Nat.add_comm, List.take_succ_cons, List.drop_succ_cons, hsplit, List.take_left' (by simp),
        List.drop_left' (by simp)]
      exact .block hbody after
    · cases h
  · split at h <;> cases h

theorem commentLength?_closed {body : List Char} (h : ¬ ['*', '/'] <:+: body ++ ['*'])
    (after : List Char) : commentLength? (body ++ '*' :: '/' :: after) = some (body.length + 2) := by
  induction body with
  | nil => rfl
  | cons c body ih =>
    rw [List.cons_append, List.infix_cons_iff, not_or] at h
    rw [List.cons_append, commentLength?, ih h.2]
    · rfl
    · -- the comment is not closed here
      rintro rest rfl hrest
      apply h.1
      cases body with
      | nil => cases hrest
      | cons d body =>
        cases hrest
        exact ⟨_, rfl⟩

/-- What is a gap is skipped. -/
theorem atStart_of_gap {c : Char} {cs after : List Char} (h : Gap (c :: cs) after) :
    atStart c (cs ++ after) = (gap, cs.length) := by
  cases h with
  | blank hblank => exact if_pos hblank
  | @line body _ hbody hafter =>
    have hline : ((body ++ after).takeWhile (· ≠ '\n')).length = body.length :=
      length_takeWhile_append (fun d hd => by simpa using ne_of_mem_of_not_mem hd hbody)
        (by simpa using hafter)
    rw [List.cons_append, List.length_cons, Nat.add_comm, ← hline]
    rfl
  | @block body hbody =>
    have hclosed : commentLength? (body ++ ['*', '/'] ++ after) = some (body.length + 2) := by
      rw [List.append_assoc]
      exact commentLength?_closed hbody after
    have hlength : (body ++ ['*', '/']).length = body.length + 2 := List.length_append
    unfold atStart
    dsimp only
    rw [if_neg (by decide), if_neg (by decide), if_neg (by decide), if_neg (by decide), List.cons_append,
      List.length_cons, hlength, Nat.add_comm]
    simp only [hclosed]

theorem solid_of_atStart {c : Char} {cs : List Char} {piece : Piece} {n : Nat}
    (h : atStart c cs = (piece, n)) (hpiece : piece ≠ gap) : Solid (c :: cs) := by
  intro skipped after htext hgap
  cases skipped with
  | nil => cases hgap
  | cons d skipped =>
    rw [List.cons_append, List.cons.injEq] at htext
    obtain ⟨rfl, rfl⟩ := htext
    rw [atStart_of_gap hgap] at h
    cases h
    exact hpiece rfl

end Piece

/-! Places -/

namespace Span

/-- The byte is one of those in the span. -/
def Holds (s : Span) (n : Nat) : Prop := s.start ≤ n ∧ n < s.stop

/-- No byte is in both spans. -/
def Apart (s t : Span) : Prop := s.stop ≤ t.start ∨ t.stop ≤ s.start

/-- The span of a word that stands behind `before`. -/
def behind (offset : Nat) (before word : List Char) : Span :=
  ⟨offset + byteLength before, offset + byteLength before + byteLength word⟩

theorem behind_append (offset : Nat) (taken before word : List Char) :
    behind offset (taken ++ before) word = behind (offset + byteLength taken) before word := by
  simp only [behind, byteLength_append, Nat.add_assoc]

/-- The word stands in the place `s` of a text that begins at `offset`, and `after` behind it. -/
def Stands (s : Span) (text : List Char) (offset : Nat) (word after : List Char) : Prop :=
  ∃ before, text = before ++ (word ++ after) ∧ s = behind offset before word

theorem stands_front (offset : Nat) (word after : List Char) :
    Stands ⟨offset, offset + byteLength word⟩ (word ++ after) offset word after := ⟨[], rfl, rfl⟩

theorem Stands.append_left {s : Span} {text taken word after : List Char} {offset : Nat}
    (h : s.Stands text (offset + byteLength taken) word after) :
    s.Stands (taken ++ text) offset word after := by
  obtain ⟨before, rfl, rfl⟩ := h
  exact ⟨taken ++ before, by simp, (behind_append ..).symm⟩

end Span

/-- The byte stands in a gap of the text that no place reaches into. -/
def InGap (text : List Char) (offset : Nat) (places : List Span) (n : Nat) : Prop :=
  ∃ (s : Span) (gap after : List Char), s.Stands text offset gap after ∧ Gap gap after ∧ s.Holds n ∧
    ∀ p ∈ places, s.Apart p

theorem InGap.append_left {text taken : List Char} {offset n : Nat} {places places' : List Span}
    (h : InGap text (offset + byteLength taken) places n)
    (hplaces : ∀ p ∈ places', p ∈ places ∨ p.stop = offset + byteLength taken) :
    InGap (taken ++ text) offset places' n := by
  obtain ⟨s, gap, after, hstands, hgap, hholds, hapart⟩ := h
  refine ⟨s, gap, after, hstands.append_left, hgap, hholds, fun p hp => ?_⟩
  rcases hplaces p hp with hp | hp
  · exact hapart p hp
  · obtain ⟨before, _, rfl⟩ := hstands
    exact .inr (by simp only [Span.behind]; omega)

/-- The places are in the text, none is empty, and what none of them holds is in a gap. -/
structure Covers (text : List Char) (offset : Nat) (places : List Span) : Prop where
  nonempty : ∀ s ∈ places, s.start < s.stop
  inside : ∀ s ∈ places, offset ≤ s.start ∧ s.stop ≤ offset + byteLength text
  gaps : ∀ n, offset ≤ n → n < offset + byteLength text → (∀ s ∈ places, ¬ s.Holds n) →
    InGap text offset places n

namespace Covers

variable {taken rest : List Char} {offset : Nat} {places : List Span}

theorem nil (offset : Nat) : Covers [] offset [] where
  nonempty := by simp
  inside := by simp
  gaps n hle hlt := by
    rw [byteLength_nil] at hlt
    omega

theorem inside_append (h : Covers rest (offset + byteLength taken) places) :
    ∀ s ∈ places, offset ≤ s.start ∧ s.stop ≤ offset + byteLength (taken ++ rest) := by
  intro s hs
  have := h.inside s hs
  rw [byteLength_append]
  omega

/-- A gap in front needs no place. -/
theorem gap (hgap : Gap taken rest) (h : Covers rest (offset + byteLength taken) places) :
    Covers (taken ++ rest) offset places where
  nonempty := h.nonempty
  inside := h.inside_append
  gaps n hle hlt hfree := by
    by_cases hn : n < offset + byteLength taken
    · exact ⟨_, taken, rest, Span.stands_front .., hgap, ⟨hle, hn⟩, fun p hp => .inl (h.inside p hp).1⟩
    · rw [byteLength_append] at hlt
      exact (h.gaps n (by omega) (by omega) hfree).append_left fun s hs => .inl hs

/-- Anything else in front is a new place. -/
theorem place {places' : List Span} (hpos : 0 < byteLength taken)
    (h : Covers rest (offset + byteLength taken) places)
    (hplaces : ∀ s, s ∈ places' ↔ s = ⟨offset, offset + byteLength taken⟩ ∨ s ∈ places) :
    Covers (taken ++ rest) offset places' where
  nonempty s hs := by
    rcases (hplaces s).mp hs with rfl | hs
    · exact Nat.lt_add_of_pos_right hpos
    · exact h.nonempty s hs
  inside s hs := by
    rcases (hplaces s).mp hs with rfl | hs
    · rw [byteLength_append, ← Nat.add_assoc]
      exact ⟨Nat.le_refl _, Nat.le_add_right _ _⟩
    · exact h.inside_append s hs
  gaps n hle hlt hfree := by
    have hbehind : offset + byteLength taken ≤ n := by
      by_contra hn
      exact hfree _ ((hplaces _).mpr (.inl rfl)) ⟨hle, Nat.lt_of_not_le hn⟩
    rw [byteLength_append] at hlt
    refine (h.gaps n hbehind (by omega) fun s hs => hfree s ((hplaces s).mpr (.inr hs))).append_left ?_
    intro s hs
    rcases (hplaces s).mp hs with rfl | hs
    · exact .inr rfl
    · exact .inl hs

end Covers

namespace Scan

/-- The places of the tokens and of what is no token. -/
def spans (scan : Scan) : List Span := scan.lexemes.map Lexeme.span ++ scan.errors

/-- What is found takes the text apart: its places cover it up to gaps, they are in order and do not
meet; each token stands in its place and is the longest there; each other place is no token; and no
place could have begun with a gap. -/
structure Partitions (text : List Char) (offset : Nat) (scan : Scan) : Prop where
  covers : Covers text offset scan.spans
  lexemes : scan.lexemes.Pairwise fun l m => l.span.stop ≤ m.span.start
  errors : scan.errors.Pairwise fun s t => s.stop ≤ t.start
  apart : ∀ l ∈ scan.lexemes, ∀ s ∈ scan.errors, l.span.Apart s
  tokens : ∀ l ∈ scan.lexemes, ∃ after, l.span.Stands text offset l.token.text.toList after ∧
    l.token.Longest (l.token.text.toList ++ after) ∧ Solid (l.token.text.toList ++ after)
  others : ∀ s ∈ scan.errors, ∃ word after, s.Stands text offset word after ∧
    Unread word after ∧ Solid (word ++ after)

namespace Partitions

variable {taken rest : List Char} {offset : Nat} {scan : Scan}

theorem tokens_append (h : scan.Partitions rest (offset + byteLength taken)) : ∀ l ∈ scan.lexemes,
    ∃ after, l.span.Stands (taken ++ rest) offset l.token.text.toList after ∧
      l.token.Longest (l.token.text.toList ++ after) ∧ Solid (l.token.text.toList ++ after) :=
  fun l hl => (h.tokens l hl).imp fun _ hafter => hafter.imp_left Span.Stands.append_left

theorem others_append (h : scan.Partitions rest (offset + byteLength taken)) : ∀ s ∈ scan.errors,
    ∃ word after, s.Stands (taken ++ rest) offset word after ∧ Unread word after ∧
      Solid (word ++ after) :=
  fun s hs => (h.others s hs).imp fun _ hword =>
    hword.imp fun _ hafter => hafter.imp_left Span.Stands.append_left

theorem lexeme_start (h : scan.Partitions rest offset) {l : Lexeme} (hl : l ∈ scan.lexemes) :
    offset ≤ l.span.start :=
  (h.covers.inside l.span (List.mem_append_left _ (List.mem_map_of_mem hl))).1

theorem error_start (h : scan.Partitions rest offset) {s : Span} (hs : s ∈ scan.errors) :
    offset ≤ s.start :=
  (h.covers.inside s (List.mem_append_right _ hs)).1

theorem gap (hgap : Gap taken rest) (h : scan.Partitions rest (offset + byteLength taken)) :
    scan.Partitions (taken ++ rest) offset :=
  ⟨h.covers.gap hgap, h.lexemes, h.errors, h.apart, h.tokens_append, h.others_append⟩

theorem token {t : Token} (hpos : 0 < byteLength taken) (ht : t.text.toList = taken)
    (hlongest : t.Longest (taken ++ rest)) (hsolid : Solid (taken ++ rest))
    (h : scan.Partitions rest (offset + byteLength taken)) (fresh : Bool) :
    Partitions (taken ++ rest) offset
      { scan with lexemes := ⟨t, ⟨offset, offset + byteLength taken⟩, fresh⟩ :: scan.lexemes } where
  covers := h.covers.place hpos fun s => by simp [spans]
  lexemes := .cons (fun _ hl => h.lexeme_start hl) h.lexemes
  errors := h.errors
  apart := by
    simp only [List.forall_mem_cons]
    exact ⟨fun s hs => .inl (h.error_start hs), h.apart⟩
  tokens := by
    simp only [List.forall_mem_cons, ht]
    exact ⟨⟨rest, Span.stands_front .., hlongest, hsolid⟩, h.tokens_append⟩
  others := h.others_append

theorem error (hpos : 0 < byteLength taken) (hunread : Unread taken rest)
    (hsolid : Solid (taken ++ rest)) (h : scan.Partitions rest (offset + byteLength taken)) :
    Partitions (taken ++ rest) offset
      { scan with errors := ⟨offset, offset + byteLength taken⟩ :: scan.errors } where
  covers := h.covers.place hpos fun s => by simp [spans, or_left_comm]
  lexemes := h.lexemes
  errors := .cons (fun _ hs => h.error_start hs) h.errors
  apart l hl := by
    simp only [List.forall_mem_cons]
    exact ⟨.inr (h.lexeme_start hl), h.apart l hl⟩
  tokens := h.tokens_append
  others := by
    simp only [List.forall_mem_cons]
    exact ⟨⟨taken, rest, Span.stands_front .., hunread, hsolid⟩, h.others_append⟩

end Partitions

theorem partitions_read (cs : List Char) (pos : Nat) (fresh : Bool) :
    (read cs pos fresh).Partitions cs pos := by
  -- a step takes a piece from the front
  have hsplit (c : Char) (rest : List Char) (n : Nat) :
      c :: rest = (c :: rest.take n) ++ rest.drop n := by simp
  have hpos (c : Char) (rest : List Char) : 0 < byteLength (c :: rest) :=
    Nat.add_pos_left c.utf8Size_pos _
  fun_induction read cs pos fresh with
  | case1 pos fresh => exact ⟨.nil pos, .nil, .nil, by simp, by simp, by simp⟩
  | case2 pos fresh c rest n taken stop hpiece ih =>
    rw [hsplit c rest n]
    exact ih.gap (Piece.gap_of_atStart hpiece)
  | case3 pos fresh c rest n taken stop t scan hpiece ih =>
    have hlongest := Piece.longest_of_atStart hpiece
    have hsolid := Piece.solid_of_atStart hpiece (by simp)
    rw [hsplit c rest n] at hlongest hsolid ⊢
    exact ih.token (hpos c _) (Piece.text_of_atStart hpiece) hlongest hsolid fresh
  | case4 pos fresh c rest n taken stop scan hpiece ih =>
    have hsolid := Piece.solid_of_atStart hpiece (by simp)
    rw [hsplit c rest n] at hsolid ⊢
    exact ih.error (hpos c _) (Piece.unread_of_atStart hpiece) hsolid

/-- Every text is taken apart, and how does not depend on where it stands. -/
theorem ofText_partitions (text : List Char) (offset : Nat) :
    (ofText text offset).Partitions text offset ∧
      ofText text offset = ⟨(ofText text 0).lexemes.map (Lexeme.shift offset),
        (ofText text 0).errors.map (Span.shift offset)⟩ := by
  refine ⟨partitions_read text offset false, ?_⟩
  have hshift := read_shift offset text 0 false
  rwa [Nat.zero_add] at hshift

end Scan

end Tern
