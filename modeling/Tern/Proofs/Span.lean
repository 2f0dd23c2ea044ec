import Mathlib.Data.List.Basic
import Tern.Parse.Template

/-!
Spans as places in a text: a span starts and ends between characters, and the tokens of a text stand
one after the other where their spans say. The same holds for the holes of a string.
-/

set_option autoImplicit false

namespace Tern

/-- The byte offset `n` lies between two characters of the text, or at one of its ends. -/
def Boundary (text : List Char) (n : Nat) : Prop :=
  ∃ before after, text = before ++ after ∧ byteLength before = n

theorem Boundary.le {text : List Char} {n : Nat} (h : Boundary text n) : n ≤ byteLength text := by
  obtain ⟨before, after, rfl, rfl⟩ := h
  rw [byteLength_append]
  omega

theorem boundary_zero (text : List Char) : Boundary text 0 := ⟨[], text, rfl, rfl⟩

/-- The word stands in the text at the byte offset `pos`. -/
def Occurs (text : List Char) (pos : Nat) (word : List Char) : Prop :=
  ∃ before after, text = before ++ (word ++ after) ∧ byteLength before = pos

namespace Occurs

variable {text u v : List Char} {pos : Nat}

theorem self (text : List Char) : Occurs text 0 text := ⟨[], [], by simp, rfl⟩

theorem boundary (h : Occurs text pos u) : Boundary text pos := by
  obtain ⟨before, after, rfl, rfl⟩ := h
  exact ⟨before, _, rfl, rfl⟩

theorem left (h : Occurs text pos (u ++ v)) : Occurs text pos u := by
  obtain ⟨before, after, rfl, rfl⟩ := h
  exact ⟨before, v ++ after, by simp, rfl⟩

theorem right (h : Occurs text pos (u ++ v)) : Occurs text (pos + byteLength u) v := by
  obtain ⟨before, after, rfl, rfl⟩ := h
  exact ⟨before ++ u, after, by simp, byteLength_append before u⟩

theorem boundary_stop (h : Occurs text pos u) : Boundary text (pos + byteLength u) :=
  boundary (right (v := []) (by simpa using h))

theorem tail {c : Char} (h : Occurs text pos (c :: u)) : Occurs text (pos + c.utf8Size) u :=
  right (u := [c]) h

end Occurs

namespace Span

/-- The span is a place in the text. -/
structure Fits (text : List Char) (s : Span) : Prop where
  ordered : s.start ≤ s.stop
  inside : s.stop ≤ byteLength text
  start : Boundary text s.start
  stop : Boundary text s.stop

theorem fits_of_boundaries {text : List Char} {s : Span} (hle : s.start ≤ s.stop)
    (hstart : Boundary text s.start) (hstop : Boundary text s.stop) : s.Fits text :=
  ⟨hle, hstop.le, hstart, hstop⟩

theorem fits_zero (text : List Char) : (⟨0, 0⟩ : Span).Fits text :=
  fits_of_boundaries (Nat.le_refl _) (boundary_zero text) (boundary_zero text)

theorem Fits.join {text : List Char} {s t : Span} (hs : s.Fits text) (ht : t.Fits text) :
    (s.join t).Fits text := by
  apply fits_of_boundaries
  · have := hs.ordered
    simp only [Span.join]
    omega
  · rcases Nat.le_total s.start t.start with h | h
    · simpa [Span.join, h] using hs.start
    · simpa [Span.join, h] using ht.start
  · rcases Nat.le_total s.stop t.stop with h | h
    · simpa [Span.join, h] using ht.stop
    · simpa [Span.join, h] using hs.stop

/-- What stands in the text at this place is the word. -/
structure Reads (s : Span) (text word : List Char) : Prop where
  occurs : Occurs text s.start word
  stop : s.stop = s.start + byteLength word

theorem Reads.fits {s : Span} {text word : List Char} (h : s.Reads text word) : s.Fits text := by
  have hstop := h.occurs.boundary_stop
  rw [← h.stop] at hstop
  exact fits_of_boundaries (by rw [h.stop]; omega) h.occurs.boundary hstop

/-- The span is a place in the text, and not outside of another one. -/
structure In (text : List Char) (s outer : Span) : Prop where
  fits : s.Fits text
  start : outer.start ≤ s.start
  stop : s.stop ≤ outer.stop

theorem In.mono {text : List Char} {outer outer' s : Span} (h : s.In text outer)
    (hstart : outer'.start ≤ outer.start) (hstop : outer.stop ≤ outer'.stop) : s.In text outer' :=
  ⟨h.fits, Nat.le_trans hstart h.start, Nat.le_trans h.stop hstop⟩

theorem In.trans {text : List Char} {outer s t : Span} (h : t.In text s) (k : s.In text outer) :
    t.In text outer := h.mono k.start k.stop

theorem In.join {text : List Char} {outer s t : Span} (hs : s.In text outer) (ht : t.In text outer) :
    (s.join t).In text outer := by
  refine ⟨hs.fits.join ht.fits, ?_, ?_⟩
  · have := hs.start
    have := ht.start
    simp only [Span.join]
    omega
  · have := hs.stop
    have := ht.stop
    simp only [Span.join]
    omega

theorem Fits.in_join_left {text : List Char} {s : Span} (hs : s.Fits text) (t : Span) :
    s.In text (s.join t) :=
  ⟨hs, Nat.min_le_left _ _, Nat.le_max_left _ _⟩

theorem Fits.in_join_right {text : List Char} {t : Span} (s : Span) (ht : t.Fits text) :
    t.In text (s.join t) :=
  ⟨ht, Nat.min_le_right _ _, Nat.le_max_right _ _⟩

end Span

/-! Tokens -/

namespace Piece

theorem text_of_ofText? {word : String} {k : Keyword} (h : Keyword.ofText? word = some k) :
    k.text = word := by
  have := List.find?_some h
  exact eq_of_beq this

theorem take_of_ofStart? {c : Char} {cs : List Char} {m : Mark} (h : Mark.ofStart? (c :: cs) = some m) :
    c :: cs.take (m.text.length - 1) = m.text.toList := by
  have hfits : m.text.toList.isPrefixOf (c :: cs) = true :=
    List.find?_some (p := fun m : Mark => m.text.toList.isPrefixOf (c :: cs)) h
  have hstart := List.isPrefixOf_iff_prefix.mp hfits
  have hpos : 0 < m.text.length := by cases m <;> decide
  rw [List.prefix_iff_eq_take, String.length_toList] at hstart
  obtain ⟨n, hn⟩ := Nat.exists_eq_succ_of_ne_zero (Nat.ne_of_gt hpos)
  rw [hstart, hn]
  simp

/-- A token is written as the piece of the text that was read for it. -/
theorem text_of_atStart {c : Char} {cs : List Char} {t : Token} {n : Nat}
    (h : atStart c cs = (token t, n)) : t.text.toList = c :: cs.take n := by
  unfold atStart at h
  dsimp only at h
  repeat' split at h
  all_goals obtain ⟨h, rfl⟩ := Prod.mk.inj h
  all_goals cases h
  all_goals try exact String.toList_ofList
  · rename_i heq
    rw [Token.text, text_of_ofText? heq, String.toList_ofList]
  · rename_i heq
    exact (take_of_ofStart? heq).symm

/-- Only strings start with a quote, and all of them do. -/
theorem quote_of_atStart {c : Char} {cs : List Char} {raw : String} {n : Nat}
    (h : atStart c cs = (token (.string raw), n)) : c = '"' := by
  unfold atStart at h
  dsimp only at h
  repeat' split at h
  all_goals obtain ⟨h, rfl⟩ := Prod.mk.inj h
  all_goals cases h
  all_goals assumption

end Piece

/-- The token stands where its span says, and a string starts with a quote. -/
structure Lexeme.Stands (text : List Char) (l : Lexeme) : Prop where
  reads : l.span.Reads text l.token.text.toList
  quoted : ∀ raw, l.token = .string raw → raw.toList.head? = some '"'

/-- The tokens stand in the text one after the other, between two places. -/
def Lexeme.AllStand (text : List Char) (start stop : Nat) : List Lexeme → Prop
  | [] => start ≤ stop
  | l :: ls => start ≤ l.span.start ∧ l.Stands text ∧ AllStand text l.span.stop stop ls

theorem Lexeme.AllStand.le {text : List Char} {start stop : Nat} {ls : List Lexeme}
    (h : AllStand text start stop ls) : start ≤ stop := by
  induction ls generalizing start with
  | nil => exact h
  | cons l ls ih =>
    obtain ⟨hstart, hl, hls⟩ := h
    have := hl.reads.fits.ordered
    have := ih hls
    omega

theorem Lexeme.AllStand.stop_le {text : List Char} {start stop : Nat} {ls : List Lexeme}
    (h : AllStand text start stop ls) : ∀ l ∈ ls, l.span.stop ≤ stop := by
  induction ls generalizing start with
  | nil => simp
  | cons m ls ih =>
    obtain ⟨_, _, hls⟩ := h
    intro l hl
    rcases List.mem_cons.mp hl with rfl | hl
    · exact hls.le
    · exact ih hls l hl

theorem Lexeme.AllStand.mono {text : List Char} {start start' stop : Nat} {ls : List Lexeme}
    (h : AllStand text start stop ls) (hle : start' ≤ start) : AllStand text start' stop ls := by
  cases ls with
  | nil => exact Nat.le_trans hle h
  | cons l ls => exact ⟨Nat.le_trans hle h.1, h.2⟩

namespace Scan

theorem stands_read {text : List Char} (cs : List Char) (pos : Nat) (fresh : Bool)
    (h : Occurs text pos cs) :
    Lexeme.AllStand text pos (pos + byteLength cs) (read cs pos fresh).lexemes ∧
      ∀ s ∈ (read cs pos fresh).errors, s.Fits text := by
  -- a step takes a piece from the front
  have hsplit (c : Char) (rest : List Char) (n : Nat) :
      c :: rest = (c :: rest.take n) ++ rest.drop n := by simp
  have hlength (c : Char) (rest : List Char) (n : Nat) :
      byteLength (c :: rest) = byteLength (c :: rest.take n) + byteLength (rest.drop n) := by
    rw [← byteLength_append, ← hsplit]
  fun_induction read cs pos fresh with
  | case1 pos fresh => exact ⟨Nat.le_refl _, by simp⟩
  | case2 pos fresh c rest n taken stop hpiece ih =>
    rw [hsplit c rest n] at h
    obtain ⟨htokens, herrors⟩ := ih h.right
    rw [hlength c rest n, ← Nat.add_assoc]
    exact ⟨htokens.mono (Nat.le_add_right _ _), herrors⟩
  | case3 pos fresh c rest n taken stop t scan hpiece ih =>
    rw [hsplit c rest n] at h
    obtain ⟨htokens, herrors⟩ := ih h.right
    have hword : t.text.toList = taken := Piece.text_of_atStart hpiece
    rw [hlength c rest n, ← Nat.add_assoc]
    refine ⟨⟨Nat.le_refl _, ⟨?_, ?_⟩, htokens⟩, herrors⟩
    · rw [hword]
      exact ⟨h.left, rfl⟩
    · rintro raw rfl
      have hquote := Piece.quote_of_atStart hpiece
      change raw.toList = taken at hword
      rw [hword]
      simp [taken, hquote]
  | case4 pos fresh c rest n taken stop scan hpiece ih =>
    rw [hsplit c rest n] at h
    obtain ⟨htokens, herrors⟩ := ih h.right
    rw [hlength c rest n, ← Nat.add_assoc]
    refine ⟨htokens.mono (Nat.le_add_right _ _), ?_⟩
    intro s hs
    rcases List.mem_cons.mp hs with rfl | hs
    · have hreads : (⟨pos, stop⟩ : Span).Reads text taken := ⟨h.left, rfl⟩
      exact hreads.fits
    · exact herrors s hs

end Scan

/-! Holes of strings -/

namespace Parse

def Hole.span : Hole → Span
  | name _ span => span
  | code cs offset => ⟨offset, offset + byteLength cs⟩

/-- What is written in the hole. -/
def Hole.word : Hole → List Char
  | name x _ => x.toList
  | code cs _ => cs

/-- The hole stands in the text inside of a span. -/
structure Hole.Stands (text : List Char) (outer : Span) (h : Hole) : Prop where
  reads : h.span.Reads text h.word
  start : outer.start ≤ h.span.start
  stop : h.span.stop ≤ outer.stop

namespace Template

structure Stands (text : List Char) (outer : Span) (t : Template) : Prop where
  holes : ∀ x ∈ t.holes, x.2.Stands text outer
  unclosed : ∀ p ∈ t.unclosed, (⟨p, p + 2⟩ : Span).Fits text

theorem stands_of_tail (text : List Char) (outer : Span) (tail : String) :
    (⟨[], tail, none⟩ : Template).Stands text outer := ⟨by simp, by simp⟩

theorem Stands.cons {text : List Char} {outer : Span} {t : Template} (h : t.Stands text outer)
    (before : List Char) {hole : Hole} (hh : hole.Stands text outer) :
    (t.cons before hole).Stands text outer where
  holes := by
    intro x hx
    rcases List.mem_cons.mp hx with rfl | hx
    · exact hh
    · exact h.holes x hx
  unclosed := h.unclosed

/-- The code in a hole ends at a brace. -/
theorem split_of_codeLength? {depth n : Nat} {cs : List Char} (h : codeLength? depth cs = some n) :
    cs = cs.take n ++ '\x7d' :: cs.drop (n + 1) := by
  induction cs generalizing depth n with
  | nil => simp [codeLength?] at h
  | cons c cs ih =>
    rw [codeLength?] at h
    split at h
    · rename_i hc
      cases h
      simp [hc.1]
    · obtain ⟨m, hm, rfl⟩ := Option.map_eq_some_iff.mp h
      have := ih hm
      simpa using this

theorem split_takeWhile (p : Char → Bool) (cs : List Char) :
    cs = cs.takeWhile p ++ cs.drop (cs.takeWhile p).length := by
  have hsplit := List.takeWhile_append_dropWhile (p := p) (l := cs)
  have hdrop := congrArg (List.drop (cs.takeWhile p).length) hsplit
  rw [List.drop_left] at hdrop
  rw [← hdrop, hsplit]

theorem stands_read {text : List Char} {outer : Span} (cs : List Char) (pos : Nat) (acc : List Char)
    (h : Occurs text pos cs) (hstart : outer.start ≤ pos) (hstop : pos + byteLength cs ≤ outer.stop) :
    (read cs pos acc).Stands text outer := by
  fun_induction read cs pos acc with
  | case1 pos acc => exact stands_of_tail text outer _
  | case2 pos acc => exact stands_of_tail text outer _
  | case3 pos acc e rest ih =>
    have hsize : byteLength ('\\' :: e :: rest) = 1 + (e.utf8Size + byteLength rest) := rfl
    rw [hsize] at hstop
    exact ih h.tail.tail (by omega) (by omega)
  | case4 pos acc c rest h1 h2 code hcode =>
    obtain ⟨rfl, hbrace⟩ := h2
    obtain ⟨code', rfl⟩ := List.head?_eq_some_iff.mp hbrace
    refine ⟨by simp, ?_⟩
    intro p hp
    obtain rfl : pos = p := by simpa using hp
    have hreads : (⟨pos, pos + 2⟩ : Span).Reads text ['$', '\x7b'] := ⟨h.left (v := code'), rfl⟩
    exact hreads.fits
  | case5 pos acc c rest h1 h2 code n hn inside ih =>
    obtain ⟨rfl, hbrace⟩ := h2
    obtain ⟨code', rfl⟩ := List.head?_eq_some_iff.mp hbrace
    have hsplit : code' = inside ++ '\x7d' :: code.drop (n + 1) := split_of_codeLength? hn
    have hinside : Occurs text (pos + 2) (inside ++ '\x7d' :: code.drop (n + 1)) := by
      rw [← hsplit]
      exact h.tail.tail
    have hsize : byteLength ('$' :: '\x7b' :: code') =
        2 + (byteLength inside + (1 + byteLength (code.drop (n + 1)))) := by
      have : byteLength ('$' :: '\x7b' :: code') = 2 + byteLength code' := by
        simp only [byteLength_cons, ← Nat.add_assoc]
        rfl
      rw [this, hsplit, byteLength_append]
      rfl
    rw [hsize] at hstop
    have hafter : pos + 2 + byteLength inside + '\x7d'.utf8Size = pos + 3 + byteLength inside := by
      change pos + 2 + byteLength inside + 1 = _
      omega
    apply Stands.cons
    · exact ih (hafter ▸ hinside.right.tail) (by omega) (by omega)
    · refine ⟨⟨hinside.left, rfl⟩, ?_, ?_⟩
      · change _ ≤ pos + 2
        omega
      · change pos + 2 + byteLength inside ≤ _
        omega
  | case6 pos acc c rest h1 h2 h3 name stop ih =>
    obtain ⟨rfl, _⟩ := h3
    have hsplit : rest = name ++ rest.drop name.length := split_takeWhile _ rest
    have hname : Occurs text (pos + 1) (name ++ rest.drop name.length) := by
      rw [← hsplit]
      exact h.tail
    have hsize : byteLength ('$' :: rest) =
        1 + (byteLength name + byteLength (rest.drop name.length)) := by
      rw [← byteLength_append, ← hsplit]
      rfl
    rw [hsize] at hstop
    apply Stands.cons
    · exact ih hname.right (by omega) (by omega)
    · refine ⟨⟨?_, ?_⟩, ?_, ?_⟩
      · simpa [Hole.word, Hole.span] using hname.left
      · simp [Hole.word, Hole.span, stop]
      · change _ ≤ pos + 1
        omega
      · change pos + 1 + byteLength name ≤ _
        omega
  | case7 pos acc c rest h1 h2 h3 ih =>
    rw [byteLength_cons] at hstop
    exact ih h.tail (by omega) (by omega)

/-- The holes of a string token are inside of it. -/
theorem stands_ofToken {text : List Char} {span : Span} {raw : String}
    (hreads : span.Reads text raw.toList) (hquote : raw.toList.head? = some '"') :
    (ofToken raw span.start).Stands text span := by
  obtain ⟨rest, hraw⟩ := List.head?_eq_some_iff.mp hquote
  have hinner : rest.dropLast ++ rest.getLast?.toList = rest := by
    rcases List.eq_nil_or_concat rest with rfl | ⟨init, last, rfl⟩ <;> simp
  have hsize : byteLength raw.toList =
      1 + (byteLength rest.dropLast + byteLength rest.getLast?.toList) := by
    rw [hraw, ← byteLength_append, hinner]
    rfl
  have hoccurs : Occurs text (span.start + 1) (rest.dropLast ++ rest.getLast?.toList) := by
    rw [hinner]
    exact (hraw ▸ hreads.occurs).tail
  have hstop := hreads.stop
  rw [hsize] at hstop
  unfold ofToken
  rw [hraw, List.tail_cons]
  exact stands_read _ _ _ hoccurs.left (by omega) (by omega)

end Template

end Parse

end Tern
