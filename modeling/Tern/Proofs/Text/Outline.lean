import Mathlib.Data.List.Basic
import Tern.Text.Outline

/-!
Outlines can be read back. From the text of an outline its lines are found by the line breaks, and
the tree by how far in the lines stand; this holds for several outlines one below the other too, and
blanks around the text make no difference.
-/

set_option autoImplicit false

namespace Tern.Text

/-- Two texts that go on only with characters which do not occur in them: together with what follows
they can be told apart. -/
theorem append_inj_of_stops {stops : Char → Bool} {l l' r r' : List Char}
    (hl : ∀ c ∈ l, stops c = false) (hl' : ∀ c ∈ l', stops c = false)
    (hr : ∀ c ∈ r.head?, stops c = true) (hr' : ∀ c ∈ r'.head?, stops c = true)
    (h : l ++ r = l' ++ r') : l = l' ∧ r = r' := by
  induction l generalizing l' with
  | nil =>
    cases l' with
    | nil => exact ⟨rfl, h⟩
    | cons c l' =>
      have hstop := hr c (by rw [List.nil_append] at h; simp [h])
      simp [hl' c List.mem_cons_self] at hstop
  | cons c l ih =>
    cases l' with
    | nil =>
      have hstop := hr' c (by rw [List.nil_append] at h; simp [← h])
      simp [hl c List.mem_cons_self] at hstop
    | cons c' l' =>
      obtain ⟨rfl, htail⟩ := List.cons.inj h
      obtain ⟨rfl, rfl⟩ := ih (fun d hd => hl d (List.mem_cons_of_mem c hd))
        (fun d hd => hl' d (List.mem_cons_of_mem c hd)) htail
      exact ⟨rfl, rfl⟩

/-! Lines -/

/-- There is no line break in the text. -/
def Unbroken (s : String) : Prop := '\n' ∉ s.toList

/-- The beginning of a line, which shows how far in the line stands. -/
structure Opens (s : String) : Prop where
  unbroken : Unbroken s
  first : s.toList.head?.any (fun c => !isBlank c) = true

/-- The end of a line, which shows where the line ends. -/
structure Closes (s : String) : Prop where
  unbroken : Unbroken s
  last : s.toList.getLast?.any (fun c => !isBlank c) = true

def IsLine (s : String) : Prop := Opens s ∧ Closes s

instance (s : String) : Decidable (Unbroken s) := inferInstanceAs (Decidable (¬ _))

instance (s : String) : Decidable (Opens s) :=
  decidable_of_iff (Unbroken s ∧ s.toList.head?.any (fun c => !isBlank c) = true)
    ⟨fun h => ⟨h.1, h.2⟩, fun h => ⟨h.1, h.2⟩⟩

instance (s : String) : Decidable (Closes s) :=
  decidable_of_iff (Unbroken s ∧ s.toList.getLast?.any (fun c => !isBlank c) = true)
    ⟨fun h => ⟨h.1, h.2⟩, fun h => ⟨h.1, h.2⟩⟩

instance (s : String) : Decidable (IsLine s) := inferInstanceAs (Decidable (_ ∧ _))

section

variable {s t : String}

theorem Unbroken.append (hs : Unbroken s) (ht : Unbroken t) : Unbroken (s ++ t) := by
  rw [Unbroken, String.toList_append, List.mem_append, not_or]
  exact ⟨hs, ht⟩

theorem Unbroken.intercalate {ls : List String} (hs : Unbroken s) (hls : ∀ l ∈ ls, Unbroken l) :
    Unbroken (s.intercalate ls) := by
  rw [Unbroken, String.toList_intercalate]
  induction ls with
  | nil => simp
  | cons l ls ih =>
    rw [List.forall_mem_cons] at hls
    cases ls with
    | nil =>
      rw [List.map_singleton, List.intercalate_singleton]
      exact hls.1
    | cons l' ls =>
      simp only [List.map_cons, List.intercalate_cons_cons, List.mem_append, not_or]
      exact ⟨⟨hls.1, hs⟩, ih hls.2⟩

theorem Opens.append (hs : Opens s) (ht : Unbroken t) : Opens (s ++ t) := by
  refine ⟨hs.unbroken.append ht, ?_⟩
  have hfirst := hs.first
  rw [String.toList_append]
  cases h : s.toList with
  | nil => simp [h] at hfirst
  | cons c cs => simpa [h] using hfirst

theorem Closes.append (ht : Closes t) (hs : Unbroken s) : Closes (s ++ t) := by
  refine ⟨hs.append ht.unbroken, ?_⟩
  have hlast := ht.last
  rw [String.toList_append, List.getLast?_append]
  cases h : t.toList.getLast? with
  | none => simp [h] at hlast
  | some c => simpa [h] using hlast

theorem isLine_append (hs : Opens s) (ht : Closes t) : IsLine (s ++ t) :=
  ⟨hs.append ht.unbroken, ht.append hs.unbroken⟩

end

theorem toList_ofLines (ls : List String) :
    (ofLines ls).toList = ls.flatMap fun l => l.toList ++ ['\n'] := by
  simp [ofLines, List.flatMap_map]

theorem ofLines_inj {ls ls' : List String} (hls : ∀ l ∈ ls, Unbroken l)
    (hls' : ∀ l ∈ ls', Unbroken l) (h : ofLines ls = ofLines ls') : ls = ls' := by
  rw [← String.toList_inj, toList_ofLines, toList_ofLines] at h
  induction ls generalizing ls' with
  | nil => cases ls' <;> simp at h ⊢
  | cons l ls ih =>
    cases ls' with
    | nil => simp at h
    | cons l' ls' =>
      simp only [List.flatMap_cons, List.append_assoc] at h
      rw [List.forall_mem_cons] at hls hls'
      have hstops {l : String} (hl : Unbroken l) : ∀ c ∈ l.toList, decide (c = '\n') = false :=
        fun c hc => decide_eq_false fun heq => hl (heq ▸ hc)
      obtain ⟨hline, hrest⟩ :=
        append_inj_of_stops (hstops hls.1) (hstops hls'.1) (by simp) (by simp) h
      rw [String.toList_inj.mp hline, ih hls.2 hls'.2 (List.cons.inj hrest).2]

theorem dropWhile_isBlank {cs : List Char} (h : cs.head?.any (fun c => !isBlank c) = true) :
    cs.dropWhile isBlank = cs := by
  cases cs with
  | nil => rfl
  | cons c cs =>
    rw [List.dropWhile_cons_of_neg]
    simpa using h

/-- Of the blanks around the text there is only the line break at its end. -/
theorem trim_ofLines {ls : List String} (hne : ls ≠ []) (hfirst : ∀ l ∈ ls.head?, Opens l)
    (hlast : ∀ l ∈ ls.getLast?, Closes l) :
    (ofLines ls).toList = (trim (ofLines ls)).toList ++ ['\n'] := by
  obtain ⟨init, l, rfl⟩ := (List.eq_nil_or_concat' ls).resolve_left hne
  obtain ⟨cs, hcs⟩ : ∃ cs, (ofLines (init ++ [l])).toList = cs ++ ['\n'] ∧
      cs.reverse.head?.any (fun c => !isBlank c) = true := by
    refine ⟨init.flatMap (fun l => l.toList ++ ['\n']) ++ l.toList, by simp [toList_ofLines], ?_⟩
    have hl := (hlast l (by simp)).last
    rw [List.head?_reverse, List.getLast?_append]
    cases h : l.toList.getLast? with
    | none => simp [h] at hl
    | some c => simpa [h] using hl
  have hopen : (ofLines (init ++ [l])).toList.head?.any (fun c => !isBlank c) = true := by
    obtain ⟨x, rest, hx⟩ := List.exists_cons_of_ne_nil hne
    have hfirst := (hfirst x (by simp [hx])).first
    rw [hx, toList_ofLines, List.flatMap_cons, List.append_assoc]
    cases h : x.toList with
    | nil => simp [h] at hfirst
    | cons c cs => simpa [h] using hfirst
  rw [trim, String.toList_ofList, dropWhile_isBlank hopen, hcs.1, List.reverse_append]
  have hbreak : (['\n'].reverse ++ cs.reverse).dropWhile isBlank = cs.reverse := by
    rw [List.reverse_singleton, List.singleton_append, List.dropWhile_cons_of_pos (by decide),
      dropWhile_isBlank hcs.2]
  rw [hbreak, List.reverse_reverse]

namespace Outline

/-! Depth -/

mutual
/-- The lines of an outline as they are without a depth. -/
def contents : Outline → List String
  | node line parts => line :: contentsAll parts
def contentsAll : List Outline → List String
  | [] => []
  | o :: os => o.contents ++ contentsAll os
end

theorem toList_indented (d : Nat) (l : String) :
    (indented d l).toList = List.replicate (2 * d) ' ' ++ l.toList := by
  simp [indented, blanks]

theorem indented_inj {d d' : Nat} {l l' : String} (hl : IsLine l) (hl' : IsLine l')
    (h : indented d l = indented d' l') : d = d' ∧ l = l' := by
  rw [← String.toList_inj, toList_indented, toList_indented] at h
  have hblanks (n : Nat) : ∀ c ∈ List.replicate n ' ', (!isBlank c) = false := by
    intro c hc
    rw [List.eq_of_mem_replicate hc]
    decide
  have hfirst {l : String} (hl : IsLine l) : ∀ c ∈ l.toList.head?, (!isBlank c) = true := by
    intro c hc
    simpa [Option.mem_def.mp hc] using hl.1.first
  obtain ⟨hdepth, hline⟩ :=
    append_inj_of_stops (hblanks _) (hblanks _) (hfirst hl) (hfirst hl') h
  have hlength := congrArg List.length hdepth
  simp only [List.length_replicate] at hlength
  exact ⟨by omega, String.toList_inj.mp hline⟩

theorem closes_indented {l : String} (hl : IsLine l) (d : Nat) : Closes (indented d l) := by
  refine hl.2.append ?_
  rw [Unbroken, blanks, String.toList_ofList]
  exact fun hmem => absurd (List.eq_of_mem_replicate hmem) (by decide)

/-- The lines go on, if at all, with one that stands less far in. -/
def Returns (d : Nat) (ls : List String) : Prop :=
  ∀ x ∈ ls.head?, ∃ e l, e < d ∧ IsLine l ∧ x = indented e l

theorem Returns.mono {d e : Nat} {ls : List String} (h : Returns d ls) (hde : d ≤ e) :
    Returns e ls := by
  intro x hx
  obtain ⟨k, l, hk, hl, rfl⟩ := h x hx
  exact ⟨k, l, Nat.lt_of_lt_of_le hk hde, hl, rfl⟩

/-- A further outline begins less far in than the parts of the one before. -/
theorem returns_linesAll {d : Nat} {os : List Outline} {rest : List String}
    (hos : ∀ l ∈ contentsAll os, IsLine l) (h : Returns d rest) :
    Returns (d + 1) (linesAll d os ++ rest) := by
  cases os with
  | nil => exact h.mono (Nat.le_succ d)
  | cons o os =>
    cases o with
    | node line parts =>
      intro x hx
      obtain rfl : indented d line = x := by simpa [linesAll, lines] using hx
      exact ⟨d, line, Nat.lt_succ_self d, hos line (by simp [contentsAll, contents]), rfl⟩

mutual

theorem lines_append_inj (o o' : Outline) {d : Nat} {rest rest' : List String}
    (ho : ∀ l ∈ o.contents, IsLine l) (ho' : ∀ l ∈ o'.contents, IsLine l)
    (hr : Returns (d + 1) rest) (hr' : Returns (d + 1) rest')
    (h : lines d o ++ rest = lines d o' ++ rest') : o = o' ∧ rest = rest' := by
  cases o with
  | node line parts =>
    cases o' with
    | node line' parts' =>
      rw [contents, List.forall_mem_cons] at ho ho'
      rw [lines, lines, List.cons_append, List.cons_append] at h
      obtain ⟨hline, hparts⟩ := List.cons.inj h
      obtain ⟨_, rfl⟩ := indented_inj ho.1 ho'.1 hline
      obtain ⟨rfl, rfl⟩ := linesAll_append_inj parts parts' ho.2 ho'.2 hr hr' hparts
      exact ⟨rfl, rfl⟩
termination_by structural o

/-- Outlines one below the other, and what follows further out, are found from the lines. -/
theorem linesAll_append_inj (os os' : List Outline) {d : Nat} {rest rest' : List String}
    (hos : ∀ l ∈ contentsAll os, IsLine l) (hos' : ∀ l ∈ contentsAll os', IsLine l)
    (hr : Returns d rest) (hr' : Returns d rest')
    (h : linesAll d os ++ rest = linesAll d os' ++ rest') : os = os' ∧ rest = rest' := by
  -- no outline begins with a line that stands less far in
  have hend {o : Outline} {os : List Outline} {ls : List String}
      (ho : ∀ l ∈ contentsAll (o :: os), IsLine l) (hls : Returns d (linesAll d (o :: os) ++ ls)) :
      False := by
    cases o with
    | node line parts =>
      obtain ⟨e, l, he, hl, hline⟩ := hls (indented d line) (by simp [linesAll, lines])
      have hd := (indented_inj (ho line (by simp [contentsAll, contents])) hl hline).1
      exact Nat.ne_of_gt he hd
  cases os with
  | nil =>
    cases os' with
    | nil => exact ⟨rfl, h⟩
    | cons o' os' =>
      rw [linesAll, List.nil_append] at h
      exact (hend hos' (h ▸ hr)).elim
  | cons o os =>
    cases os' with
    | nil =>
      rw [linesAll.eq_def d [], List.nil_append] at h
      exact (hend hos (h ▸ hr')).elim
    | cons o' os' =>
      rw [linesAll, linesAll, List.append_assoc, List.append_assoc] at h
      rw [contentsAll, List.forall_mem_append] at hos hos'
      obtain ⟨rfl, hrest⟩ := lines_append_inj o o' hos.1 hos'.1 (returns_linesAll hos.2 hr)
        (returns_linesAll hos'.2 hr') h
      obtain ⟨rfl, rfl⟩ := linesAll_append_inj os os' hos.2 hos'.2 hr hr' hrest
      exact ⟨rfl, rfl⟩
termination_by structural os

end

mutual

theorem exists_of_mem_lines (o : Outline) {d : Nat} {x : String} (hx : x ∈ lines d o) :
    ∃ e, ∃ l ∈ o.contents, x = indented e l := by
  cases o with
  | node line parts =>
    rcases List.mem_cons.mp hx with rfl | hx
    · exact ⟨d, line, List.mem_cons_self, rfl⟩
    · obtain ⟨e, l, hl, rfl⟩ := exists_of_mem_linesAll parts hx
      exact ⟨e, l, List.mem_cons_of_mem line hl, rfl⟩
termination_by structural o

theorem exists_of_mem_linesAll (os : List Outline) {d : Nat} {x : String} (hx : x ∈ linesAll d os) :
    ∃ e, ∃ l ∈ contentsAll os, x = indented e l := by
  cases os with
  | nil => cases hx
  | cons o os =>
    rcases List.mem_append.mp hx with hx | hx
    · obtain ⟨e, l, hl, rfl⟩ := exists_of_mem_lines o hx
      exact ⟨e, l, List.mem_append_left _ hl, rfl⟩
    · obtain ⟨e, l, hl, rfl⟩ := exists_of_mem_linesAll os hx
      exact ⟨e, l, List.mem_append_right _ hl, rfl⟩
termination_by structural os

end

theorem join_text (os : List Outline) : String.join (os.map text) = ofLines (linesAll 0 os) := by
  induction os with
  | nil => rfl
  | cons o os ih =>
    rw [List.map_cons, String.join_cons, ih, text, linesAll, ofLines, ofLines, ofLines,
      List.map_append, String.join_append]

theorem closes_linesAll {os : List Outline} (hos : ∀ l ∈ contentsAll os, IsLine l) (d : Nat) :
    ∀ x ∈ linesAll d os, Closes x := by
  intro x hx
  obtain ⟨e, l, hl, rfl⟩ := exists_of_mem_linesAll os hx
  exact closes_indented (hos l hl) e

section

variable {o : Outline} {os os' : List Outline}

/-- The text of at least one outline begins with a line of it, and the only blank around it is the
last line break. -/
theorem toList_trim (hos : ∀ l ∈ contentsAll (o :: os), IsLine l) :
    (ofLines (linesAll 0 (o :: os))).toList =
      (trim (ofLines (linesAll 0 (o :: os)))).toList ++ ['\n'] := by
  cases o with
  | node line parts =>
    refine trim_ofLines (by simp [linesAll, lines]) (fun l hl => ?_)
      fun l hl => closes_linesAll hos 0 l (List.mem_of_getLast? hl)
    obtain rfl : indented 0 line = l := by simpa [linesAll, lines] using hl
    have hsame : indented 0 line = line := String.toList_inj.mp (toList_indented 0 line)
    rw [hsame]
    exact (hos line (by simp [contentsAll, contents])).1

theorem trim_ne_empty (hos : ∀ l ∈ contentsAll (o :: os), IsLine l) :
    trim (ofLines (linesAll 0 (o :: os))) ≠ "" := by
  intro hempty
  have htrim := toList_trim hos
  cases o with
  | node line parts =>
    have hfirst := (hos line (by simp [contentsAll, contents])).1.first
    rw [hempty, toList_ofLines, linesAll, lines, List.cons_append, List.flatMap_cons,
      toList_indented] at htrim
    cases hcs : line.toList with
    | nil => simp [hcs] at hfirst
    | cons c cs => simp [hcs] at htrim

/-- Outlines one below the other are found from their text, whatever blanks are around it. -/
theorem trim_text_inj (hos : ∀ l ∈ contentsAll os, IsLine l)
    (hos' : ∀ l ∈ contentsAll os', IsLine l)
    (h : trim (String.join (os.map text)) = trim (String.join (os'.map text))) : os = os' := by
  rw [join_text, join_text] at h
  have hnil : trim (ofLines (linesAll 0 [])) = "" := by decide
  have hlines : linesAll 0 os = linesAll 0 os' := by
    refine ofLines_inj (fun l hl => (closes_linesAll hos 0 l hl).unbroken)
      (fun l hl => (closes_linesAll hos' 0 l hl).unbroken) ?_
    cases os with
    | nil =>
      cases os' with
      | nil => rfl
      | cons o' os' => exact (trim_ne_empty hos' (h.symm.trans hnil)).elim
    | cons o os =>
      cases os' with
      | nil => exact (trim_ne_empty hos (h.trans hnil)).elim
      | cons o' os' => rw [← String.toList_inj, toList_trim hos, toList_trim hos', h]
  have hreturns : Returns 0 [] := by simp [Returns]
  exact (linesAll_append_inj os os' hos hos' hreturns hreturns (by rw [hlines])).1

end

end Outline

end Tern.Text
