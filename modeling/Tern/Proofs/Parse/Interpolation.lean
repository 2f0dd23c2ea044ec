import Mathlib.Data.List.Chain
import Mathlib.Data.List.Forall2
import Tern.Proofs.Parse.OneLine

/-!
What a string can say. Any text can be written between quotes, with a backslash before each quote,
backslash and dollar sign, and a variable can be put anywhere in it between `$` and a pair of braces;
reading the string gives back the texts and the variables.
-/

set_option autoImplicit false

namespace Tern

/-- A part of a string: text, or the variable whose value is put there. -/
inductive StringPart
  | text (text : String)
  | name (name : String)

namespace StringPart

def isText : StringPart → Bool
  | text _ => true
  | name _ => false

/-- A character of a text as it is written. -/
def escape (c : Char) : List Char :=
  if c = '\\' ∨ c = '"' ∨ c = '$' then ['\\', c] else [c]

/-- The part as it is written. -/
def written : StringPart → List Char
  | text s => s.toList.flatMap escape
  | name x => '$' :: '\x7b' :: (x.toList ++ ['\x7d'])

/-- The parts between quotes. -/
def quoted (ps : List StringPart) : String :=
  String.ofList ('"' :: (ps.flatMap written ++ ['"']))

/-- No text is empty or could be joined with the next one, and variables have names. -/
structure Proper (ps : List StringPart) : Prop where
  texts : ∀ s, text s ∈ ps → s ≠ ""
  names : ∀ x, name x ∈ ps → Piece.isName x = true ∧ x ≠ "unit"
  apart : ps.IsChain fun p q => p.isText = true → q.isText = false

/-- The part of the tree says what is meant. -/
inductive Shows : StringPart → Part → Prop
  | text (s : String) : Shows (text s) (.text s)
  | name (x : String) (span : Span) : Shows (name x) (.expr (.name x span))

/-- A string without variables, as one text. -/
def joined (ps : List StringPart) : String :=
  String.join (ps.map fun
    | text s => s
    | name _ => "")

end StringPart

/-! The end of the string -/

namespace Piece

/-- The string does not end in the characters. -/
def Inside (cs : List Char) : Prop :=
  ∀ rest, stringLength (cs ++ rest) = ((stringLength rest).1, (stringLength rest).2 + cs.length)

theorem inside_nil : Inside [] := fun _ => rfl

theorem Inside.append {as bs : List Char} (ha : Inside as) (hb : Inside bs) : Inside (as ++ bs) := by
  intro rest
  rw [List.append_assoc, ha, hb, List.length_append]
  simp only [Prod.mk.injEq, true_and]
  omega

theorem inside_plain {cs : List Char} (h : ∀ c ∈ cs, c ≠ '"' ∧ c ≠ '\\') : Inside cs := by
  intro rest
  induction cs with
  | nil => rfl
  | cons c cs ih =>
    rw [List.forall_mem_cons] at h
    rw [List.cons_append, stringLength_cons h.1.1 h.1.2, ih h.2]
    rfl

theorem inside_escape (c : Char) : Inside (StringPart.escape c) := by
  unfold StringPart.escape
  split
  · rename_i hc
    have hline : c ≠ '\n' := by
      rintro rfl
      exact absurd hc (by decide)
    intro rest
    simp [stringLength, hline]
  · rename_i hc
    exact inside_plain (by simp_all)

theorem inside_flatMap {α : Type} {f : α → List Char} {as : List α} (h : ∀ a ∈ as, Inside (f a)) :
    Inside (as.flatMap f) := by
  induction as with
  | nil => exact inside_nil
  | cons a as ih =>
    rw [List.forall_mem_cons] at h
    exact h.1.append (ih h.2)

/-- Words have neither quotes nor braces nor other marks in them. -/
theorem ne_of_isNamePart {c m : Char} (h : isNamePart c = true) (hm : isNamePart m = false) : c ≠ m := by
  rintro rfl
  rw [hm] at h
  cases h

theorem isNamePart_of_isName {x : String} (h : isName x = true) : ∀ c ∈ x.toList, isNamePart c = true := by
  rw [isName, Bool.and_eq_true, Bool.and_eq_true, List.all_eq_true] at h
  exact h.1.2

theorem inside_written {ps : List StringPart} (h : StringPart.Proper ps) :
    Inside (ps.flatMap StringPart.written) := by
  refine inside_flatMap fun p hp => ?_
  cases p with
  | text s => exact inside_flatMap fun c _ => inside_escape c
  | name x =>
    have hparts := isNamePart_of_isName (h.names x hp).1
    refine inside_plain ?_
    simp only [StringPart.written, List.forall_mem_cons, List.forall_mem_append]
    refine ⟨by decide, by decide, fun c hc => ?_, by decide, by simp⟩
    exact ⟨ne_of_isNamePart (hparts c hc) (by decide), ne_of_isNamePart (hparts c hc) (by decide)⟩

theorem atStart_string {cs : List Char} (h : Inside cs) (rest : List Char) :
    atStart '"' (cs ++ '"' :: rest) =
      (.token (.string (String.ofList ('"' :: (cs ++ ['"'])))), cs.length + 1) := by
  have hlength : stringLength (cs ++ '"' :: rest) = (true, cs.length + 1) := by
    rw [h ('"' :: rest)]
    simp [stringLength, Nat.add_comm]
  unfold atStart
  dsimp only
  rw [if_neg (by decide), if_neg (by decide), if_neg (by decide), if_pos rfl, hlength]
  dsimp only
  rw [List.take_length_add_append]
  rfl

end Piece

theorem StringPart.Proper.reads {ps : List StringPart} (h : Proper ps) :
    Reads (quoted ps).toList [.string (quoted ps)] := by
  rw [quoted, String.toList_ofList]
  refine .token (Piece.atStart_string (Piece.inside_written h) []) ?_
  rw [List.drop_of_length_le (by simp)]
  exact .nil

/-! The inside of the string -/

namespace StringPart

theorem Proper.of_append (ps : List StringPart) {qs : List StringPart} (h : Proper (ps ++ qs)) :
    Proper qs where
  texts s hs := h.texts s (List.mem_append_right ps hs)
  names x hx := h.names x (List.mem_append_right ps hx)
  apart := h.apart.right_of_append

/-- The part that a text makes, if it is not empty. -/
def ofText (s : String) : List StringPart := if s.isEmpty then [] else [text s]

theorem ofText_of_ne {s : String} (h : s ≠ "") : ofText s = [text s] := by
  rw [ofText, if_neg (by simpa using h)]

/-- The text as a part of the tree, if it is not empty. -/
def shown (s : String) : List Part := if s.isEmpty then [] else [.text s]

theorem shows_ofText (s : String) : List.Forall₂ Shows (ofText s) (shown s) := by
  unfold ofText shown
  split
  · exact .nil
  · exact .cons (.text s) .nil

/-- What a string with these holes says if the code in each hole is a name. -/
def ofHoles (tail : String) : List (String × Parse.Hole) → List StringPart
  | [] => ofText tail
  | (s, .name x _) :: hs => ofText s ++ name x :: ofHoles tail hs
  | (s, .code cs _) :: hs => ofText s ++ name (String.ofList cs) :: ofHoles tail hs

end StringPart

namespace Parse

namespace Template

/-- The template has all its holes, and says this. -/
structure Says (t : Template) (ps : List StringPart) : Prop where
  parts : StringPart.ofHoles t.tail t.holes = ps
  closed : t.unclosed = none

theorem read_escape (c : Char) (rest : List Char) (pos : Nat) (acc : List Char) :
    ∃ pos', read (StringPart.escape c ++ rest) pos acc = read rest pos' (c :: acc) := by
  unfold StringPart.escape
  split
  · rename_i hc
    have hsame : unescape c = c := by rcases hc with rfl | rfl | rfl <;> rfl
    refine ⟨pos + 1 + c.utf8Size, ?_⟩
    rw [List.cons_append, List.cons_append, List.nil_append, read.eq_def]
    dsimp only
    rw [if_pos rfl, hsame]
  · rename_i hc
    have hplain : c ≠ '\\' ∧ c ≠ '$' := by simp_all
    refine ⟨pos + c.utf8Size, ?_⟩
    rw [List.cons_append, List.nil_append, read.eq_def]
    dsimp only
    rw [if_neg hplain.1, if_neg (by simp [hplain.2]), if_neg (by simp [hplain.2])]

theorem read_text (cs rest : List Char) (pos : Nat) (acc : List Char) :
    ∃ pos', read (cs.flatMap StringPart.escape ++ rest) pos acc = read rest pos' (cs.reverse ++ acc) := by
  induction cs generalizing pos acc with
  | nil => exact ⟨pos, rfl⟩
  | cons c cs ih =>
    obtain ⟨pos', hc⟩ := read_escape c (cs.flatMap StringPart.escape ++ rest) pos acc
    obtain ⟨pos'', hcs⟩ := ih pos' (c :: acc)
    refine ⟨pos'', ?_⟩
    rw [List.flatMap_cons, List.append_assoc, hc, hcs, List.reverse_cons, List.append_assoc]
    rfl

/-- Code without braces ends at the first one. -/
theorem codeLength?_plain {cs : List Char} (h : ∀ c ∈ cs, c ≠ '\x7b' ∧ c ≠ '\x7d') (rest : List Char) :
    codeLength? 1 (cs ++ '\x7d' :: rest) = some cs.length := by
  induction cs with
  | nil => rfl
  | cons c cs ih =>
    rw [List.forall_mem_cons] at h
    rw [List.cons_append, codeLength?, if_neg (by simp [h.1.2])]
    dsimp only
    rw [if_neg h.1.1, if_neg h.1.2, ih h.2]
    rfl

theorem read_code {cs : List Char} (h : ∀ c ∈ cs, c ≠ '\x7b' ∧ c ≠ '\x7d') (rest : List Char) (pos : Nat)
    (acc : List Char) :
    ∃ pos', read ('$' :: '\x7b' :: (cs ++ '\x7d' :: rest)) pos acc =
      cons acc (.code cs (pos + 2)) (read rest pos' []) := by
  have hdrop : (cs ++ '\x7d' :: rest).drop (cs.length + 1) = rest := by
    rw [List.append_cons]
    exact List.drop_left' (by simp)
  refine ⟨pos + 3 + byteLength cs, ?_⟩
  rw [read.eq_def]
  dsimp only [List.tail_cons]
  rw [if_neg (by decide), if_pos ⟨rfl, rfl⟩, codeLength?_plain h rest]
  dsimp only
  rw [List.take_left, hdrop]

open StringPart in
/-- What is read is what was written: the text since the last hole, and the parts after it. -/
theorem says_read (ps : List StringPart) (pos : Nat) (s : String)
    (h : Proper (StringPart.ofText s ++ ps)) :
    (read (ps.flatMap written) pos s.toList.reverse).Says (StringPart.ofText s ++ ps) := by
  induction ps generalizing pos s with
  | nil =>
    rw [List.flatMap_nil, read.eq_def, List.append_nil, List.reverse_reverse, String.ofList_toList]
    exact ⟨rfl, rfl⟩
  | cons p ps ih =>
    rw [List.flatMap_cons]
    cases p with
    | text s' =>
      -- two texts are not next to each other, so nothing was read since the last hole
      obtain rfl : s = "" := by
        by_contra hs
        rw [ofText_of_ne hs] at h
        exact absurd (h.apart.rel rfl) (by simp [isText])
      obtain ⟨pos', hread⟩ := read_text s'.toList (ps.flatMap written) pos []
      have hs' : StringPart.ofText s' = [text s'] := ofText_of_ne (h.texts s' (by simp))
      have hrest := ih pos' s' (by rwa [hs'])
      rw [hs'] at hrest
      rw [List.append_nil] at hread
      rw [written]
      exact hread ▸ hrest
    | name x =>
      have hx := Piece.isNamePart_of_isName (h.names x (by simp)).1
      have hplain : ∀ c ∈ x.toList, c ≠ '\x7b' ∧ c ≠ '\x7d' := fun c hc =>
        ⟨Piece.ne_of_isNamePart (hx c hc) (by decide), Piece.ne_of_isNamePart (hx c hc) (by decide)⟩
      obtain ⟨pos', hread⟩ := read_code hplain (ps.flatMap written) pos s.toList.reverse
      have hrest := ih pos' "" (Proper.of_append [name x] (Proper.of_append _ h))
      have happend : written (name x) ++ ps.flatMap written =
          '$' :: '\x7b' :: (x.toList ++ '\x7d' :: ps.flatMap written) := by simp [written]
      rw [happend, hread]
      refine ⟨?_, hrest.closed⟩
      rw [cons, ofHoles, List.reverse_reverse, String.ofList_toList, String.ofList_toList]
      exact congrArg (fun qs => StringPart.ofText s ++ name x :: qs) hrest.parts

end Template

/-- A hole with a name in it is read without errors. -/
theorem readHole_name {x : String} (hname : Piece.isName x = true) (hunit : x ≠ "unit") (offset : Nat) :
    ∃ span, readHole x.toList offset = (some (.name x span), []) := by
  have hreads : Reads x.toList [.identifier x] := by
    rw [← List.append_nil x.toList]
    exact Reads.name hname (by simp [Piece.Delimited]) .nil
  have hahead := Cursor.ahead_start hreads offset
  obtain ⟨node, hvalue, ⟨span, rfl⟩, hend⟩ :=
    finds_lone hahead (by simp) (by simp) (finds_primary_name hunit (by simp) hahead)
  refine ⟨span, ?_⟩
  have hatEnd : (binary .or (Cursor.start x.toList offset)).cursor.isAtEnd = true := by
    rw [Cursor.isAtEnd, List.map_eq_nil_iff.mp hend.tokens]
    rfl
  unfold readHole
  dsimp only
  rw [hvalue, hatEnd, if_neg (by simp), hend.errors]

theorem fill_eq_nil {n : Nat} {holes : List (String × Hole)} (h : ∀ x ∈ holes, x.2.size < n)
    (hnil : holes = []) : (fill (fun code offset _ => readHole code offset) holes h).1 = [] := by
  subst hnil
  rfl

open StringPart in
/-- Holes with names in them are filled with the names. -/
theorem fill_names {n : Nat} (holes : List (String × Hole)) (tail : String)
    (h : ∀ x ∈ holes, x.2.size < n)
    (hnames : ∀ x, name x ∈ ofHoles tail holes → Piece.isName x = true ∧ x ≠ "unit") :
    let filled := fill (fun code offset _ => readHole code offset) holes h
    List.Forall₂ Shows (ofHoles tail holes) (filled.1 ++ shown tail) ∧ filled.2 = [] := by
  induction holes with
  | nil => exact ⟨shows_ofText tail, rfl⟩
  | cons hole holes ih =>
    have hrest := fun y hy => h y (List.mem_cons_of_mem hole hy)
    obtain ⟨s, ⟨x, span⟩ | ⟨cs, offset⟩⟩ := hole
    · obtain ⟨hparts, herrors⟩ := ih hrest (fun y hy => hnames y (by simp [ofHoles, hy]))
      refine ⟨?_, herrors⟩
      rw [ofHoles, fill, List.append_assoc]
      exact List.rel_append (shows_ofText s) (.cons (.name x span) hparts)
    · obtain ⟨hparts, herrors⟩ := ih hrest (fun y hy => hnames y (by simp [ofHoles, hy]))
      obtain ⟨hname, hunit⟩ := hnames (String.ofList cs) (by simp [ofHoles])
      obtain ⟨span, hread⟩ := readHole_name hname hunit offset
      rw [String.toList_ofList] at hread
      rw [ofHoles, fill]
      · dsimp only
        rw [hread, List.append_assoc, List.append_assoc]
        exact ⟨List.rel_append (shows_ofText s) (.cons (.name _ span) hparts), herrors⟩
      · exact h _ List.mem_cons_self

end Parse

/-! The whole string -/

namespace StringPart

/-- What a string with these parts is read as, wherever it stands. -/
inductive Denotes : List StringPart → Node → Prop
  | literal {ps : List StringPart} (h : ∀ p ∈ ps, p.isText = true) (span : Span) :
      Denotes ps (.literal (.string (joined ps)) span)
  | interpolation {ps : List StringPart} (h : ∃ p ∈ ps, p.isText = false) {parts : List Part}
      (hparts : List.Forall₂ Shows ps parts) (span : Span) :
      Denotes ps (.interpolation parts span)

theorem joined_ofText (s : String) : joined (ofText s) = s := by
  by_cases hs : s = ""
  · subst hs
    rfl
  · rw [ofText_of_ne hs]
    simp [joined, String.join]

/-- Without variables there are no holes. -/
theorem holes_of_isText {tail : String} {holes : List (String × Parse.Hole)}
    (h : ∀ p ∈ ofHoles tail holes, p.isText = true) : holes = [] := by
  cases holes with
  | nil => rfl
  | cons hole holes =>
    obtain ⟨s, ⟨x, span⟩ | ⟨cs, offset⟩⟩ := hole
    · exact absurd (h (name x) (by simp [ofHoles])) (by simp [isText])
    · exact absurd (h (name (String.ofList cs)) (by simp [ofHoles])) (by simp [isText])

end StringPart

namespace Parse

open StringPart

theorem denotes_stringNode {ps : List StringPart} {t : Template} (hread : t.Says ps) (span : Span)
    {parts : List Part} (hnil : t.holes = [] → parts = [])
    (hparts : List.Forall₂ Shows ps (parts ++ shown t.tail)) :
    Denotes ps (stringNode span parts t.tail) := by
  by_cases hname : ∃ p ∈ ps, p.isText = false
  · have hne : parts ≠ [] := by
      rintro rfl
      obtain ⟨p, hp, hvariable⟩ := hname
      rw [List.nil_append, shown] at hparts
      split at hparts
      · cases hparts
        cases hp
      · obtain _ | ⟨hshows, hrest⟩ := hparts
        cases hrest
        obtain rfl := List.mem_singleton.mp hp
        cases hshows
        cases hvariable
    have hnode : stringNode span parts t.tail = .interpolation (parts ++ shown t.tail) span := by
      rw [stringNode, if_neg (by simpa using hne), shown]
      split <;> simp
    rw [hnode]
    exact .interpolation hname hparts span
  · have htexts : ∀ p ∈ ps, p.isText = true := by simpa using hname
    have hholes : t.holes = [] := holes_of_isText (hread.parts ▸ htexts)
    have htail : ps = ofText t.tail := by
      rw [← hread.parts, hholes]
      rfl
    rw [hnil hholes, stringNode, if_pos List.isEmpty_nil, ← joined_ofText t.tail, ← htail]
    exact .literal htexts span

theorem finds_primary_string {ps : List StringPart} (h : Proper ps) {c : Cursor} {ts : List Token}
    (hc : c.Ahead (.string (quoted ps) :: ts)) : (primary c).Finds (Denotes ps) ts := by
  let t := Template.ofToken (quoted ps) c.currentSpan.start
  have hread : t.Says ps := by
    have hinside : (quoted ps).toList.tail.dropLast = ps.flatMap written := by
      rw [quoted, String.toList_ofList, List.tail_cons, List.dropLast_concat]
    simp only [t, Template.ofToken, hinside]
    exact Template.says_read ps _ "" h
  obtain ⟨hparts, herrors⟩ := fill_names t.holes t.tail (fun _ => Template.size_lt_of_mem_ofToken)
    (fun x hx => h.names x (hread.parts ▸ hx))
  rw [hread.parts] at hparts
  have hnil : t.holes = [] → (readHoles (quoted ps) c.currentSpan.start).1 = [] := fill_eq_nil _
  obtain ⟨hvalue, hcursor⟩ := primary_string hc.peek?
  refine ⟨_, hvalue, denotes_stringNode hread _ hnil hparts, ?_⟩
  have hnone : (readHoles (quoted ps) c.currentSpan.start).2 ++
      unclosedHole (quoted ps) c.currentSpan.start = [] := by
    have hclosed : (Template.ofToken (quoted ps) c.currentSpan.start).unclosed = none := hread.closed
    rw [unclosedHole, hclosed]
    exact List.append_eq_nil_iff.mpr ⟨herrors, rfl⟩
  rw [hcursor, hnone]
  have hadvance := hc.advance
  refine ⟨hadvance.tokens, hadvance.line, ?_⟩
  rw [Cursor.reportAll, List.append_nil]
  exact hadvance.errors

end Parse

open StringPart in
/-- Every string can be written, with variables anywhere in it: a source that holds nothing else is read
as it. -/
theorem Parsed.string_denotes {ps : List StringPart} (h : Proper ps) :
    (Parsed.ofSource (quoted ps)).errors = [] ∧
      ∃ node, (Parsed.ofSource (quoted ps)).unit = ⟨none, [], [node]⟩ ∧ Denotes ps node := by
  have hc := Parse.Cursor.ahead_start h.reads 0
  obtain ⟨node, hnode, hunit, herrors⟩ := Parse.sourceUnit_of_statement hc rfl (by simp)
    (Parse.finds_statement hc (by simp) (Parse.finds_lone hc (by simp) (by simp)
      (Parse.finds_primary_string h hc)))
  exact ⟨herrors, node, hunit, hnode⟩

namespace StringPart

/-- A brace before a variable, a dollar sign and a line break before the next one, and a backslash and a
quote after it. -/
def mixed : List StringPart :=
  [text "\x7b", name "x", text "$\n", name "y1", name "z", text "\\\"\x7d$\x7bw\x7d"]

theorem proper_mixed : Proper mixed where
  texts := by simp [mixed]
  names := by
    simp only [mixed, List.mem_cons, List.not_mem_nil, reduceCtorEq, name.injEq, false_or, or_false]
    rintro x (rfl | rfl | rfl) <;> decide
  apart := by simp [mixed, isText]

end StringPart

open StringPart in
theorem string_denotes_mixed :
    Proper mixed ∧ (Parsed.ofSource (quoted mixed)).errors = [] ∧
      ∃ node, (Parsed.ofSource (quoted mixed)).unit = ⟨none, [], [node]⟩ ∧ Denotes mixed node :=
  ⟨proper_mixed, Parsed.string_denotes proper_mixed⟩

end Tern
