import Tern.Json.Read

/-!
What is written can be read: the text of a value that holds no numbers is read as that value.
-/

set_option autoImplicit false

namespace Tern

/-- The value and what is left of the text. -/
def Text.Reading.pair {α : Type} {cs : List Char} (r : Text.Reading cs α) : α × List Char :=
  (r.value, r.rest)

namespace Json

open Text (Reading hexValue? isDigit)
open Text.Reading (pair)

mutual
/-- There are no numbers inside, and nothing that is unreadable. -/
def Plain : Json → Prop
  | null => True
  | bool _ => True
  | number _ _ _ _ => False
  | string _ => True
  | array xs => AllPlain xs
  | object fs => FieldsPlain fs
  | unreadable => False
def AllPlain : List Json → Prop
  | [] => True
  | x :: xs => x.Plain ∧ AllPlain xs
def FieldsPlain : List (String × Json) → Prop
  | [] => True
  | (_, x) :: fs => x.Plain ∧ FieldsPlain fs
end

/-! Blanks and characters -/

section Characters

variable {bs cs rest : List Char} {c : Char}

theorem skipBlanks_append (h : ∀ b ∈ bs, isBlank b = true) (cs : List Char) :
    skipBlanks (bs ++ cs) = skipBlanks cs := List.dropWhile_append_of_pos h

theorem skipBlanks_cons (h : isBlank c = false) (cs : List Char) :
    skipBlanks (c :: cs) = c :: cs := List.dropWhile_cons_of_neg (by simp [h])

theorem hexValue?_hexDigit {n : Nat} (h : n < 16) : hexValue? (hexDigit n) = some n := by
  have hall : ∀ n < 16, hexValue? (hexDigit n) = some n := by decide
  exact hall n h

/-- The text of a control character is read as that character. -/
theorem escaped?_control (h : c.toNat < 32) (cs : List Char) :
    escaped? ('u' :: '0' :: '0' :: hexDigit (c.toNat / 16) :: hexDigit (c.toNat % 16) :: cs) =
      some (some c, 5) := by
  have hzero : hexValue? '0' = some 0 := rfl
  have hunit : unit16? ['0', '0', hexDigit (c.toNat / 16), hexDigit (c.toNat % 16)] =
      some c.toNat := by
    rw [unit16?, hexValue?_hexDigit (by omega), hexValue?_hexDigit (by omega), hzero]
    simp only [Option.some.injEq]
    omega
  rw [escaped?]
  simp only [List.take_succ_cons, List.take_zero, hunit]
  rw [if_pos (by omega), Char.ofNat_toNat]

theorem readString_escaped {e : Char} {n : Nat} (h : escaped? cs = some (some e, n))
    (text : List Char) : (readString ('\\' :: cs) (some text)).map pair =
      (readString (cs.drop n) (some (e :: text))).map pair := by
  rw [readString, if_neg (by decide), if_pos rfl, h]
  change Option.map pair (Option.map _ (readString (cs.drop n) (some (e :: text)))) = _
  cases readString (cs.drop n) (some (e :: text)) <;> rfl

/-- A character stands for itself or is told by what follows a backslash. -/
theorem escape_cases (c : Char) :
    (escape c = [c] ∧ c ≠ '"' ∧ c ≠ '\\' ∧ ¬ c.toNat < 32) ∨
      ∃ es, escape c = '\\' :: es ∧ ∀ cs, escaped? (es ++ cs) = some (some c, es.length) := by
  by_cases hcontrol : c ∈ ['"', '\\', '\n', '\r', '\t', '\x08', '\x0c']
  · right
    simp only [List.mem_cons, List.not_mem_nil, or_false] at hcontrol
    rcases hcontrol with rfl | rfl | rfl | rfl | rfl | rfl | rfl <;> exact ⟨[_], rfl, fun _ => rfl⟩
  · simp only [List.mem_cons, List.not_mem_nil, or_false, not_or] at hcontrol
    obtain ⟨hquote, hbackslash, hn, hr, ht, hb, hf⟩ := hcontrol
    rw [escape, if_neg hquote, if_neg hbackslash, if_neg hn, if_neg hr, if_neg ht, if_neg hb,
      if_neg hf]
    by_cases h : c.toNat < 32
    · right
      rw [if_pos h]
      exact ⟨_, rfl, escaped?_control h⟩
    · left
      rw [if_neg h]
      exact ⟨rfl, hquote, hbackslash, h⟩

/-- A character is read from its text. -/
theorem readString_escape (c : Char) (cs text : List Char) :
    (readString (escape c ++ cs) (some text)).map pair =
      (readString cs (some (c :: text))).map pair := by
  rcases escape_cases c with ⟨hc, hquote, hbackslash, hcontrol⟩ | ⟨es, hc, hes⟩
  · rw [hc, List.singleton_append, readString, if_neg hquote, if_neg hbackslash, if_neg hcontrol]
    change Option.map pair (Option.map _ (readString cs (some (c :: text)))) = _
    cases readString cs (some (c :: text)) <;> rfl
  · rw [hc, List.cons_append, readString_escaped (hes cs), List.drop_left]

/-- A text is read up to its closing quote. -/
theorem readString_escapes (s text rest : List Char) :
    (readString (s.flatMap escape ++ '"' :: rest) (some text)).map pair =
      some (some (String.ofList (text.reverse ++ s)), rest) := by
  induction s generalizing text with
  | nil =>
    rw [List.flatMap_nil, List.nil_append, readString, if_pos rfl, List.append_nil]
    rfl
  | cons c s ih =>
    rw [List.flatMap_cons, List.append_assoc, readString_escape, ih, List.reverse_cons,
      List.append_assoc, List.singleton_append]

theorem toList_quote (s : String) : (quote s).toList = '"' :: (s.toList.flatMap escape ++ ['"']) := by
  rw [quote, String.toList_ofList]
  rfl

theorem readString_quote (s : String) (rest : List Char) :
    (readString (s.toList.flatMap escape ++ '"' :: rest) (some [])).map pair =
      some (some s, rest) := by
  rw [readString_escapes, List.reverse_nil, List.nil_append, String.ofList_toList]

end Characters

/-! The readers without the proofs that they come to an end -/

section Steps

variable {cs rest : List Char}

theorem length_afterWord?_lt {word : String} (hword : 0 < word.length)
    (h : afterWord? word cs = some rest) : rest.length < cs.length := by
  rw [afterWord?] at h
  split at h
  · rename_i hpre
    cases h
    have hlength := (List.isPrefixOf_iff_prefix.mp hpre).length_le
    rw [String.length_toList] at hlength
    rw [List.length_drop]
    omega
  · cases h

theorem readValue_eq {c : Char} (h : skipBlanks cs = c :: rest) : (readValue cs).map pair =
    if c = '"' then ((readString rest (some [])).map pair).map (Prod.map textValue id)
    else if c = '[' then
      match skipBlanks rest with
      | ']' :: more => some (array [], more)
      | _ => ((readElements rest).map pair).map (Prod.map array id)
    else if c = '\x7b' then
      match skipBlanks rest with
      | '\x7d' :: more => some (object [], more)
      | _ => ((readFields rest).map pair).map (Prod.map fieldsValue id)
    else if c = '-' then (readNumber true rest).map pair
    else if isDigit c then (readNumber false (c :: rest)).map pair
    else
      [("null", null), ("true", bool true), ("false", bool false)].findSome? fun (word, value) =>
        (afterWord? word (c :: rest)).map (value, ·) := by
  rw [readValue]
  split
  · rename_i hnil
    rw [h] at hnil
    cases hnil
  · rename_i c' rest' hcons
    rw [h] at hcons
    cases hcons
    split
    · cases readString rest (some []) <;> rfl
    split
    · split
      · rename_i hclose
        simp only [hclose]
        rfl
      · rename_i hopen
        split
        · rename_i more hclose
          exact absurd hclose (hopen more)
        · cases readElements rest <;> rfl
    split
    · split
      · rename_i hclose
        simp only [hclose]
        rfl
      · rename_i hopen
        split
        · rename_i more hclose
          exact absurd hclose (hopen more)
        · cases readFields rest <;> rfl
    split
    · cases readNumber true rest <;> rfl
    split
    · cases readNumber false (c :: rest) <;> rfl
    · have hle := length_skipBlanks_le cs
      rw [h] at hle
      have hword (word : String) (value : Json) (hpos : 0 < word.length) :
          ((afterWord? word (c :: rest)).bind fun rest' =>
            if h : rest'.length < cs.length then
              some (Reading.mk value rest' h) else none).map pair =
            (afterWord? word (c :: rest)).map (value, ·) := by
        cases hafter : afterWord? word (c :: rest) with
        | none => rfl
        | some more =>
          have hlt := length_afterWord?_lt hpos hafter
          rw [Option.bind_some, dif_pos (by omega)]
          rfl
      have hnull := hword "null" null (by decide)
      have htrue := hword "true" (bool true) (by decide)
      have hfalse := hword "false" (bool false) (by decide)
      rw [List.map_findSome?]
      simp only [List.findSome?_cons, List.findSome?_nil, Function.comp_apply, hnull, htrue, hfalse]

theorem readElements_eq (cs : List Char) : (readElements cs).map pair =
    ((readValue cs).map pair).bind fun (value, rest) =>
      match skipBlanks rest with
      | ',' :: more => ((readElements more).map pair).map (Prod.map (value :: ·) id)
      | ']' :: more => some ([value], more)
      | _ => none := by
  rw [readElements]
  cases readValue cs with
  | none => rfl
  | some r =>
    obtain ⟨value, rest, hrest⟩ := r
    rw [Option.map_some, Option.bind_some]
    dsimp only [pair]
    split
    · rename_i more hmore
      simp only [hmore]
      cases readElements more <;> rfl
    · rename_i more hmore
      simp only [hmore]
      rfl
    · rename_i hcomma hclose
      split
      · rename_i more hmore
        exact absurd hmore (hcomma more)
      · rename_i more hmore
        exact absurd hmore (hclose more)
      · rfl

theorem readFields_eq (cs : List Char) : (readFields cs).map pair =
    match skipBlanks cs with
    | '"' :: afterQuote =>
      ((readString afterQuote (some [])).map pair).bind fun (key, afterKey) =>
        match skipBlanks afterKey with
        | ':' :: afterColon =>
          ((readValue afterColon).map pair).bind fun (value, rest) =>
            match skipBlanks rest with
            | ',' :: more => ((readFields more).map pair).map (Prod.map (consField key value) id)
            | '\x7d' :: more => some (consField key value (some []), more)
            | _ => none
        | _ => none
    | _ => none := by
  rw [readFields]
  split
  · rename_i afterQuote hquote
    simp only [hquote]
    cases readString afterQuote (some []) with
    | none => rfl
    | some r =>
      obtain ⟨key, afterKey, hkey⟩ := r
      rw [Option.map_some, Option.bind_some]
      dsimp only [pair]
      split
      · rename_i afterColon hcolon
        simp only [hcolon]
        cases readValue afterColon with
        | none => rfl
        | some r =>
          obtain ⟨value, rest, hrest⟩ := r
          rw [Option.map_some, Option.bind_some]
          dsimp only [pair]
          split
          · rename_i more hmore
            simp only [hmore]
            cases readFields more <;> rfl
          · rename_i more hmore
            simp only [hmore]
            rfl
          · rename_i hcomma hclose
            split
            · rename_i more hmore
              exact absurd hmore (hcomma more)
            · rename_i more hmore
              exact absurd hmore (hclose more)
            · rfl
      · rename_i hother
        split
        · rename_i afterColon hcolon
          exact absurd hcolon (hother afterColon)
        · rfl
  · rename_i hother
    split
    · rename_i afterQuote hquote
      exact absurd hquote (hother afterQuote)
    · rfl

end Steps

/-! Values -/

/-- A new line with its indentation. -/
def indentChars (n : Nat) : List Char := '\n' :: List.replicate (2 * n) ' '

theorem isBlank_of_mem_indentChars {n : Nat} : ∀ c ∈ indentChars n, isBlank c = true := by
  intro c hc
  rcases List.mem_cons.mp hc with rfl | hc
  · rfl
  · rw [List.eq_of_mem_replicate hc]
    rfl

theorem opening_array : "[".toList = ['['] := rfl

theorem closing_array : "]".toList = [']'] := rfl

theorem opening_object : "\x7b".toList = ['\x7b'] := rfl

theorem closing_object : "\x7d".toList = ['\x7d'] := rfl

theorem toList_bracketed_nil {opening closing : String} {a b : Char} (ha : opening.toList = [a])
    (hb : closing.toList = [b]) (d : Nat) : (bracketed opening closing d []).toList = [a, b] := by
  rw [bracketed, List.isEmpty_nil, if_pos rfl, String.toList_append, ha, hb, List.singleton_append]

theorem toList_bracketed {lines : List String} {opening closing : String} {a b : Char}
    (ha : opening.toList = [a]) (hb : closing.toList = [b]) (d : Nat) (h : lines ≠ []) :
    (bracketed opening closing d lines).toList =
      a :: (indentChars (d + 1) ++ ((',' :: indentChars (d + 1)).intercalate
        (lines.map String.toList) ++ (indentChars d ++ [b]))) := by
  have hindent (n : Nat) : ("\n" ++ String.ofList (List.replicate (2 * n) ' ')).toList =
      indentChars n := by
    simp only [String.toList_append, String.toList_ofList]
    rfl
  have hcomma : ",".toList = [','] := rfl
  rw [bracketed, if_neg (by simpa using h)]
  simp only [String.toList_append, String.toList_intercalate, ← hindent, List.append_assoc, hcomma, ha,
    hb, List.cons_append, List.nil_append]

/-- The first character of a text is neither a blank nor a closing bracket. -/
theorem pretty_opens {j : Json} (h : j.Plain) (d : Nat) :
    ∃ c cs, (j.pretty d).toList = c :: cs ∧ isBlank c = false ∧ c ≠ ']' := by
  have hbracketed {opening closing : String} {a b : Char} (ha : opening.toList = [a])
      (hb : closing.toList = [b]) (lines : List String) :
      ∃ cs, (bracketed opening closing d lines).toList = a :: cs := by
    by_cases hnil : lines = []
    · rw [hnil]
      exact ⟨_, toList_bracketed_nil ha hb d⟩
    · exact ⟨_, toList_bracketed ha hb d hnil⟩
  cases j with
  | null => exact ⟨'n', ['u', 'l', 'l'], by rw [pretty]; rfl, rfl, by decide⟩
  | bool b =>
    cases b with
    | false => exact ⟨'f', ['a', 'l', 's', 'e'], by rw [pretty]; rfl, rfl, by decide⟩
    | true => exact ⟨'t', ['r', 'u', 'e'], by rw [pretty]; rfl, rfl, by decide⟩
  | number => exact absurd h (by simp [Plain])
  | string s => exact ⟨'"', _, by rw [pretty, toList_quote], rfl, by decide⟩
  | array xs =>
    rw [pretty]
    obtain ⟨cs, hcs⟩ := hbracketed opening_array closing_array (prettyAll (d + 1) xs)
    exact ⟨'[', cs, hcs, rfl, by decide⟩
  | object fs =>
    rw [pretty]
    obtain ⟨cs, hcs⟩ := hbracketed opening_object closing_object (prettyFields (d + 1) fs)
    exact ⟨'\x7b', cs, hcs, rfl, by decide⟩
  | unreadable => exact absurd h (by simp [Plain])

theorem intercalate_opens {c : Char} {cs sep : List Char} (lines : List (List Char)) :
    ∃ more, sep.intercalate ((c :: cs) :: lines) = c :: more := by
  cases lines with
  | nil => exact ⟨cs, List.intercalate_singleton⟩
  | cons line lines => exact ⟨_, List.intercalate_cons_cons⟩

/-- Lines of values start with a value. -/
theorem prettyAll_opens (xs : List Json) (h : AllPlain xs) (d : Nat) (hne : prettyAll d xs ≠ []) :
    ∃ c cs, (',' :: indentChars d).intercalate ((prettyAll d xs).map String.toList) = c :: cs ∧
      isBlank c = false ∧ c ≠ ']' := by
  cases xs with
  | nil => exact absurd rfl hne
  | cons x xs =>
    rw [AllPlain] at h
    obtain ⟨c, cs, hcs, hblank, hc⟩ := pretty_opens h.1 d
    rw [prettyAll, List.map_cons, hcs]
    obtain ⟨more, hmore⟩ := intercalate_opens ((prettyAll d xs).map String.toList)
    exact ⟨c, more, hmore, hblank, hc⟩

theorem toList_field (k : String) (x : Json) (d : Nat) :
    (quote k ++ ": " ++ pretty d x).toList =
      '"' :: (k.toList.flatMap escape ++ '"' :: ':' :: ' ' :: (pretty d x).toList) := by
  have hcolon : ": ".toList = [':', ' '] := rfl
  rw [String.toList_append, String.toList_append, toList_quote, hcolon]
  simp

theorem prettyFields_opens (fs : List (String × Json)) (d : Nat) (hne : prettyFields d fs ≠ []) :
    ∃ cs, (',' :: indentChars d).intercalate ((prettyFields d fs).map String.toList) = '"' :: cs := by
  cases fs with
  | nil => exact absurd rfl hne
  | cons f fs =>
    rw [prettyFields, List.map_cons, toList_field]
    exact intercalate_opens _

theorem readValue_array {cs body rest more : List Char} {c : Char} {xs : List Json}
    (h : skipBlanks cs = '[' :: body) (hopens : skipBlanks body = c :: more) (hc : c ≠ ']')
    (hread : (readElements body).map pair = some (xs, rest)) :
    (readValue cs).map pair = some (array xs, rest) := by
  rw [readValue_eq h, if_neg (by decide), if_pos rfl]
  split
  · rename_i hclose
    rw [hopens] at hclose
    cases hclose
    exact absurd rfl hc
  · rw [hread]
    rfl

theorem readValue_object {cs body rest more : List Char} {fs : List (String × Json)}
    (h : skipBlanks cs = '\x7b' :: body) (hopens : skipBlanks body = '"' :: more)
    (hread : (readFields body).map pair = some (some fs, rest)) :
    (readValue cs).map pair = some (object fs, rest) := by
  rw [readValue_eq h, if_neg (by decide), if_neg (by decide), if_pos rfl]
  split
  · rename_i hclose
    rw [hopens] at hclose
    cases hclose
  · rw [hread]
    rfl

theorem readElements_last {cs rest more : List Char} {v : Json}
    (hv : (readValue cs).map pair = some (v, rest)) (h : skipBlanks rest = ']' :: more) :
    (readElements cs).map pair = some ([v], more) := by
  rw [readElements_eq, hv, Option.bind_some]
  simp only [h]

theorem readElements_more {cs rest more : List Char} {v : Json} {vs : List Json} {after : List Char}
    (hv : (readValue cs).map pair = some (v, rest)) (h : skipBlanks rest = ',' :: more)
    (hvs : (readElements more).map pair = some (vs, after)) :
    (readElements cs).map pair = some (v :: vs, after) := by
  rw [readElements_eq, hv, Option.bind_some]
  simp only [h, hvs]
  rfl

/-- A named value is read from its line; what follows decides about the rest. -/
theorem readFields_field {bs after : List Char} {x : Json} {d : Nat} (k : String)
    (hbs : ∀ b ∈ bs, isBlank b = true)
    (hx : (readValue ([' '] ++ ((pretty d x).toList ++ after))).map pair = some (x, after)) :
    (readFields (bs ++ ((quote k ++ ": " ++ pretty d x).toList ++ after))).map pair =
      match skipBlanks after with
      | ',' :: more => ((readFields more).map pair).map (Prod.map (consField (some k) x) id)
      | '\x7d' :: more => some (some [(k, x)], more)
      | _ => none := by
  have htext : (quote k ++ ": " ++ pretty d x).toList ++ after =
      '"' :: (k.toList.flatMap escape ++ '"' :: ':' :: ([' '] ++ ((pretty d x).toList ++ after))) := by
    rw [toList_field]
    simp
  rw [htext, readFields_eq, skipBlanks_append hbs, skipBlanks_cons rfl]
  simp only [readString_quote, Option.bind_some]
  rw [skipBlanks_cons rfl]
  simp only [hx, Option.bind_some]
  rfl

mutual
/-- A value is read from its text. -/
theorem readValue_pretty (j : Json) (h : j.Plain) (d : Nat) (bs rest : List Char)
    (hbs : ∀ b ∈ bs, isBlank b = true) :
    (readValue (bs ++ ((j.pretty d).toList ++ rest))).map pair = some (j, rest) := by
  have hskip {c : Char} {cs : List Char} (hcs : (j.pretty d).toList = c :: cs)
      (hc : isBlank c = false) :
      skipBlanks (bs ++ ((j.pretty d).toList ++ rest)) = c :: (cs ++ rest) := by
    rw [skipBlanks_append hbs, hcs, List.cons_append, skipBlanks_cons hc]
  cases j with
  | null =>
    have hcs : (pretty d null).toList = 'n' :: ['u', 'l', 'l'] := by rw [pretty]; rfl
    rw [readValue_eq (hskip hcs rfl)]
    rfl
  | bool b =>
    cases b with
    | false =>
      have hcs : (pretty d (bool false)).toList = 'f' :: ['a', 'l', 's', 'e'] := by rw [pretty]; rfl
      rw [readValue_eq (hskip hcs rfl)]
      rfl
    | true =>
      have hcs : (pretty d (bool true)).toList = 't' :: ['r', 'u', 'e'] := by rw [pretty]; rfl
      rw [readValue_eq (hskip hcs rfl)]
      rfl
  | number => exact absurd h (by simp [Plain])
  | string s =>
    have hcs : (pretty d (string s)).toList = '"' :: (s.toList.flatMap escape ++ ['"']) := by
      rw [pretty, toList_quote]
    rw [readValue_eq (hskip hcs rfl), if_pos rfl, List.append_assoc, List.singleton_append,
      readString_quote]
    rfl
  | array xs =>
    cases xs with
    | nil =>
      have hcs : (pretty d (array [])).toList = ['[', ']'] := by
        rw [pretty, prettyAll, toList_bracketed_nil opening_array closing_array]
      rw [readValue_eq (hskip hcs rfl)]
      rfl
    | cons x xs =>
      have hlines : prettyAll (d + 1) (x :: xs) ≠ [] := by simp [prettyAll]
      have hcs := toList_bracketed opening_array closing_array d hlines
      rw [← pretty] at hcs
      rw [Plain] at h
      have hread := readElements_prettyAll (x :: xs) h (d + 1) hlines (indentChars (d + 1))
        (indentChars d) rest isBlank_of_mem_indentChars isBlank_of_mem_indentChars
      obtain ⟨c, more, hmore, hblank, hc⟩ := prettyAll_opens (x :: xs) h (d + 1) hlines
      rw [hmore] at hcs hread
      have htext : indentChars (d + 1) ++ (c :: more ++ (indentChars d ++ [']'])) ++ rest =
          indentChars (d + 1) ++ (c :: more ++ (indentChars d ++ ']' :: rest)) := by simp
      have hopens : skipBlanks (indentChars (d + 1) ++ (c :: more ++ (indentChars d ++ ']' :: rest))) =
          c :: (more ++ (indentChars d ++ ']' :: rest)) := by
        rw [skipBlanks_append isBlank_of_mem_indentChars]
        exact skipBlanks_cons hblank _
      exact readValue_array (htext ▸ hskip hcs rfl) hopens hc hread
  | object fs =>
    cases fs with
    | nil =>
      have hcs : (pretty d (object [])).toList = ['\x7b', '\x7d'] := by
        rw [pretty, prettyFields, toList_bracketed_nil opening_object closing_object]
      rw [readValue_eq (hskip hcs rfl)]
      rfl
    | cons f fs =>
      have hlines : prettyFields (d + 1) (f :: fs) ≠ [] := by simp [prettyFields]
      have hcs := toList_bracketed opening_object closing_object d hlines
      rw [← pretty] at hcs
      rw [Plain] at h
      have hread := readFields_prettyFields (f :: fs) h (d + 1) hlines (indentChars (d + 1))
        (indentChars d) rest isBlank_of_mem_indentChars isBlank_of_mem_indentChars
      obtain ⟨more, hmore⟩ := prettyFields_opens (f :: fs) (d + 1) hlines
      rw [hmore] at hcs hread
      have htext : indentChars (d + 1) ++ ('"' :: more ++ (indentChars d ++ ['\x7d'])) ++ rest =
          indentChars (d + 1) ++ ('"' :: more ++ (indentChars d ++ '\x7d' :: rest)) := by simp
      have hopens : skipBlanks (indentChars (d + 1) ++ ('"' :: more ++ (indentChars d ++ '\x7d' :: rest))) =
          '"' :: (more ++ (indentChars d ++ '\x7d' :: rest)) := by
        rw [skipBlanks_append isBlank_of_mem_indentChars]
        exact skipBlanks_cons rfl _
      exact readValue_object (htext ▸ hskip hcs rfl) hopens hread
  | unreadable => exact absurd h (by simp [Plain])
theorem readElements_prettyAll (xs : List Json) (h : AllPlain xs) (d : Nat)
    (hne : prettyAll d xs ≠ []) (bs es rest : List Char)
    (hbs : ∀ b ∈ bs, isBlank b = true) (hes : ∀ b ∈ es, isBlank b = true) :
    (readElements (bs ++ ((',' :: indentChars d).intercalate
      ((prettyAll d xs).map String.toList) ++ (es ++ ']' :: rest)))).map pair =
      some (xs, rest) := by
  cases xs with
  | nil => exact absurd rfl hne
  | cons x xs =>
    rw [AllPlain] at h
    cases xs with
    | nil =>
      rw [prettyAll, prettyAll, List.map_singleton, List.intercalate_singleton]
      refine readElements_last (readValue_pretty x h.1 d bs (es ++ ']' :: rest) hbs) ?_
      rw [skipBlanks_append hes, skipBlanks_cons rfl]
    | cons y ys =>
      have hrest := readElements_prettyAll (y :: ys) h.2 d (by simp [prettyAll]) (indentChars d) es rest
        isBlank_of_mem_indentChars hes
      rw [prettyAll, List.map_cons] at hrest
      rw [prettyAll, prettyAll, List.map_cons, List.map_cons, List.intercalate_cons_cons,
        List.append_assoc, List.append_assoc, List.cons_append]
      exact readElements_more (readValue_pretty x h.1 d bs _ hbs) (skipBlanks_cons rfl _) hrest
theorem readFields_prettyFields (fs : List (String × Json)) (h : FieldsPlain fs) (d : Nat)
    (hne : prettyFields d fs ≠ []) (bs es rest : List Char)
    (hbs : ∀ b ∈ bs, isBlank b = true) (hes : ∀ b ∈ es, isBlank b = true) :
    (readFields (bs ++ ((',' :: indentChars d).intercalate
      ((prettyFields d fs).map String.toList) ++ (es ++ '\x7d' :: rest)))).map pair =
      some (some fs, rest) := by
  cases fs with
  | nil => exact absurd rfl hne
  | cons f fs =>
    obtain ⟨k, x⟩ := f
    rw [FieldsPlain] at h
    cases fs with
    | nil =>
      have hx := readValue_pretty x h.1 d [' '] (es ++ '\x7d' :: rest) (by simp [isBlank])
      rw [prettyFields, prettyFields, List.map_singleton, List.intercalate_singleton,
        readFields_field k hbs hx, skipBlanks_append hes, skipBlanks_cons rfl]
      rfl
    | cons g gs =>
      have hrest := readFields_prettyFields (g :: gs) h.2 d (by simp [prettyFields]) (indentChars d)
        es rest isBlank_of_mem_indentChars hes
      rw [prettyFields, List.map_cons] at hrest
      rw [prettyFields, prettyFields, List.map_cons, List.map_cons, List.intercalate_cons_cons,
        List.append_assoc, List.append_assoc, List.cons_append,
        readFields_field k hbs (readValue_pretty x h.1 d [' '] _ (by simp [isBlank])), skipBlanks_cons rfl]
      simp only [hrest]
      rfl
end

/-- A text that was written is read as the value it was written for. -/
theorem ofText?_pretty {j : Json} (h : j.Plain) : ofText? (j.pretty 0) = some j := by
  have hread := readValue_pretty j h 0 [] [] (by simp)
  rw [List.append_nil, List.nil_append] at hread
  rw [ofText?]
  split
  · rename_i value rest _ hvalue
    rw [hvalue] at hread
    have hpair : (value, rest) = (j, []) := Option.some.inj hread
    rw [(Prod.mk.inj hpair).1, (Prod.mk.inj hpair).2]
    rfl
  · rename_i hnone
    rw [hnone] at hread
    cases hread

end Json

end Tern
