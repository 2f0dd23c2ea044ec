import Tern.Options
import Tern.Text.Reading

/-!
Options as they are written in a file: a line `key = value` for each, where the value is a text in
quotes, `true` or `false`. A comment starts with `#` and ends with its line. Texts may stand between
single or double quotes, and between three of them over several lines; a backslash has a meaning
between double quotes only.
-/

set_option autoImplicit false

namespace Tern.Options

open Text (Reading hexValue? isDigit)

inductive Setting
  | text (value : String)
  | flag (value : Bool)
  deriving DecidableEq, Repr

/-- The character is a tab or no control. -/
def isPlain (c : Char) : Bool := c = '\t' || (32 ≤ c.toNat && c.toNat ≠ 127)

def isBlank (c : Char) : Bool := c = ' ' || c = '\t'

def skipBlanks (cs : List Char) : List Char := cs.dropWhile isBlank

theorem length_skipBlanks_le (cs : List Char) : (skipBlanks cs).length ≤ cs.length :=
  (List.dropWhile_sublist _).length_le

/-- A line break, which may be written in two ways. -/
def lineBreak : (cs : List Char) → Option (Reading cs Unit)
  | '\n' :: _ => some (.next ())
  | '\r' :: '\n' :: _ => some (Reading.next ()).later
  | _ => none

def skipLines : List Char → List Char
  | '\r' :: '\n' :: rest => skipLines rest
  | c :: rest => if isBlank c || c = '\n' then skipLines rest else c :: rest
  | [] => []

theorem length_skipLines_le (cs : List Char) : (skipLines cs).length ≤ cs.length := by
  fun_induction skipLines cs with
  | case1 rest ih =>
    simp only [List.length_cons]
    omega
  | case2 c rest _ _ ih =>
    simp only [List.length_cons]
    omega
  | case3 c rest _ _ => exact Nat.le_refl _
  | case4 => exact Nat.le_refl _

/-- The character with the code point that the first `count` digits give. -/
def codePoint? (count : Nat) (cs : List Char) : Option Char :=
  if cs.length < count then none
  else
    match (cs.take count).mapM hexValue? with
    | none => none
    | some digits =>
      let n := digits.foldl (fun n d => n * 16 + d) 0
      if n.isValidChar then some (Char.ofNat n) else none

def escaped : (cs : List Char) → Option (Reading cs Char)
  | 'b' :: _ => some (.next '\x08')
  | 't' :: _ => some (.next '\t')
  | 'n' :: _ => some (.next '\n')
  | 'f' :: _ => some (.next '\x0c')
  | 'r' :: _ => some (.next '\r')
  | '"' :: _ => some (.next '"')
  | '\\' :: _ => some (.next '\\')
  | 'u' :: rest => (codePoint? 4 rest).map fun c => (Reading.next c).drop 4
  | 'U' :: rest => (codePoint? 8 rest).map fun c => (Reading.next c).drop 8
  | _ => none

def readText (quote : Char) (cs text : List Char) : Option (Reading cs String) :=
  match cs with
  | [] => none
  | c :: rest =>
    if c = quote then some (.next (String.ofList text.reverse))
    else if c = '\\' ∧ quote = '"' then
      match escaped rest with
      | none => none
      | some r =>
        have := r.shorter
        (readText quote r.rest (r.value :: text)).map fun s => (r.followedBy s).later
    else if isPlain c then (readText quote rest (c :: text)).map .later
    else none
termination_by cs.length
decreasing_by
  all_goals simp only [List.length_cons]
  all_goals omega

/-- A backslash at the end of a line joins the line to the next text. -/
def joinedLine (cs : List Char) : Option (Reading cs Unit) :=
  (lineBreak (skipBlanks cs)).map fun r =>
    ⟨(), skipLines r.rest, Nat.lt_of_le_of_lt (length_skipLines_le r.rest)
      (Nat.lt_of_lt_of_le r.shorter (length_skipBlanks_le cs))⟩

/-- A text over several lines up to three closing quotes, before which two more may stand. -/
def readLines (quote : Char) (cs text : List Char) : Option (Reading cs String) :=
  match cs with
  | [] => none
  | c :: rest =>
    if c = quote then
      let quotes := (rest.takeWhile (· = quote)).length
      if 2 ≤ quotes then
        if quotes ≤ 4 then
          let closing := List.replicate (quotes - 2) quote
          some ((Reading.next (String.ofList (closing ++ text).reverse)).drop quotes)
        else none
      else (readLines quote rest (c :: text)).map .later
    else
      match lineBreak (c :: rest) with
      | some r =>
        have := r.shorter
        (readLines quote r.rest ('\n' :: text)).map r.followedBy
      | none =>
        if c = '\\' ∧ quote = '"' then
          match joinedLine rest with
          | some r =>
            have := r.shorter
            (readLines quote r.rest text).map fun s => (r.followedBy s).later
          | none =>
            match escaped rest with
            | none => none
            | some r =>
              have := r.shorter
              (readLines quote r.rest (r.value :: text)).map fun s => (r.followedBy s).later
        else if isPlain c then (readLines quote rest (c :: text)).map .later
        else none
termination_by cs.length
decreasing_by
  all_goals simp only [List.length_cons] at *
  all_goals omega

/-- A text in quotes. A line break right after three opening quotes does not count. -/
def readQuoted (quote : Char) (cs : List Char) : Option (Reading cs String) :=
  match cs with
  | a :: b :: rest =>
    if a = quote ∧ b = quote then
      match lineBreak rest with
      | some r => (readLines quote r.rest []).map fun s => (r.followedBy s).later.later
      | none => (readLines quote rest []).map fun s => s.later.later
    else readText quote (a :: b :: rest) []
  | cs => readText quote cs []

def readValue (cs : List Char) : Option (Reading cs Setting) :=
  match cs with
  | '"' :: rest => (readQuoted '"' rest).map fun r => (r.map .text).later
  | '\'' :: rest => (readQuoted '\'' rest).map fun r => (r.map .text).later
  | 't' :: 'r' :: 'u' :: 'e' :: _ => some ((Reading.next (.flag true)).drop 3)
  | 'f' :: 'a' :: 'l' :: 's' :: 'e' :: _ => some ((Reading.next (.flag false)).drop 4)
  | _ => none

def isKeyChar (c : Char) : Bool := isDigit c || c.isAlpha || c = '-' || c = '_'

/-- A key is a word, or a text in quotes on one line. -/
def readKey (cs : List Char) : Option (Reading cs String) :=
  match cs with
  | [] => none
  | c :: rest =>
    if c = '"' ∨ c = '\'' then (readText c rest []).map .later
    else if isKeyChar c then
      let word := String.ofList (c :: rest.takeWhile isKeyChar)
      some ((Reading.next word).dropWhile isKeyChar)
    else none

/-- What follows a line break; the text may also end. -/
def nextLine (cs : List Char) : Option { rest : List Char // rest.length ≤ cs.length } :=
  match cs with
  | [] => some ⟨[], Nat.le_refl _⟩
  | c :: rest => (lineBreak (c :: rest)).map fun r => ⟨r.rest, Nat.le_of_lt r.shorter⟩

def afterComment (cs : List Char) : Option { rest : List Char // rest.length ≤ cs.length } :=
  (nextLine (cs.dropWhile isPlain)).map fun r =>
    ⟨r.1, Nat.le_trans r.2 (List.dropWhile_sublist _).length_le⟩

/-- What follows a line that holds nothing more than blanks and a comment. -/
def lineEnd (cs : List Char) : Option { rest : List Char // rest.length ≤ cs.length } :=
  have hb := length_skipBlanks_le cs
  match h : skipBlanks cs with
  | '#' :: rest => (afterComment rest).map fun r => ⟨r.1, by
      have := r.2
      simp only [h, List.length_cons] at hb
      omega⟩
  | rest => (nextLine rest).map fun r => ⟨r.1, by
      have := r.2
      simp only [h] at hb
      omega⟩

/-- A key with its value, and nothing more on the line. -/
def readEntry (cs : List Char) : Option (Reading cs (String × Setting)) :=
  match readKey cs with
  | none => none
  | some ⟨key, afterKey, hkey⟩ =>
    have hk := length_skipBlanks_le afterKey
    match h : skipBlanks afterKey with
    | '=' :: afterSign =>
      have hs := length_skipBlanks_le afterSign
      match readValue (skipBlanks afterSign) with
      | none => none
      | some ⟨value, afterValue, hvalue⟩ =>
        (lineEnd afterValue).map fun rest => ⟨(key, value), rest.1, by
          have := rest.2
          simp only [h, List.length_cons] at *
          omega⟩
    | _ => none

def readEntries (cs : List Char) : Option (List (String × Setting)) :=
  have hb := length_skipBlanks_le cs
  match h : skipBlanks cs with
  | [] => some []
  | c :: rest =>
    have hlt : rest.length < cs.length := by simp only [h, List.length_cons] at hb; omega
    if c = '#' then
      match afterComment rest with
      | none => none
      | some ⟨more, hmore⟩ => readEntries more
    else
      match lineBreak (c :: rest) with
      | some ⟨_, more, hmore⟩ => readEntries more
      | none =>
        match readEntry (c :: rest) with
        | none => none
        | some ⟨entry, more, hmore⟩ => (readEntries more).map (entry :: ·)
termination_by cs.length
decreasing_by
  · omega
  · simp only [List.length_cons] at hmore
    omega
  · simp only [List.length_cons] at hmore
    omega

/-- The options after one more setting, which has to be of the right kind. -/
def set? (o : Options) : String × Setting → Option Options
  | ("default_module", .text s) => some { o with defaultPath.module := s }
  | ("default_package", .text s) => some { o with defaultPath.package := s }
  | ("file_name", .text s) => some { o with fileName := s }
  | ("prelude", .flag b) => some { o with hasPrelude := b }
  | _ => none

/-- What is not set keeps its default; nothing is set twice. -/
def ofEntries? (entries : List (String × Setting)) : Option Options :=
  if (entries.map Prod.fst).Nodup then entries.foldlM set? default else none

def dropByteOrderMark : List Char → List Char
  | '\uFEFF' :: rest => rest
  | cs => cs

def ofText? (text : String) : Option Options :=
  (readEntries (dropByteOrderMark text.toList)).bind ofEntries?

end Tern.Options
