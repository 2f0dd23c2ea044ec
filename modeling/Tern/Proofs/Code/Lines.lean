import Tern.Code
import Tern.Token.Scan
import Tern.Proofs.Text.Quoted

/-!
What is printed on the lines of lowered code: names, numbers, storages and types. None of it breaks
a line, and as long as names are words each can be read off the line, whatever follows it.
-/

set_option autoImplicit false

namespace Tern

open Text

/-! What may be printed -/

/-- Letters, digits and underscores, at least one of them. -/
def Piece.isWord (x : String) : Bool := !x.toList.isEmpty && x.toList.all isNamePart

open Piece (isNamePart isWord)

def PackagePath.isNamed (p : PackagePath) : Bool := isWord p.module && isWord p.package

mutual
/-- All names that are printed with the type are words. -/
def Ty.isNamed : Ty → Bool
  | .primitive _ => true
  | .function s => s.isNamed
  | .overloaded ss => Signature.allNamed ss
  | .param x => isWord x
  | .variant head args => isWord head.name && head.case.all isWord && Ty.allNamed args
  | .array element => element.isNamed
def Ty.allNamed : List Ty → Bool
  | [] => true
  | t :: ts => t.isNamed && Ty.allNamed ts
def Signature.isNamed : Signature → Bool
  | .mk params ret => Ty.allNamed params && ret.isNamed
def Signature.allNamed : List Signature → Bool
  | [] => true
  | s :: ss => s.isNamed && Signature.allNamed ss
end

def Storage.isNamed : Storage → Bool
  | .frame x => isWord x
  | outer x _ => isWord x
  | argument _ => true
  | package path x => path.isNamed && isWord x

def PackageItem.isNamed (item : PackageItem) : Bool := item.path.isNamed && isWord item.name

def CaseShape.isNamed (c : CaseShape) : Bool := isWord c.name && c.fields.all isWord

/-! Words and numbers -/

section Words

variable {x y : String} {r r' : List Char}

/-- The code points of letters, digits and underscores. -/
theorem toNat_of_isNamePart {c : Char} (h : isNamePart c = true) :
    (97 ≤ c.toNat ∧ c.toNat ≤ 122) ∨ (65 ≤ c.toNat ∧ c.toNat ≤ 90) ∨ c.toNat = 95 ∨
      (48 ≤ c.toNat ∧ c.toNat ≤ 57) := by
  simp only [isNamePart, Piece.isNameStart, Piece.isDigit, Bool.or_eq_true, Bool.and_eq_true,
    decide_eq_true_eq, Char.le_def, UInt32.le_iff_toNat_le] at h
  rcases h with ((h | h) | rfl) | h
  · exact Or.inl h
  · exact Or.inr (Or.inl h)
  · exact Or.inr (Or.inr (Or.inl rfl))
  · exact Or.inr (Or.inr (Or.inr h))

theorem isBlank_of_isNamePart {c : Char} (h : isNamePart c = true) : Text.isBlank c = false := by
  have hn := toNat_of_isNamePart h
  simp only [Text.isBlank, Bool.or_eq_false_iff, Bool.and_eq_false_iff, decide_eq_false_iff_not]
  omega

theorem isNamePart_of_isDigit {c : Char} (h : c.isDigit = true) : isNamePart c = true := by
  simp only [Char.isDigit, Bool.and_eq_true, decide_eq_true_eq] at h
  simp only [isNamePart, Piece.isDigit, Bool.or_eq_true, Bool.and_eq_true, decide_eq_true_eq]
  exact Or.inr h

theorem isWord_iff : isWord x = true ↔ x.toList ≠ [] ∧ ∀ c ∈ x.toList, isNamePart c = true := by
  simp [isWord]

theorem closes_of_isWord (hx : isWord x = true) : Closes x := by
  obtain ⟨hne, hparts⟩ := isWord_iff.mp hx
  refine ⟨fun hmem => ?_, ?_⟩
  · exact absurd (hparts _ hmem) (by decide)
  · rw [List.getLast?_eq_some_getLast hne, Option.any_some,
      isBlank_of_isNamePart (hparts _ (List.getLast_mem hne))]
    rfl

theorem isWord_repr (n : Nat) : isWord n.repr = true := by
  rw [isWord_iff, Nat.repr_eq_ofList_toDigits, String.toList_ofList]
  exact ⟨Nat.toDigits_ne_nil, fun c hc =>
    isNamePart_of_isDigit (Nat.isDigit_of_mem_toDigits (by decide) (by decide) hc)⟩

theorem closes_toString_int (n : Int) : Closes (toString n) := by
  cases n with
  | ofNat n => exact closes_of_isWord (isWord_repr n)
  | negSucc n => exact (closes_of_isWord (isWord_repr (n + 1))).append (by decide)

/-- What may follow a word. -/
def Ends (r : List Char) : Prop := ∀ c ∈ r.head?, isNamePart c = false

theorem ends_nil : Ends [] := by simp [Ends]

theorem ends_append {s : String} (h : s.toList.head?.any (fun c => !isNamePart c) = true) :
    Ends (s.toList ++ r) := by
  cases hs : s.toList with
  | nil => simp [hs] at h
  | cons c cs => simpa [Ends, hs] using h

theorem word_append_inj (hx : isWord x = true) (hy : isWord y = true) (hr : Ends r) (hr' : Ends r')
    (h : x.toList ++ r = y.toList ++ r') : x = y ∧ r = r' := by
  have hword {x : String} (hx : isWord x = true) : ∀ c ∈ x.toList, (!isNamePart c) = false := by
    simpa using (isWord_iff.mp hx).2
  have hends {r : List Char} (hr : Ends r) : ∀ c ∈ r.head?, (!isNamePart c) = true := by
    simpa [Ends] using hr
  obtain ⟨hname, hrest⟩ := append_inj_of_stops (hword hx) (hword hy) (hends hr) (hends hr') h
  exact ⟨String.toList_inj.mp hname, hrest⟩

/-- Words, each behind a comma. -/
def further (xs : List String) : List Char := xs.flatMap fun x => ", ".toList ++ x.toList

theorem toList_intercalate_cons (x : String) (xs : List String) :
    (", ".intercalate (x :: xs)).toList = x.toList ++ further xs := by
  rw [String.toList_intercalate, List.map_cons]
  induction xs generalizing x with
  | nil => simp [further]
  | cons y ys ih =>
    rw [List.map_cons, List.intercalate_cons_cons, ih, further, further, List.flatMap_cons,
      List.append_assoc, List.append_assoc]

theorem ends_further {xs : List String} (hr : Ends r) : Ends (further xs ++ r) := by
  cases xs with
  | nil => exact hr
  | cons x xs =>
    rw [further, List.flatMap_cons, List.append_assoc, List.append_assoc]
    exact ends_append (by decide)

theorem further_inj {xs ys : List String} (hxs : ∀ x ∈ xs, isWord x = true)
    (hys : ∀ y ∈ ys, isWord y = true) (h : further xs = further ys) : xs = ys := by
  induction xs generalizing ys with
  | nil =>
    cases ys with
    | nil => rfl
    | cons y ys => simp [further] at h
  | cons x xs ih =>
    cases ys with
    | nil => simp [further] at h
    | cons y ys =>
      rw [List.forall_mem_cons] at hxs hys
      rw [further, further, List.flatMap_cons, List.flatMap_cons, List.append_assoc,
        List.append_assoc] at h
      have hmore (zs : List String) : Ends (further zs) := by
        rw [← List.append_nil (further zs)]
        exact ends_further ends_nil
      obtain ⟨rfl, hrest⟩ :=
        word_append_inj hxs.1 hys.1 (hmore xs) (hmore ys) (List.append_cancel_left h)
      rw [ih hxs.2 hys.2 hrest]

/-- Words between commas, up to a closing bracket. -/
theorem words_append_inj {xs ys : List String} (hxs : ∀ x ∈ xs, isWord x = true)
    (hys : ∀ y ∈ ys, isWord y = true)
    (h : (", ".intercalate xs).toList ++ ")".toList = (", ".intercalate ys).toList ++ ")".toList) :
    xs = ys := by
  have hbracket : Ends ")".toList := by simp [Ends]; decide
  -- a word is no closing bracket
  have hnone {y : String} {ys : List String} (hy : isWord y = true) :
      ")".toList ≠ (", ".intercalate (y :: ys)).toList ++ ")".toList := by
    intro h
    rw [toList_intercalate_cons, List.append_assoc] at h
    obtain ⟨hne, hparts⟩ := isWord_iff.mp hy
    obtain ⟨c, cs, hcs⟩ := List.exists_cons_of_ne_nil hne
    rw [h] at hbracket
    have hend := hbracket c (by simp [hcs])
    rw [hparts c (by simp [hcs])] at hend
    cases hend
  cases xs with
  | nil =>
    cases ys with
    | nil => rfl
    | cons y ys => exact (hnone (hys y List.mem_cons_self) (by simpa using h)).elim
  | cons x xs =>
    cases ys with
    | nil => exact (hnone (hxs x List.mem_cons_self) (by simpa using h.symm)).elim
    | cons y ys =>
      rw [List.forall_mem_cons] at hxs hys
      rw [toList_intercalate_cons, toList_intercalate_cons, List.append_assoc,
        List.append_assoc] at h
      obtain ⟨rfl, hrest⟩ :=
        word_append_inj hxs.1 hys.1 (ends_further hbracket) (ends_further hbracket) h
      rw [further_inj hxs.2 hys.2 (List.append_cancel_right hrest)]

end Words

/-! Paths, items and storages -/

section Places

variable {p q : PackagePath} {x y : String} {r r' : List Char}

theorem path_append_inj (hp : p.isNamed = true) (hq : q.isNamed = true) (hr : Ends r)
    (hr' : Ends r') (h : p.text.toList ++ r = q.text.toList ++ r') : p = q ∧ r = r' := by
  rw [PackagePath.isNamed, Bool.and_eq_true] at hp hq
  simp only [PackagePath.text, String.toList_append, List.append_assoc] at h
  obtain ⟨hmodule, hmore⟩ :=
    word_append_inj hp.1 hq.1 (ends_append (by decide)) (ends_append (by decide)) h
  obtain ⟨hpackage, hrest⟩ := word_append_inj hp.2 hq.2 hr hr' (List.append_cancel_left hmore)
  refine ⟨?_, hrest⟩
  cases p
  cases q
  rw [PackagePath.mk.injEq]
  exact ⟨hmodule, hpackage⟩

theorem place_append_inj (hp : p.isNamed = true) (hq : q.isNamed = true) (hx : isWord x = true)
    (hy : isWord y = true) (hr : Ends r) (hr' : Ends r')
    (h : p.text.toList ++ (".".toList ++ (x.toList ++ r)) =
      q.text.toList ++ (".".toList ++ (y.toList ++ r'))) : p = q ∧ x = y ∧ r = r' := by
  obtain ⟨hpath, hrest⟩ :=
    path_append_inj hp hq (ends_append (by decide)) (ends_append (by decide)) h
  exact ⟨hpath, word_append_inj hx hy hr hr' (List.append_cancel_left hrest)⟩

theorem closes_path (hp : p.isNamed = true) : Closes p.text := by
  rw [PackagePath.isNamed, Bool.and_eq_true] at hp
  exact (closes_of_isWord hp.2).append ((closes_of_isWord hp.1).unbroken.append (by decide))

theorem closes_place (hp : p.isNamed = true) (hx : isWord x = true) :
    Closes (p.text ++ "." ++ x) :=
  (closes_of_isWord hx).append ((closes_path hp).unbroken.append (by decide))

end Places

theorem Storage.closes_text {s : Storage} (hs : s.isNamed = true) : Closes s.text := by
  cases s with
  | frame x => exact (closes_of_isWord hs).append (by decide)
  | outer x depth =>
    refine (closes_of_isWord (isWord_repr depth)).append ?_
    exact (Unbroken.append (by decide) (closes_of_isWord hs).unbroken).append (by decide)
  | argument i => exact (closes_of_isWord (isWord_repr i)).append (by decide)
  | package path x =>
    rw [isNamed, Bool.and_eq_true] at hs
    refine (closes_of_isWord hs.2).append (Unbroken.append ?_ (by decide))
    exact Unbroken.append (by decide) (closes_path hs.1).unbroken

theorem Storage.text_inj {s t : Storage} (hs : s.isNamed = true) (ht : t.isNamed = true)
    (h : s.text = t.text) : s = t := by
  rw [← String.toList_inj] at h
  cases s with
  | frame x =>
    cases t with
    | frame y =>
      simp only [text, String.toList_append, List.append_cancel_left_eq] at h
      rw [String.toList_inj.mp h]
    | _ => simp [text] at h
  | outer x depth =>
    cases t with
    | outer y depth' =>
      simp only [text, String.toList_append, List.append_assoc, List.append_cancel_left_eq] at h
      obtain ⟨rfl, hdepth⟩ :=
        word_append_inj hs ht (ends_append (by decide)) (ends_append (by decide)) h
      rw [repr_inj (String.toList_inj.mp (List.append_cancel_left hdepth))]
    | _ => simp [text] at h
  | argument i =>
    cases t with
    | argument j =>
      simp only [text, String.toList_append, List.append_cancel_left_eq] at h
      rw [repr_inj (String.toList_inj.mp h)]
    | _ => simp [text] at h
  | package path x =>
    cases t with
    | package path' y =>
      rw [isNamed, Bool.and_eq_true] at hs ht
      simp only [text, String.toList_append, List.append_assoc, List.append_cancel_left_eq] at h
      rw [← List.append_nil x.toList, ← List.append_nil y.toList] at h
      obtain ⟨rfl, rfl, _⟩ := place_append_inj hs.1 ht.1 hs.2 ht.2 ends_nil ends_nil h
      rfl
    | _ => simp [text] at h

/-! Cases and types -/

namespace CaseShape

theorem isLine_text {c : CaseShape} (hc : c.isNamed = true) : IsLine c.text := by
  rw [isNamed, Bool.and_eq_true, List.all_eq_true] at hc
  have hname := (closes_of_isWord hc.1).unbroken
  have hfields : Unbroken (", ".intercalate c.fields) :=
    .intercalate (by decide) fun x hx => (closes_of_isWord (hc.2 x hx)).unbroken
  refine ⟨?_, Closes.append (by decide) ?_⟩
  · exact (((Opens.append (by decide) hname).append (by decide)).append hfields).append (by decide)
  · exact ((Unbroken.append (by decide) hname).append (by decide)).append hfields

theorem text_inj {c d : CaseShape} (hc : c.isNamed = true) (hd : d.isNamed = true)
    (h : c.text = d.text) : c = d := by
  rw [isNamed, Bool.and_eq_true, List.all_eq_true] at hc hd
  rw [← String.toList_inj] at h
  simp only [text, String.toList_append, List.append_assoc, List.append_cancel_left_eq] at h
  obtain ⟨hname, hrest⟩ :=
    word_append_inj hc.1 hd.1 (ends_append (by decide)) (ends_append (by decide)) h
  have hfields := words_append_inj hc.2 hd.2 (List.append_cancel_left hrest)
  cases c
  cases d
  rw [mk.injEq]
  exact ⟨hname, hfields⟩

theorem leaves_inj {cs ds : List CaseShape} (hcs : ∀ c ∈ cs, c.isNamed = true)
    (hds : ∀ d ∈ ds, d.isNamed = true)
    (h : cs.map (fun c => Outline.leaf c.text) = ds.map fun d => Outline.leaf d.text) :
    cs = ds := by
  induction cs generalizing ds with
  | nil => exact (List.map_eq_nil_iff.mp h.symm).symm
  | cons c cs ih =>
    cases ds with
    | nil => cases h
    | cons d ds =>
      rw [List.forall_mem_cons] at hcs hds
      obtain ⟨hfirst, hrest⟩ := List.cons.inj h
      rw [text_inj hcs.1 hds.1 (Outline.node.inj hfirst).1, ih hcs.2 hds.2 hrest]

end CaseShape

mutual

theorem Ty.unbroken_text (t : Ty) (h : t.isNamed = true) : Unbroken t.text := by
  cases t with
  | primitive p => cases p <;> decide
  | function s => exact s.unbroken_text h
  | overloaded ss => exact .intercalate (by decide) (Signature.unbroken_texts ss h)
  | param x => exact (closes_of_isWord h).unbroken
  | variant head args =>
    simp only [Ty.isNamed, Bool.and_eq_true] at h
    obtain ⟨⟨hname, hcase⟩, hargs⟩ := h
    have hbetween := Unbroken.intercalate (s := ", ") (by decide) (Ty.unbroken_texts args hargs)
    simp only [Ty.text]
    refine (Unbroken.append (closes_of_isWord hname).unbroken ?_).append ?_
    · cases args with
      | nil => decide
      | cons a as => exact (Unbroken.append (by decide) hbetween).append (by decide)
    · cases hc : head.case with
      | none => decide
      | some x =>
        rw [hc] at hcase
        exact Unbroken.append (by decide) (closes_of_isWord hcase).unbroken
  | array element =>
    exact (Unbroken.append (by decide) (element.unbroken_text h)).append (by decide)
termination_by structural t

theorem Ty.unbroken_texts (ts : List Ty) (h : Ty.allNamed ts = true) :
    ∀ x ∈ Ty.texts ts, Unbroken x := by
  cases ts with
  | nil => simp [Ty.texts]
  | cons t ts =>
    rw [Ty.allNamed, Bool.and_eq_true] at h
    rw [Ty.texts, List.forall_mem_cons]
    exact ⟨t.unbroken_text h.1, Ty.unbroken_texts ts h.2⟩
termination_by structural ts

theorem Signature.unbroken_text (s : Signature) (h : s.isNamed = true) : Unbroken s.text := by
  cases s with
  | mk params ret =>
    rw [Signature.isNamed, Bool.and_eq_true] at h
    have hparams := Unbroken.intercalate (s := ", ") (by decide) (Ty.unbroken_texts params h.1)
    rw [Signature.text]
    exact ((Unbroken.append (by decide) hparams).append (by decide)).append (ret.unbroken_text h.2)
termination_by structural s

theorem Signature.unbroken_texts (ss : List Signature) (h : Signature.allNamed ss = true) :
    ∀ x ∈ Signature.texts ss, Unbroken x := by
  cases ss with
  | nil => simp [Signature.texts]
  | cons s ss =>
    rw [Signature.allNamed, Bool.and_eq_true] at h
    rw [Signature.texts, List.forall_mem_cons]
    exact ⟨s.unbroken_text h.1, Signature.unbroken_texts ss h.2⟩
termination_by structural ss

end

end Tern
