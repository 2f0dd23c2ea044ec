import Tern.Text.Quoted
import Tern.Proofs.Text.Outline

/-!
Quoted texts can be read back, and they stay on one line. A character stands for itself, or it is
escaped by another one behind a backslash, or by its code point between braces.
-/

set_option autoImplicit false

namespace Tern.Text

/-! Numbers -/

theorem digitChar_inj : ∀ a < 16, ∀ b < 16, Nat.digitChar a = Nat.digitChar b → a = b := by decide

theorem toDigits_inj {base : Nat} (hone : 1 < base) (hbase : base ≤ 16) {m n : Nat}
    (h : Nat.toDigits base m = Nat.toDigits base n) : m = n := by
  induction m using Nat.strongRecOn generalizing n with
  | _ m ih =>
    rw [Nat.toDigits_eq_if (n := m) hone, Nat.toDigits_eq_if (n := n) hone] at h
    have hnonempty (k : Nat) : Nat.toDigits base k ≠ [] := Nat.toDigits_ne_nil
    have hmod (k : Nat) : k % base < 16 := Nat.lt_of_lt_of_le (Nat.mod_lt k (by omega)) hbase
    split at h <;> split at h
    · exact digitChar_inj m (by omega) n (by omega) (List.cons.inj h).1
    · have hlength := congrArg List.length h
      simp [hnonempty] at hlength
    · have hlength := congrArg List.length h
      simp [hnonempty] at hlength
    · obtain ⟨hinit, hlast⟩ := List.append_inj' h rfl
      have hdiv := ih (m / base) (Nat.div_lt_self (by omega) hone) hinit
      have hrest := digitChar_inj _ (hmod m) _ (hmod n) (List.cons.inj hlast).1
      rw [← Nat.div_add_mod m base, hdiv, hrest, Nat.div_add_mod]

theorem repr_inj {m n : Nat} (h : m.repr = n.repr) : m = n := by
  rw [Nat.repr_eq_ofList_toDigits, Nat.repr_eq_ofList_toDigits, String.ofList_inj] at h
  exact toDigits_inj (by decide) (by decide) h

theorem int_repr_inj {m n : Int} (h : m.repr = n.repr) : m = n := by
  have hsign (k l : Nat) : k.repr ≠ "-" ++ l.repr := by
    intro heq
    have hmem : '-' ∈ Nat.toDigits 10 k := by
      rw [← String.toList_ofList (l := Nat.toDigits 10 k), ← Nat.repr_eq_ofList_toDigits, heq,
        String.toList_append]
      exact List.mem_append_left _ (by decide)
    exact absurd (Nat.isDigit_of_mem_toDigits (by decide) (by decide) hmem) (by decide)
  cases m with
  | ofNat m =>
    cases n with
    | ofNat n => exact congrArg Int.ofNat (repr_inj h)
    | negSucc n => exact absurd h (hsign m (n + 1))
  | negSucc m =>
    cases n with
    | ofNat n => exact absurd h.symm (hsign n (m + 1))
    | negSucc n =>
      exact congrArg Int.negSucc (Nat.succ.inj (repr_inj ((String.append_right_inj _).mp h)))

theorem exists_digit_of_mem {c : Char} (n : Nat) (hc : c ∈ Nat.toDigits 16 n) :
    ∃ d < 16, c = Nat.digitChar d := by
  induction n using Nat.strongRecOn with
  | _ n ih =>
    rw [Nat.toDigits_eq_if (by decide)] at hc
    split at hc
    · exact ⟨n, by omega, List.mem_singleton.mp hc⟩
    · rcases List.mem_append.mp hc with hc | hc
      · exact ih (n / 16) (by omega) hc
      · exact ⟨n % 16, by omega, List.mem_singleton.mp hc⟩

theorem plain_of_mem_toDigits {c : Char} {n : Nat} (hc : c ∈ Nat.toDigits 16 n) :
    c ≠ '\n' ∧ c ≠ '\x7d' := by
  obtain ⟨d, hd, rfl⟩ := exists_digit_of_mem n hc
  have hall : ∀ d < 16, Nat.digitChar d ≠ '\n' ∧ Nat.digitChar d ≠ '\x7d' := by decide
  exact hall d hd

/-! Characters -/

/-- The characters that have an escape of their own, each with what stands behind the backslash. -/
def shortEscapes : List (Char × Char) :=
  [('"', '"'), ('\\', '\\'), ('\n', 'n'), ('\r', 'r'), ('\t', 't'), ('\x00', '0')]

theorem escape_cases (c : Char) :
    (escape c = [c] ∧ c ≠ '\\' ∧ c ≠ '\n') ∨
    (∃ x, (c, x) ∈ shortEscapes ∧ escape c = ['\\', x]) ∨
    escape c = codePoint c := by
  unfold escape
  split_ifs with h₁ h₂ h₃ h₄ h₅ h₆ h₇
  · exact Or.inr (Or.inl ⟨'"', by simp [shortEscapes, h₁], rfl⟩)
  · exact Or.inr (Or.inl ⟨'\\', by simp [shortEscapes, h₂], rfl⟩)
  · exact Or.inr (Or.inl ⟨'n', by simp [shortEscapes, h₃], rfl⟩)
  · exact Or.inr (Or.inl ⟨'r', by simp [shortEscapes, h₄], rfl⟩)
  · exact Or.inr (Or.inl ⟨'t', by simp [shortEscapes, h₅], rfl⟩)
  · exact Or.inr (Or.inl ⟨'0', by simp [shortEscapes, h₆], rfl⟩)
  · exact Or.inl ⟨rfl, h₂, h₃⟩
  · exact Or.inr (Or.inr rfl)

theorem shortEscapes_inj {c d x : Char} (hc : (c, x) ∈ shortEscapes) (hd : (d, x) ∈ shortEscapes) :
    c = d := by
  have hall : ∀ p ∈ shortEscapes, ∀ q ∈ shortEscapes, p.2 = q.2 → p.1 = q.1 := by decide
  exact hall _ hc _ hd rfl

theorem ne_of_mem_shortEscapes {c x : Char} (h : (c, x) ∈ shortEscapes) : x ≠ 'u' ∧ x ≠ '\n' := by
  have hall : ∀ p ∈ shortEscapes, p.2 ≠ 'u' ∧ p.2 ≠ '\n' := by decide
  exact hall _ h

theorem codePoint_append_inj {c d : Char} {r r' : List Char}
    (h : codePoint c ++ r = codePoint d ++ r') : c = d ∧ r = r' := by
  simp only [codePoint, List.append_assoc, List.cons_append, List.nil_append, List.cons.injEq,
    true_and] at h
  have hdigits (c : Char) : ∀ x ∈ Nat.toDigits 16 c.toNat, decide (x = '\x7d') = false :=
    fun x hx => decide_eq_false (plain_of_mem_toDigits hx).2
  obtain ⟨hnumber, hrest⟩ :=
    append_inj_of_stops (hdigits c) (hdigits d) (by simp) (by simp) h
  exact ⟨Char.toNat_inj.mp (toDigits_inj (by decide) (by decide) hnumber), (List.cons.inj hrest).2⟩

/-- No escape is the beginning of another one. -/
theorem escape_append_inj {c d : Char} {r r' : List Char} (h : escape c ++ r = escape d ++ r') :
    c = d ∧ r = r' := by
  rcases escape_cases c with ⟨hc, hcb, _⟩ | ⟨x, hx, hc⟩ | hc <;>
    rcases escape_cases d with ⟨hd, hdb, _⟩ | ⟨y, hy, hd⟩ | hd <;> rw [hc, hd] at h
  · exact ⟨(List.cons.inj h).1, (List.cons.inj h).2⟩
  · exact absurd (List.cons.inj h).1 hcb
  · exact absurd (List.cons.inj h).1 hcb
  · exact absurd (List.cons.inj h).1.symm hdb
  · simp only [List.cons_append, List.nil_append, List.cons.injEq, true_and] at h
    obtain ⟨rfl, hrest⟩ := h
    exact ⟨shortEscapes_inj hx hy, hrest⟩
  · simp only [codePoint, List.cons_append, List.nil_append, List.cons.injEq, true_and] at h
    exact absurd h.1 (ne_of_mem_shortEscapes hx).1
  · exact absurd (List.cons.inj h).1.symm hdb
  · simp only [codePoint, List.cons_append, List.nil_append, List.cons.injEq, true_and] at h
    exact absurd h.1.symm (ne_of_mem_shortEscapes hy).1
  · exact codePoint_append_inj h

theorem newline_not_mem_escape (c : Char) : '\n' ∉ escape c := by
  rcases escape_cases c with ⟨hc, _, hn⟩ | ⟨x, hx, hc⟩ | hc <;> rw [hc]
  · simpa using hn.symm
  · simpa using (ne_of_mem_shortEscapes hx).2.symm
  · intro hmem
    simp only [codePoint, List.mem_append, List.mem_cons, List.not_mem_nil] at hmem
    rcases hmem with (hmem | hmem) | hmem
    · revert hmem
      decide
    · exact (plain_of_mem_toDigits hmem).1 rfl
    · revert hmem
      decide

/-! Texts -/

theorem escapes_inj {cs ds : List Char} (h : cs.flatMap escape = ds.flatMap escape) : cs = ds := by
  have hnonempty (c : Char) : escape c ≠ [] := by
    rcases escape_cases c with ⟨hc, _⟩ | ⟨x, _, hc⟩ | hc <;> simp [hc, codePoint]
  induction cs generalizing ds with
  | nil =>
    cases ds with
    | nil => rfl
    | cons d ds => simp [hnonempty] at h
  | cons c cs ih =>
    cases ds with
    | nil => simp [hnonempty] at h
    | cons d ds =>
      rw [List.flatMap_cons, List.flatMap_cons] at h
      obtain ⟨rfl, hrest⟩ := escape_append_inj h
      rw [ih hrest]

theorem quoted_inj {s t : String} (h : quoted s = quoted t) : s = t := by
  rw [quoted, quoted, String.ofList_inj] at h
  have hinner := (List.cons.inj (List.append_cancel_right h)).2
  exact String.toList_inj.mp (escapes_inj hinner)

theorem closes_quoted (s : String) : Closes (quoted s) := by
  refine ⟨?_, ?_⟩
  · rw [Unbroken, quoted, String.toList_ofList]
    simp [newline_not_mem_escape]
  · rw [quoted, String.toList_ofList, List.getLast?_concat]
    decide

end Tern.Text
