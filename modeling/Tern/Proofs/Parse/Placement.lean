import Tern.Parse
import Tern.Proofs.Place

/-!
Where the parser puts nodes. Declarations are read among statements only, so every unit that is read
has them there.
-/

set_option autoImplicit false

namespace Tern

namespace Node

theorem FitsIn.inPlace {n : Node} (h : n.FitsIn .part) (p : Place) : n.FitsIn p := by
  cases p with
  | part => exact h
  | statement => cases n <;> simp_all [FitsIn]

theorem allFit_iff {ns : List Node} {p : Place} : AllFit ns p ↔ ∀ n ∈ ns, n.FitsIn p := by
  induction ns with
  | nil => simp [AllFit]
  | cons n ns ih => simp [AllFit, ih]

end Node

theorem Part.allFit_append {ps qs : List Part} :
    AllFit (ps ++ qs) ↔ AllFit ps ∧ AllFit qs := by
  induction ps with
  | nil => simp [AllFit]
  | cons p ps ih =>
    cases p with
    | text t => simp [AllFit, ih]
    | expr n => simp [AllFit, ih, and_assoc]

namespace Parse

/-- What is read, if anything, has the property. -/
def Outcome.Gives {α : Type} {k : Nat} {c : Cursor} (r : Outcome k c α) (P : α → Prop) : Prop :=
  ∀ a, r.value = some a → P a

namespace Outcome

variable {α β : Type} {k : Nat} {c : Cursor} {P : α → Prop} {Q : β → Prop}

theorem gives_any (r : Outcome k c α) : r.Gives fun _ => True := fun _ _ => trivial

theorem gives_fail (d : Cursor) (h : d.weight ≤ c.weight) :
    (fail d h : Outcome k c α).Gives P := by
  intro a ha
  simp [fail] at ha

theorem gives_done {a : α} (h : P a) : (done a : Outcome 0 c α).Gives P := by
  intro b hb
  cases hb
  exact h

theorem gives_found {a : α} {d : Cursor} {hd : d.weight < c.weight} (h : P a) :
    (found a d hd).Gives P := by
  intro b hb
  cases hb
  exact h

theorem Gives.relax {r : Outcome 1 c α} (h : r.Gives P) : r.relax.Gives P := h

theorem Gives.weaken {d : Cursor} {r : Outcome k d α} (h : r.Gives P) (hd : d.weight ≤ c.weight) :
    (r.weaken hd).Gives P := h

theorem Gives.map {r : Outcome k c α} {f : α → β} (h : r.Gives P) (hf : ∀ a, P a → Q (f a)) :
    (r.map f).Gives Q := by
  intro b hb
  obtain ⟨a, ha, rfl⟩ := Option.map_eq_some_iff.mp hb
  exact hf a (h a ha)

theorem Gives.andThen {r : Outcome 1 c α}
    {f : α → (d : Cursor) → d.weight < c.weight → Outcome 0 d β} (h : r.Gives P)
    (hf : ∀ a, P a → ∀ d hd, (f a d hd).Gives Q) : (r.andThen f).Gives Q := by
  obtain ⟨value, d, hd, hc⟩ := r
  cases value with
  | none => exact gives_fail d hd
  | some a => exact hf a (h a rfl) d (hc rfl)

theorem Gives.thenMaybe {r : Outcome 0 c α}
    {f : α → (d : Cursor) → d.weight ≤ c.weight → Outcome 0 d β} (h : r.Gives P)
    (hf : ∀ a, P a → ∀ d hd, (f a d hd).Gives Q) : (r.thenMaybe f).Gives Q := by
  obtain ⟨value, d, hd, hc⟩ := r
  cases value with
  | none => exact gives_fail d hd
  | some a => exact hf a (h a rfl) d hd

end Outcome

open Outcome

namespace Cursor

variable {α : Type} {P : α → Prop}

theorem gives_commaList (close : Mark) (c : Cursor)
    (item : (d : Cursor) → d.weight ≤ c.weight → Outcome 1 d α)
    (h : ∀ d hd, (item d hd).Gives P) : (commaList close c item).Gives fun as => ∀ a ∈ as, P a := by
  fun_induction commaList close c item with
  | case1 c item hc => exact (gives_any _).map (by simp)
  | case2 c item hc ih =>
    refine (h c _).andThen fun a ha d hd => ?_
    split
    · exact ((gives_any _).map (by simpa using ha)).relax
    · rename_i e he _
      refine (Gives.map (ih d hd e he (fun f hf => h f _)) ?_).relax.weaken _
      intro as has
      simpa using ⟨ha, has⟩

theorem statement_gives {c : Cursor} {h : 0 < c.weight} {r : Outcome 1 c α} (hr : r.Gives P) :
    ∀ a ∈ (c.statement h r).1, P a := by
  obtain ⟨value, d, hd, hc⟩ := r
  cases value with
  | none => simp [statement]
  | some a => simpa [statement] using hr a rfl

theorem statements_give (c : Cursor) (item : (d : Cursor) → d.weight ≤ c.weight → Outcome 1 d α)
    (h : ∀ d hd, (item d hd).Gives P) : ∀ a ∈ (c.statements item).1, P a := by
  fun_induction statements c item with
  | case1 c item hc => simp
  | case2 c item hc hpos a? d hd hs more ih =>
    have ha : ∀ a ∈ a?, P a := by
      have := statement_gives (h := hpos) (h c (Nat.le_refl _))
      rw [hs] at this
      exact this
    intro a hm
    rcases List.mem_append.mp hm with hm | hm
    · exact ha a (by simpa using hm)
    · exact ih (fun f hf => h f _) a hm

end Cursor

/-! Parts of expressions -/

theorem fill_fits {n : Nat}
    {run : (code : List Char) → Nat → code.length < n → Option Node × List ParseError}
    (hrun : ∀ code offset h, ∀ node ∈ (run code offset h).1, node.FitsIn .part)
    (holes : List (String × Hole)) (h : ∀ x ∈ holes, x.2.size < n) :
    Part.AllFit (fill run holes h).1 := by
  have htext (text : String) : Part.AllFit (if text.isEmpty then [] else [Part.text text]) := by
    split <;> simp [Part.AllFit]
  induction holes with
  | nil => trivial
  | cons x rest ih =>
    obtain ⟨text, hole⟩ := x
    have hrest := ih fun x hx => h x (List.mem_cons_of_mem _ hx)
    cases hole with
    | name name span =>
      simp only [fill, Part.allFit_append]
      exact ⟨htext text, trivial, hrest⟩
    | code code offset =>
      have hcode := hrun code offset (h (text, .code code offset) List.mem_cons_self)
      simp only [fill, Part.allFit_append]
      refine ⟨⟨htext text, ?_⟩, hrest⟩
      cases hr : (run code offset (h (text, .code code offset) List.mem_cons_self)).1 with
      | none => trivial
      | some node => exact ⟨hcode node hr, trivial⟩

theorem stringNode_fits {parts : List Part} (h : Part.AllFit parts) (span : Span) (tail : String) :
    (stringNode span parts tail).FitsIn .part := by
  unfold stringNode
  split
  · trivial
  · rw [Node.FitsIn]
    split
    · exact h
    · exact Part.allFit_append.mpr ⟨h, trivial⟩

theorem assignTo?_fits {target value node : Node} (ht : target.FitsIn .part)
    (hv : value.FitsIn .part) (h : assignTo? target value = some node) : node.FitsIn .part := by
  unfold assignTo? at h
  split at h
  · cases h
    exact hv
  · cases h
    exact ⟨ht.1, ht.2, hv⟩
  · simp at h

theorem qualifiedName?_fits {c : Cursor} {node : Node} {d : { d : Cursor // d.weight < c.weight }}
    (h : qualifiedName? c = some (node, d)) : node.FitsIn .part := by
  unfold qualifiedName? at h
  split at h
  · split at h
    · cases h
      trivial
    · simp at h
  · simp at h

theorem gives_dataDecl {P : Node → Prop} (hP : ∀ decl span, P (.data decl span)) (isPublic : Bool)
    (start : Span) (c : Cursor) : (dataDecl isPublic start c).Gives P := by
  unfold dataDecl
  refine (gives_any _).andThen fun _ _ d _ => ?_
  refine Gives.relax ((gives_any _).andThen fun _ _ e _ => ?_)
  refine (gives_any _).thenMaybe fun _ _ f _ => ?_
  refine Gives.relax ((gives_any _).andThen fun _ _ g _ => ?_)
  refine (gives_any _).thenMaybe fun _ _ i _ => ?_
  exact gives_done (hP _ _)

mutual

theorem gives_statement (c : Cursor) : (statement c).Gives (·.FitsIn .statement) := by
  unfold statement
  split
  rename_i isPublic d hd _
  apply Gives.weaken
  split
  · exact gives_functionDecl isPublic c.currentSpan d
  · exact gives_variableDecl isPublic false c.currentSpan _ d
  · exact gives_variableDecl isPublic true c.currentSpan _ d
  · exact gives_dataDecl (fun _ _ => rfl) isPublic c.currentSpan d
  · split
    · exact gives_fail _ _
    · exact fun n hn => (gives_assignment d n hn).inPlace .statement
termination_by 32 * c.weight + 25
decreasing_by all_goals omega

theorem gives_functionDecl (isPublic : Bool) (start : Span) (c : Cursor) :
    (functionDecl isPublic start c).Gives (·.FitsIn .statement) := by
  unfold functionDecl
  refine (gives_any _).andThen fun _ _ d _ => ?_
  refine Gives.relax ((gives_any _).andThen fun _ _ e _ => ?_)
  refine (gives_any _).thenMaybe fun _ _ f _ => ?_
  refine Gives.relax ((gives_any _).andThen fun _ _ g _ => ?_)
  refine (gives_any _).thenMaybe fun _ _ i _ => ?_
  refine (gives_blockBody i).relax.thenMaybe fun body hbody j _ => ?_
  exact gives_done ⟨rfl, hbody⟩
termination_by 32 * c.weight + 24
decreasing_by all_goals omega

theorem gives_variableDecl (isPublic isMutable : Bool) (start : Span) (word : Token) (c : Cursor) :
    (variableDecl isPublic isMutable start word c).Gives (·.FitsIn .statement) := by
  unfold variableDecl
  refine (gives_any _).andThen fun _ _ d _ => ?_
  refine Gives.relax ((gives_any _).andThen fun _ _ e _ => ?_)
  refine (gives_any _).thenMaybe fun _ _ f _ => ?_
  refine Gives.relax ((gives_any _).andThen fun _ _ g _ => ?_)
  refine (gives_binary .or g).relax.thenMaybe fun value hvalue i _ => ?_
  exact gives_done ⟨rfl, hvalue⟩
termination_by 32 * c.weight + 24
decreasing_by all_goals (try simp only [Level.height]); all_goals omega

theorem gives_assignment (c : Cursor) : (assignment c).Gives (·.FitsIn .part) := by
  unfold assignment
  refine (gives_binary .or c).andThen fun target ht d _ => ?_
  split
  · exact gives_done ht
  · rename_i e _ _
    refine Gives.weaken ((gives_assignment e).relax.thenMaybe fun value hv f _ => ?_) _
    split
    · rename_i node hnode
      exact gives_done (assignTo?_fits ht hv hnode)
    · exact gives_fail _ _
termination_by 32 * c.weight + 22
decreasing_by all_goals (try simp only [Level.height]); all_goals omega

theorem gives_binary (l : Level) (c : Cursor) : (binary l c).Gives (·.FitsIn .part) := by
  unfold binary
  exact (gives_operand l c).andThen fun left hl d _ => gives_binaryTail l left hl d
termination_by 32 * c.weight + 6 + 3 * l.height
decreasing_by all_goals omega

theorem gives_binaryTail (l : Level) (left : Node) (hl : left.FitsIn .part) (c : Cursor) :
    (binaryTail l left c).Gives (·.FitsIn .part) := by
  unfold binaryTail
  split
  · exact gives_done hl
  · rename_i op d _ _
    have := l.height_le
    refine Gives.weaken ((gives_operand l d).relax.thenMaybe fun right hr e _ => ?_) _
    apply gives_binaryTail l
    exact ⟨hl, hr⟩
termination_by 32 * c.weight
decreasing_by all_goals omega

theorem gives_operand (l : Level) (c : Cursor) : (operand l c).Gives (·.FitsIn .part) := by
  unfold operand
  cases l with
  | or => exact gives_binary .and c
  | and => exact gives_binary .equality c
  | equality => exact gives_binary .comparison c
  | comparison => exact gives_caseTest c
  | sum => exact gives_binary .product c
  | product => exact gives_unary c
termination_by 32 * c.weight + 5 + 3 * l.height
decreasing_by all_goals (try simp only [Level.height]); all_goals omega

theorem gives_caseTest (c : Cursor) : (caseTest c).Gives (·.FitsIn .part) := by
  unfold caseTest
  refine (gives_binary .sum c).andThen fun value hv d _ => ?_
  split
  · exact gives_done hv
  · split
    · exact gives_done hv
    · refine Gives.weaken (Gives.relax ((gives_any _).andThen fun _ _ _ _ => ?_)) _
      exact gives_done hv
termination_by 32 * c.weight + 10
decreasing_by all_goals (try simp only [Level.height]); all_goals omega

theorem gives_unary (c : Cursor) : (unary c).Gives (·.FitsIn .part) := by
  unfold unary
  split
  · exact gives_suffixed c
  · rename_i op d _ _
    exact Gives.weaken ((gives_unary d).andThen fun operand ho _ _ => gives_done ho) _
termination_by 32 * c.weight + 4
decreasing_by all_goals omega

theorem gives_suffixed (c : Cursor) : (suffixed c).Gives (·.FitsIn .part) := by
  unfold suffixed
  exact (gives_primary c).andThen fun node hn d _ => gives_suffixTail node hn d
termination_by 32 * c.weight + 3
decreasing_by all_goals omega

theorem gives_suffixTail (node : Node) (hn : node.FitsIn .part) (c : Cursor) :
    (suffixTail node c).Gives (·.FitsIn .part) := by
  unfold suffixTail
  split
  · rename_i d _ _
    split
    · exact gives_done hn
    · have hargs := Cursor.gives_commaList .rightParen d _ fun e _ => gives_binary .or e
      refine Gives.weaken (hargs.relax.thenMaybe fun args hargs e _ => ?_) _
      apply gives_suffixTail
      exact ⟨hn, Node.allFit_iff.mpr hargs⟩
  · rename_i d _ _ _
    split
    · exact gives_done hn
    · refine Gives.weaken ((gives_binary .or d).relax.thenMaybe fun index hi e _ => ?_) _
      refine (gives_any _).thenMaybe fun _ _ f _ => ?_
      apply gives_suffixTail
      exact ⟨hn, hi⟩
  · refine Gives.weaken ((gives_any _).thenMaybe fun _ _ e _ => ?_) _
    apply gives_suffixTail
    exact hn
  · exact gives_done hn
termination_by 32 * c.weight
decreasing_by all_goals (try simp only [Level.height]); all_goals omega

theorem gives_primary (c : Cursor) : (primary c).Gives (·.FitsIn .part) := by
  unfold primary
  simp only
  split
  · exact gives_fail _ _
  · rename_i token h
    have hlt : c.advance.weight < c.weight := Cursor.weight_advance_lt (Cursor.weight_pos_of_peek? h)
    split
    · split
      · exact gives_found trivial
      · exact gives_found trivial
    · exact gives_found trivial
    · rename_i raw hraw
      have hle : raw.length ≤ c.weight :=
        Nat.le_trans (Nat.le_max_right 1 raw.length) (Cursor.size_le_weight_of_peek? hraw)
      apply gives_found
      apply stringNode_fits
      apply fill_fits
      intro code offset hcode
      have := Cursor.weight_start_le code offset
      exact gives_binary .or (Cursor.start code offset)
    · exact gives_found trivial
    · exact gives_found trivial
    · split
      · exact gives_found trivial
      · split
        · rename_i node d hd hq
          exact gives_found (qualifiedName?_fits hq)
        · exact gives_found trivial
    · refine Gives.weaken ((gives_binary .or c.advance).andThen fun inner hi d _ => ?_) _
      refine Gives.relax ((gives_any _).map fun _ _ => ?_)
      exact hi
    · exact (gives_blockBody c).map fun _ h => h
    · have helements := Cursor.gives_commaList .rightBracket c.advance _ fun d _ => gives_binary .or d
      refine Gives.weaken (helements.andThen fun elements he d _ => ?_) _
      exact gives_done (Node.allFit_iff.mpr he)
    · exact gives_branch c
    · refine (gives_any _).andThen fun _ _ d _ => ?_
      refine (gives_condition d).thenMaybe fun condition hc e _ => ?_
      refine (gives_blockBody e).relax.thenMaybe fun body hb f _ => ?_
      exact gives_done ⟨hc, hb⟩
    · refine (gives_any _).andThen fun _ _ d _ => ?_
      split
      · refine (gives_binary .or d).relax.thenMaybe fun value hv e _ => ?_
        exact gives_done hv
      · exact gives_done trivial
    · refine (gives_any _).andThen fun _ _ d _ => ?_
      refine Gives.relax ((gives_any _).andThen fun _ _ e _ => ?_)
      refine (gives_any _).thenMaybe fun _ _ f _ => ?_
      refine (gives_blockBody f).relax.thenMaybe fun body hb g _ => ?_
      exact gives_done hb
    · exact gives_fail _ _
termination_by 32 * c.weight + 2
decreasing_by all_goals (try simp only [Level.height]); all_goals omega

theorem gives_condition (c : Cursor) : (condition c).Gives (·.FitsIn .part) := by
  unfold condition
  refine Gives.relax ((gives_any _).andThen fun _ _ d _ => ?_)
  refine (gives_binary .or d).relax.thenMaybe fun condition hc e _ => ?_
  refine Gives.relax ((gives_any _).map fun _ _ => ?_)
  exact hc
termination_by 32 * c.weight
decreasing_by all_goals (try simp only [Level.height]); all_goals omega

theorem gives_branch (c : Cursor) : (branch c).Gives (·.FitsIn .part) := by
  unfold branch
  refine (gives_any _).andThen fun _ _ d _ => ?_
  refine (gives_condition d).thenMaybe fun condition hc e _ => ?_
  refine (gives_blockBody e).relax.thenMaybe fun body hb f _ => ?_
  simp only
  split
  · exact gives_done ⟨hc, hb, trivial⟩
  · rename_i g _ _
    refine Gives.weaken (Gives.thenMaybe (P := (·.FitsIn .part)) ?_ fun other ho i _ => ?_) _
    · apply Gives.relax
      split
      · exact gives_branch g
      · exact (gives_blockBody g).map fun _ h => h
    · exact gives_done ⟨hc, hb, ho⟩
termination_by 32 * c.weight + 1
decreasing_by all_goals omega

theorem gives_blockBody (c : Cursor) :
    (blockBody c).Gives fun body => Node.AllFit body.1 .statement := by
  unfold blockBody
  refine (gives_any _).andThen fun _ _ d _ => ?_
  have he := d.separators.property
  have hbody := d.separators.val.statements_give (fun f _ => statement f) fun f _ => gives_statement f
  refine Gives.weaken ((gives_any _).thenMaybe fun _ _ g _ => ?_) _
  exact gives_done (Node.allFit_iff.mpr hbody)
termination_by 32 * c.weight + 1
decreasing_by all_goals omega

end

theorem items_fit (c : Cursor) : ∀ n ∈ (items c).1, n.FitsIn .statement := by
  fun_induction items c with
  | case1 c h => simp
  | case2 c h hpos hb hlt ih => exact ih
  | case3 c h hpos hb node? d hd hs nodes e he ih =>
    have hnode := Cursor.statement_gives (h := hpos) (gives_statement c)
    rw [hs] at hnode
    rw [he] at ih
    intro n hn
    rcases List.mem_append.mp hn with hn | hn
    · exact hnode n (by simpa using hn)
    · exact ih n hn

end Parse

/-- Whatever is read, its declarations are statements. -/
theorem Parsed.items_fit (source : String) :
    ∀ n ∈ (Parsed.ofSource source).unit.items, n.FitsIn .statement :=
  Parse.items_fit _

end Tern
