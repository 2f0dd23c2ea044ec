import Tern.Proofs.Span
import Tern.Proofs.Parse.Placement
import Tern.Proofs.Parse.Fresh

/-!
A line break separates statements. A text is read up to its last line as if nothing followed, and what
follows on the next line as if nothing came before. The exceptions are a name that ends a case of a
declaration of data, which goes on with a parenthesis on the next line, and one that ends an import,
which goes on with a brace there.
-/

set_option autoImplicit false

namespace Tern

/-- The node declares data. -/
def Node.isData : Node → Bool
  | .data .. => true
  | _ => false

namespace Parse

open Sequel Outcome

variable {q : Sequel} {c d c' d' : Cursor}

/-! The package line and imports -/

theorem carries_packagePath (h : q.Continues c c') :
    (packagePath c).Carries q True (packagePath c') := by
  apply (Cursor.carries_expectName h _).andThen
  rintro ⟨module, _⟩ d _ d' _ hd
  apply Carries.relax
  apply (Cursor.carries_expect hd _).andThen
  intro _ e _ e' _ he
  apply Carries.relax
  exact (Cursor.carries_expectName he _).map fun _ => rfl

theorem carries_packageDecl (h : q.Continues c c') :
    (packageDecl c).Carries q True (packageDecl c') := by
  apply (Cursor.carries_expect h _).andThen
  intro start d _ d' _ hd
  apply (carries_packagePath hd).relax.thenMaybe
  intro path e _ e' _ he
  exact carries_done he (by simp [PackageDecl.shift, he.spanFrom])

theorem carries_nameAfterAs (what : String) (h : q.Continues c c') :
    (nameAfterAs what c).Carries q True (nameAfterAs what c') := by
  unfold nameAfterAs
  rcases h.eat? (.keyword .asWord) (.inr (hides_of_not_opens rfl)) with
    ⟨hd, hd'⟩ | ⟨d, hlt, d', hlt', hd, hd', hnext⟩
  · simp only [hd, hd']
    exact carries_done h rfl
  · simp only [hd, hd']
    apply Carries.weaken
    apply Carries.relax
    exact (Cursor.carries_expectName hnext _).map fun _ => rfl

theorem carries_importEntry (h : q.Continues c c') :
    (importEntry c).Carries q True (importEntry c') := by
  apply (Cursor.carries_expectName h _).andThen
  rintro ⟨name, span⟩ d _ d' _ hd
  apply (carries_nameAfterAs _ hd).thenMaybe
  intro newName e _ e' _ he
  exact carries_done he (by simp [ImportEntry.shift, he.spanFrom])

/-- A brace on a new line would start a list of names. -/
theorem carries_importEntries (h : q.Continues c c') :
    (importEntries c).Carries q (c.rest = [] → q.Hides (.mark .leftBrace)) (importEntries c') := by
  apply carries_of_ahead_or
  intro hsee
  unfold importEntries
  rcases h.eat? (.mark .leftBrace) (sees_or_hides hsee) with
    ⟨hd, hd'⟩ | ⟨d, hlt, d', hlt', hd, hd', hnext⟩
  · simp only [hd, hd']
    exact carries_done h rfl
  · simp only [hd, hd']
    apply Carries.weaken
    apply Carries.relax
    have hentries := Cursor.carries_commaList .rightBrace hnext (fun e _ => importEntry e)
      (fun e _ => importEntry e) fun e _ e' _ he => (carries_importEntry he).before
    exact hentries.imp fun _ _ _ => trivial

theorem of_andThen {α β : Type} {r : Outcome 1 c α} {b : β}
    {f : α → (d : Cursor) → d.weight < c.weight → Outcome 0 d β} (h : (r.andThen f).value = some b) :
    ∃ a hd, r.value = some a ∧ (f a r.cursor hd).value = some b ∧
      (r.andThen f).cursor = (f a r.cursor hd).cursor := by
  obtain ⟨_ | a, d, hle, hc⟩ := r
  · cases h
  · exact ⟨a, hc rfl, rfl, h, rfl⟩

theorem readsName_packagePath {path : PackagePath} (h : (packagePath c).value = some path) :
    c.ReadsName (packagePath c).cursor := by
  obtain ⟨_, _, _, hslash, hcursor⟩ := of_andThen h
  obtain ⟨_, _, _, hname, hcursor'⟩ := of_andThen hslash
  obtain ⟨x, hx, _⟩ := Option.map_eq_some_iff.mp hname
  have hreads := (readsName_expectName hx).of_suffix (Cursor.sound_expect _ _).advances.rest
  unfold packagePath
  rw [hcursor]
  change Cursor.ReadsName c (Outcome.cursor (Outcome.andThen _ _))
  rw [hcursor']
  exact hreads.of_suffix (c.sound_expectName _).advances.rest

theorem readsName_nameAfterAs {what : String} {name : Option String}
    (h : (nameAfterAs what c).value = some name) :
    (nameAfterAs what c).cursor = c ∨ c.ReadsName (nameAfterAs what c).cursor := by
  unfold nameAfterAs at h ⊢
  split
  · exact .inl rfl
  · rename_i d hd heq
    simp only [heq] at h
    obtain ⟨x, hx, _⟩ := Option.map_eq_some_iff.mp h
    exact .inr ((readsName_expectName hx).of_suffix (Cursor.advances_of_eat? heq).rest)

theorem carries_importDecl (h : q.Continues c c') :
    (importDecl c).Carries q (q.Shuts .leftBrace c.rest) (importDecl c') := by
  apply (Cursor.carries_expect h _).andThenOf fun _ _ _ _ _ => .inl trivial
  intro start d _ d' _ _ hcd hd
  apply (carries_packagePath hd).relax.thenMaybeOf fun _ _ _ _ _ => .inl trivial
  intro path e _ e' _ hpath hde he
  apply (carries_nameAfterAs _ he).thenMaybeOf fun _ _ _ _ _ => .inl trivial
  intro packageName f _ f' _ hname hef hf
  have hreads : c.ReadsName f := by
    have hsuffix : d.rest <:+ c.rest := hcd ▸ (c.sound_expect _).advances.rest
    have hpackage : d.ReadsName e := hde ▸ readsName_packagePath hpath
    rcases readsName_nameAfterAs hname with hsame | halias
    · rw [hef] at hsame
      exact hsame ▸ hpackage.of_suffix hsuffix
    · rw [hef] at halias
      have hpath : e.rest <:+ d.rest := hde ▸ (sound_packagePath d).advances.rest
      exact (halias.of_suffix hpath).of_suffix hsuffix
  have hentries := (carries_importEntries hf).imp fun _ _ hshut hnil => hreads.hides hshut hnil
  apply hentries.thenMaybeOf fun _ _ _ _ hshut => .inl hshut
  intro entries g _ g' _ _ _ hg
  exact carries_done hg (by simp [ImportDecl.shift, hg.spanFrom])

/-! From one statement to the next -/

/-- The place `c'` is in the longer text where `c` is in the text or, if the text ends there, after
the separators that follow. -/
def Follows (q : Sequel) (c c' : Cursor) : Prop :=
  ∃ e, q.Continues c e ∧ c' = e.separators.val ∧ (q.Ahead c → e.separators.val = e)

theorem follows_separators (h : q.Continues c c') :
    Follows q c.separators.val c'.separators.val :=
  Cursor.continues_skipWhile _ (fun _ => rfl) h

theorem Follows.continues (h : Follows q c c') (ha : q.Ahead c) : q.Continues c c' := by
  obtain ⟨e, he, rfl, hsame⟩ := h
  rw [hsame ha]
  exact he

theorem statement_of_some {α : Type} {r : Outcome 1 c α} {a : α} (hpos : 0 < c.weight)
    (h : r.value = some a) :
    (c.statement hpos r).1 = some a ∧ (c.statement hpos r).2.val = r.cursor.separators.val := by
  obtain ⟨value, d, hle, hd⟩ := r
  dsimp only at h
  subst h
  exact ⟨rfl, rfl⟩

theorem advances_from_cursor {α : Type} (hpos : 0 < c.weight) (r : Outcome 1 c α) :
    r.cursor.Advances (c.statement hpos r).2.val := by
  obtain ⟨_ | a, d, hle, hd⟩ := r
  · rw [Cursor.statement_of_none]
    apply Cursor.Advances.trans ?_ (Cursor.advances_skipWhile _ _)
    apply Cursor.Advances.trans ?_ (Cursor.advances_skipWhile _ _)
    split
    · exact .refl d
    · exact d.advances_advance
  · exact Cursor.advances_skipWhile _ d

theorem errors_of_advances (h : c.Advances d) (hok : d.errors = []) : c.errors = [] :=
  List.prefix_nil.mp (hok ▸ h.errors)

theorem exists_value {α : Type} {k : Nat} {r : Outcome k c α} (hr : r.Sound)
    (hok : r.cursor.errors = []) : ∃ a, r.value = some a := by
  cases hvalue : r.value with
  | some a => exact ⟨a, rfl⟩
  | none =>
    have hreported := hr.reported hvalue
    rw [hok] at hreported
    exact absurd hreported (Nat.not_lt_zero _)

/-- A statement after which there are no errors was read. -/
theorem statement_value {α : Type} {r : Outcome 1 c α} (hpos : 0 < c.weight) (hr : r.Sound)
    (hok : (c.statement hpos r).2.val.errors = []) : ∃ a, r.value = some a :=
  exists_value hr (errors_of_advances (advances_from_cursor hpos r) hok)

/-- A statement without errors is read in both texts. -/
theorem follows_statement {α : Type} [Shift α] {ends : Prop} (hpos : 0 < c.weight)
    (hpos' : 0 < c'.weight) {r : Outcome 1 c α} {r' : Outcome 1 c' α} (hr : r.Carries q ends r')
    (hsound : r.Sound) (hok : (c.statement hpos r).2.val.errors = [])
    (hends : ∀ a, (c.statement hpos r).1 = some a → (c.statement hpos r).2.val.rest = [] → ends) :
    ∃ a, (c.statement hpos r).1 = some a ∧ (c'.statement hpos' r').1 = some (shift q.offset a) ∧
      Follows q (c.statement hpos r).2.val (c'.statement hpos' r').2.val := by
  obtain ⟨a, ha⟩ := statement_value hpos hsound hok
  obtain ⟨hfst, hsnd⟩ := statement_of_some hpos ha
  have hwhole : r.Whole q ends := by
    by_cases hnil : r.cursor.rest = []
    · have hsuffix := (advances_from_cursor hpos r).rest
      rw [hnil] at hsuffix
      exact .inr ⟨by rw [ha]; rfl, hends a hfst (List.suffix_nil.mp hsuffix)⟩
    · exact .inl (.inr hnil)
  obtain ⟨hvalue, hcursor⟩ := hr hwhole
  rw [ha] at hvalue
  obtain ⟨hfst', hsnd'⟩ := statement_of_some hpos' hvalue
  rw [hsnd, hsnd']
  exact ⟨a, hfst, hfst', follows_separators hcursor⟩

/-- The first token that is no separator. -/
theorem peek?_separators (c : Cursor) :
    c.separators.val.peek? = (c.rest.map (·.token)).find? (· ≠ .mark .semicolon) := by
  unfold Cursor.separators
  cases hr : c.rest with
  | nil => simp [Cursor.skipWhile_of_nil hr, Cursor.peek?, hr]
  | cons l ls =>
    by_cases hl : l.token = .mark .semicolon
    · have hrest : c.advance.rest = ls := by simp [Cursor.advance, hr]
      have hlt := Cursor.weight_advance_lt (Cursor.weight_pos_of_rest hr)
      rw [Cursor.skipWhile_of_pos hr (by simpa using hl)]
      have hmore := peek?_separators c.advance
      rw [hrest] at hmore
      simpa [hl, Cursor.separators] using hmore
    · rw [Cursor.skipWhile_of_neg hr (by simpa using hl)]
      simp [Cursor.peek?, hr, hl]
termination_by c.weight
decreasing_by all_goals omega

/-! Imports -/

theorem importDecls_of_at (h : c.isAt (.keyword .importWord) = true) (hpos : 0 < c.weight) :
    let first := c.statement hpos (importDecl c)
    importDecls c = (first.1.toList ++ (importDecls first.2.val).1, (importDecls first.2.val).2) := by
  rw [importDecls, dif_pos h]

theorem importDecls_of_not_at (h : c.isAt (.keyword .importWord) = false) :
    importDecls c = ([], c) := by
  rw [importDecls, dif_neg (by simp [h])]

/-- The imports of the text are those of the longer text, if no import follows and no brace after
the last name. -/
theorem follows_importDecls {c c' : Cursor} (h : Follows q c c')
    (hnone : (q.tokens.map (·.token)).find? (· ≠ .mark .semicolon) ≠ some (.keyword .importWord))
    (hok : (importDecls c).2.errors = [])
    (hshut : (importDecls c).1 ≠ [] → (importDecls c).2.rest = [] → q.Shuts .leftBrace c.rest) :
    (importDecls c').1 = (importDecls c).1.map (ImportDecl.shift q.offset) ∧
      Follows q (importDecls c).2 (importDecls c').2 := by
  by_cases hat : c.isAt (.keyword .importWord) = true
  · have hpos := Cursor.weight_pos_of_isAt hat
    have ha : q.Ahead c := .inr (rest_ne_nil_iff.mpr hpos)
    have hcont := h.continues ha
    have hat' := (hcont.isAt ha _).trans hat
    have hpos' := Cursor.weight_pos_of_isAt hat'
    have hsuffix := (Cursor.advances_statement hpos (sound_importDecl c)).rest
    have hlt := (c.statement hpos (importDecl c)).2.property
    rw [importDecls_of_at hat hpos] at hok hshut ⊢
    rw [importDecls_of_at hat' hpos']
    obtain ⟨decl, hfst, hfst', hnext⟩ := follows_statement hpos hpos' (carries_importDecl hcont)
      (sound_importDecl c) (errors_of_advances (advances_importDecls _) hok) (by
        intro decl hfst hnil
        apply hshut (by simp [hfst])
        rw [importDecls_of_not_at (Cursor.isAt_of_nil hnil _)]
        exact hnil)
    obtain ⟨hmore, hlast⟩ := follows_importDecls hnext hnone hok fun _ hnil =>
      (hshut (by simp [hfst]) hnil).suffix hsuffix
    refine ⟨?_, hlast⟩
    rw [hmore, hfst, hfst']
    rfl
  · rw [Bool.not_eq_true] at hat
    have hat' : c'.isAt (.keyword .importWord) = false := by
      by_cases ha : q.Ahead c
      · rw [(h.continues ha).isAt ha, hat]
      · obtain ⟨e, he, rfl, _⟩ := h
        rw [Cursor.isAt, peek?_separators, he.rest_of_nil (he.at_end ha).1]
        simpa using hnone
    rw [importDecls_of_not_at hat, importDecls_of_not_at hat']
    exact ⟨rfl, h⟩
termination_by c.weight
decreasing_by all_goals omega

/-! Items -/

theorem items_of_end (h : c.rest = []) : items c = ([], c) := by
  rw [items, dif_pos (by simp [Cursor.isAtEnd, h])]

theorem items_of_brace (h : c.isAtMark .rightBrace = true) :
    items c = items (c.reportExpected "declaration or expression").advance := by
  have hend : ¬ c.isAtEnd = true := by
    have hne := rest_ne_nil_iff.mpr (Cursor.weight_pos_of_isAt h)
    simpa [Cursor.isAtEnd] using hne
  rw [items, dif_neg hend, if_pos h]

theorem items_of_statement (hpos : 0 < c.weight) (h : c.isAtMark .rightBrace = false) :
    let first := c.statement hpos (statement c)
    items c = (first.1.toList ++ (items first.2.val).1, (items first.2.val).2) := by
  have hend : ¬ c.isAtEnd = true := by
    simpa [Cursor.isAtEnd] using rest_ne_nil_iff.mpr hpos
  rw [items, dif_neg hend, if_neg (by simp [h])]

/-- A closing brace that nothing opened is reported. -/
theorem not_isAtMark_of_items (hok : (items c).2.errors = []) : c.isAtMark .rightBrace = false := by
  by_contra hbrace
  rw [Bool.not_eq_false] at hbrace
  rw [items_of_brace hbrace] at hok
  have hreport := errors_of_advances ((Cursor.advances_advance _).trans (advances_items _)) hok
  simp [Cursor.reportExpected, Cursor.report] at hreport

theorem isData_of_isAtData {n : Node} (h : c.IsAtData) (hn : (statement c).value = some n) :
    n.isData = true := by
  unfold Cursor.IsAtData at h
  obtain ⟨⟨isPublic, d, hd⟩, hskip⟩ : ∃ skipped, c.skip (.keyword .pub) = skipped := ⟨_, rfl⟩
  rw [hskip] at h
  rw [statement_eq hskip, h] at hn
  exact gives_dataDecl (P := (·.isData = true)) (fun _ _ => rfl) isPublic _ d n hn

theorem value_of_isAtLastFn (h : c.IsAtLastFn) : (statement c).value = none := by
  obtain ⟨l, ls, hrest, hpub, hls⟩ := List.map_eq_cons_iff.mp h
  obtain ⟨⟨t, span, fresh⟩, rfl, rfl⟩ := List.map_eq_singleton_iff.mp hls
  have hat : c.isAt (.keyword .pub) = true := by simp [Cursor.isAt, Cursor.peek?, hrest, hpub]
  have hadvance : c.advance.rest = [⟨.keyword .fn, span, fresh⟩] := by simp [Cursor.advance, hrest]
  rw [statement_eq (if_pos hat), hadvance]
  rfl

/-- The items of the text are the first of the longer text, if no parenthesis follows a last name in
a declaration of data. -/
theorem follows_items {c c' : Cursor} (h : Follows q c c') (hok : (items c).2.errors = [])
    (hshut : ∀ n ∈ (items c).1.getLast?, n.isData = true → q.Shuts .leftParen c.rest) :
    ∃ e, q.Continues (items c).2 e ∧
      (items c').1 = (items c).1.map (Node.shift q.offset) ++ (items e.separators.val).1 ∧
      (items c').2 = (items e.separators.val).2 := by
  by_cases hr : c.rest = []
  · obtain ⟨e, he, rfl, _⟩ := h
    rw [items_of_end hr]
    exact ⟨e, he, rfl, rfl⟩
  · have ha : q.Ahead c := .inr hr
    have hcont := h.continues ha
    have hpos := rest_ne_nil_iff.mp hr
    have hpos' : 0 < c'.weight := by rw [hcont.weight]; omega
    have hbrace := not_isAtMark_of_items hok
    have hbrace' : c'.isAtMark .rightBrace = false := (hcont.isAt ha _).trans hbrace
    have hsuffix := (Cursor.advances_statement hpos (sound_statement c)).rest
    have hlt := (c.statement hpos (statement c)).2.property
    rw [items_of_statement hpos hbrace] at hok hshut ⊢
    rw [items_of_statement hpos' hbrace']
    have hread := errors_of_advances (advances_items _) hok
    have hfn : ¬ c.IsAtLastFn := by
      intro hlast
      obtain ⟨n, hn⟩ := statement_value hpos (sound_statement c) hread
      rw [value_of_isAtLastFn hlast] at hn
      cases hn
    obtain ⟨n, hfst, hfst', hnext⟩ := follows_statement hpos hpos' (carries_statement hcont (.inr hfn))
      (sound_statement c) hread (by
        intro n hfst hnil hdata
        have hn : (statement c).value = some n := (Cursor.statement_fst hpos _).symm.trans hfst
        apply hshut n ?_ (isData_of_isAtData hdata hn)
        rw [hfst, items_of_end hnil]
        rfl)
    obtain ⟨e, he, hitems, hlast⟩ := follows_items hnext hok (by
      intro m hm hdata
      apply (hshut m ?_ hdata).suffix hsuffix
      rw [List.getLast?_append, hm]
      rfl)
    refine ⟨e, he, ?_, hlast⟩
    rw [hitems, hfst, hfst']
    rfl
termination_by c.weight
decreasing_by all_goals omega

/-! The first token of a statement -/

theorem readPrimary_of_not_starts {t : Token} (h : t.startsExpression = false)
    (hlt : c.advance.weight < c.weight) :
    readPrimary c hlt t = .fail (c.reportExpected "expression") (Nat.le_refl _) := by
  cases t with
  | keyword w => cases w <;> first | rfl | cases h
  | mark m => cases m <;> first | rfl | cases h
  | _ => cases h

theorem formOf_of_not_opens {l : Lexeme} (h : l.token.opensStatement = false) (ls : List Lexeme) :
    formOf (l :: ls) = .other := by
  obtain ⟨t, span, fresh⟩ := l
  cases t with
  | keyword w => cases w <;> first | rfl | cases h
  | _ => rfl

theorem opens_of_statement {l : Lexeme} {ls : List Lexeme} {n : Node} (hrest : c.rest = l :: ls)
    (h : (statement c).value = some n) : l.token.opensStatement = true := by
  by_contra hopens
  rw [Bool.not_eq_true] at hopens
  have hpeek : c.peek? = some l.token := by simp [Cursor.peek?, hrest]
  have hne {t : Token} (ht : t.opensStatement = true) : l.token ≠ t := by
    rintro rfl
    rw [ht] at hopens
    cases hopens
  have hpub : ¬ c.isAt (.keyword .pub) = true := by
    simpa [Cursor.isAt, hpeek] using hne (t := .keyword .pub) rfl
  have hstarts : l.token.startsExpression = false := by
    by_contra hstarts
    rw [Bool.not_eq_false] at hstarts
    exact hne (Token.opens_of_starts hstarts) rfl
  have hlt := Cursor.weight_advance_lt (Cursor.weight_pos_of_rest hrest)
  have hprimary : Fails (primary c) (c.reportExpected "expression") := by
    rw [primary_eq hpeek hlt, readPrimary_of_not_starts hstarts]
    exact ⟨rfl, rfl⟩
  have hfails := fails_assignment
    (signOperator?_eq_none hpeek (hne rfl) (hne rfl)) hprimary
  rw [statement_eq (if_neg hpub), hrest, formOf_of_not_opens hopens] at h
  have hvalue : (assignment c).value = some n := h
  rw [hfails.value] at hvalue
  cases hvalue

/-! The whole unit -/

theorem continues_packageLine (h : q.Continues c c') (hok : (packageLine c).2.errors = []) :
    (packageLine c').1 = (packageLine c).1.map (PackageDecl.shift q.offset) ∧
      q.Continues (packageLine c).2 (packageLine c').2 := by
  have hat : c'.isAt (.keyword .package) = c.isAt (.keyword .package) := by
    by_cases ha : q.Ahead c
    · exact h.isAt ha _
    · have hnil := (h.at_end ha).1
      rw [Cursor.isAt_of_nil hnil, Cursor.isAt, Cursor.peek?, h.rest_of_nil hnil, beq_eq_false_iff_ne]
      intro hhead
      obtain ⟨l, hl, hpackage⟩ := Option.map_eq_some_iff.mp hhead
      exact hides_of_not_opens (q := q) rfl l hl hpackage
  unfold packageLine at hok ⊢
  rw [hat]
  split
  · rename_i hpackage
    rw [if_pos hpackage] at hok
    obtain ⟨decl, hdecl⟩ := exists_value (sound_packageDecl c) hok
    exact carries_packageDecl h (.inr ⟨by rw [hdecl]; rfl, trivial⟩)
  · exact ⟨rfl, h⟩

theorem sourceUnit_eq (c : Cursor) :
    let afterPackage := (packageLine c).2.separators.val
    let afterImports := (importDecls afterPackage).2
    sourceUnit c = (⟨(packageLine c).1, (importDecls afterPackage).1, (items afterImports).1⟩,
      (items afterImports).2) := rfl

/-- A text is read to its end as a part of a longer one, and then come the items that follow. -/
theorem follows_sourceUnit (h : q.Continues c c')
    (hnone : (q.tokens.map (·.token)).find? (· ≠ .mark .semicolon) ≠ some (.keyword .importWord))
    (hok : (sourceUnit c).2.errors = [])
    (hparen : ∀ n ∈ (sourceUnit c).1.items.getLast?, n.isData = true → q.Shuts .leftParen c.rest)
    (hbrace : (sourceUnit c).1.imports ≠ [] → (sourceUnit c).1.items = [] →
      q.Shuts .leftBrace c.rest) :
    ∃ e, q.Continues (sourceUnit c).2 e ∧
      (sourceUnit c').1 = ⟨(sourceUnit c).1.package.map (PackageDecl.shift q.offset),
        (sourceUnit c).1.imports.map (ImportDecl.shift q.offset),
        (sourceUnit c).1.items.map (Node.shift q.offset) ++ (items e.separators.val).1⟩ ∧
      (sourceUnit c').2 = (items e.separators.val).2 := by
  rw [sourceUnit_eq] at hok hparen hbrace ⊢
  rw [sourceUnit_eq]
  dsimp only at hok hparen hbrace ⊢
  have hpackage := advances_packageLine c
  have hskip := Cursor.advances_skipWhile (fun l => l.token = .mark .semicolon) (packageLine c).2
  have himports := advances_importDecls (packageLine c).2.separators.val
  have hitems := advances_items (importDecls (packageLine c).2.separators.val).2
  have hsuffix : (packageLine c).2.separators.val.rest <:+ c.rest := hskip.rest.trans hpackage.rest
  obtain ⟨hline, hnext⟩ := continues_packageLine h
    (errors_of_advances (hskip.trans (himports.trans hitems)) hok)
  obtain ⟨hdecls, hafter⟩ := follows_importDecls (follows_separators hnext) hnone
    (errors_of_advances hitems hok) (by
      intro hne hnil
      exact (hbrace hne (by rw [items_of_end hnil])).suffix hsuffix)
  obtain ⟨e, he, hnodes, hlast⟩ := follows_items hafter hok (by
    intro n hn hdata
    exact (hparen n hn hdata).suffix (himports.rest.trans hsuffix))
  rw [hline, hdecls, hnodes, hlast]
  exact ⟨e, he, rfl, rfl⟩

/-- A unit without a package line and imports starts with its items. -/
theorem sourceUnit_of_items (hok : (sourceUnit c).2.errors = [])
    (hpackage : (sourceUnit c).1.package = none) (himports : (sourceUnit c).1.imports = []) :
    sourceUnit c = (⟨none, [], (items c.separators.val).1⟩, (items c.separators.val).2) ∧
      c.separators.val.isAt (.keyword .importWord) = false := by
  rw [sourceUnit_eq] at hok hpackage himports ⊢
  dsimp only at hok hpackage himports ⊢
  have hafter := advances_importDecls (packageLine c).2.separators.val
  have hitems := advances_items (importDecls (packageLine c).2.separators.val).2
  have hskip := Cursor.advances_skipWhile (fun l => l.token = .mark .semicolon) (packageLine c).2
  have hread := errors_of_advances (hskip.trans (hafter.trans hitems)) hok
  have hline : packageLine c = (none, c) := by
    unfold packageLine at hpackage hread ⊢
    split
    · rename_i hat
      rw [if_pos hat] at hpackage hread
      obtain ⟨decl, hdecl⟩ := exists_value (sound_packageDecl c) hread
      have hnone : (packageDecl c).value = none := hpackage
      rw [hdecl] at hnone
      cases hnone
    · rfl
  rw [hline] at hok hitems himports ⊢
  have hat : c.separators.val.isAt (.keyword .importWord) = false := by
    by_contra hat
    rw [Bool.not_eq_false] at hat
    have hpos := Cursor.weight_pos_of_isAt hat
    have hdecls := errors_of_advances hitems hok
    rw [importDecls_of_at hat hpos] at hdecls himports
    obtain ⟨decl, hdecl⟩ := statement_value hpos (sound_importDecl _)
      (errors_of_advances (advances_importDecls _) hdecls)
    rw [(statement_of_some hpos hdecl).1] at himports
    cases himports
  rw [importDecls_of_not_at hat]
  exact ⟨rfl, hat⟩

/-! A text on the next line -/

theorem separators_of_nil (h : c.rest = []) : c.separators.val = c := Cursor.skipWhile_of_nil h

/-- The items of a text that is moved as a whole. -/
theorem items_moved (k : Nat) {text : List Char}
    (hok : (items (Cursor.start text 0).separators.val).2.errors = []) :
    (items (Cursor.start text k).separators.val).1 =
        (items (Cursor.start text 0).separators.val).1.map (Node.shift k) ∧
      (items (Cursor.start text k).separators.val).2.errors = [] := by
  have hcont := continues_start k text 0
  rw [Nat.zero_add] at hcont
  obtain ⟨e, he, hnodes, hlast⟩ := follows_items (follows_separators hcont) hok (by
    intro n _ _ l _ _ m hm
    cases hm)
  have hnil : e.rest = [] := he.rest_of_nil (rounds_items _).2
  rw [separators_of_nil hnil, items_of_end hnil, List.append_nil] at hnodes
  rw [separators_of_nil hnil, items_of_end hnil] at hlast
  refine ⟨hnodes, ?_⟩
  rw [hlast, he.errors, hok]
  rfl

theorem items_of_twins (h : Twins c c') (hok : (items c.separators.val).2.errors = []) :
    (items c'.separators.val).1 = (items c.separators.val).1 ∧
      (items c'.separators.val).2.errors = [] := by
  rcases twins_separators h with hsame | h
  · rw [hsame]
    exact ⟨rfl, hok⟩
  · generalize c.separators.val = d at *
    generalize c'.separators.val = d' at *
    by_cases hr : d.rest = []
    · have hr' : d'.rest = [] := by rw [h.rest, hr]; rfl
      rw [items_of_end hr] at hok ⊢
      rw [items_of_end hr']
      exact ⟨rfl, h.errors.trans hok⟩
    · have hpos := rest_ne_nil_iff.mp hr
      have hpos' : 0 < d'.weight := by rw [h.weight]; exact hpos
      have hbrace := not_isAtMark_of_items hok
      have hbrace' : d'.isAtMark .rightBrace = false := (h.isAt _).trans hbrace
      rw [items_of_statement hpos hbrace] at hok ⊢
      rw [items_of_statement hpos' hbrace']
      obtain ⟨n, hn⟩ := statement_value hpos (sound_statement d)
        (errors_of_advances (advances_items _) hok)
      obtain ⟨hn', hcursor⟩ := agrees_statement h n hn
      obtain ⟨hfst, hsnd⟩ := statement_of_some hpos hn
      obtain ⟨hfst', hsnd'⟩ := statement_of_some hpos' hn'
      rw [hsnd] at hok
      dsimp only
      rw [hfst, hfst', hsnd, hsnd', hcursor]
      exact ⟨rfl, hok⟩

theorem exists_first {l : Lexeme} {ls : List Lexeme} (hrest : c.rest = l :: ls)
    (hl : l.token ≠ .mark .semicolon) (hok : (items c.separators.val).2.errors = []) :
    ∃ n, (statement c).value = some n := by
  have hsame : c.separators.val = c := Cursor.skipWhile_of_neg hrest (by simpa using hl)
  have hpos := Cursor.weight_pos_of_rest hrest
  rw [hsame] at hok
  rw [items_of_statement hpos (not_isAtMark_of_items hok)] at hok
  exact statement_value hpos (sound_statement c) (errors_of_advances (advances_items _) hok)

/-- The first token of a text that has items only. -/
theorem opens_of_items {l : Lexeme} {ls : List Lexeme} (hrest : c.rest = l :: ls)
    (hok : (items c.separators.val).2.errors = []) : l.token.opensStatement = true := by
  by_cases hl : l.token = .mark .semicolon
  · rw [hl]
    rfl
  · obtain ⟨n, hn⟩ := exists_first hrest hl hok
    exact opens_of_statement hrest hn

/-- After the text comes another one, on the next line. -/
def Sequel.nextLine (text : List Char) (k : Nat)
    (h : ∀ l ∈ (Cursor.start text k).rest.head?, l.token.opensStatement = true) : Sequel where
  offset := 0
  tokens := Scan.freshen (Cursor.start text k).rest
  isEnd := false
  nothing := by simp
  opens := by
    intro l hl
    cases hr : (Cursor.start text k).rest with
    | nil => simp [hr, Scan.freshen] at hl
    | cons m ls =>
      rw [hr] at hl h
      cases hl
      exact ⟨rfl, h m rfl⟩

theorem continues_nextLine {a b : List Char} {k : Nat} (hk : k = byteLength a + 1)
    (ha : (Cursor.start a 0).errors = []) (hb : (Cursor.start b k).errors = [])
    (h : ∀ l ∈ (Cursor.start b k).rest.head?, l.token.opensStatement = true) :
    (nextLine b k h).Continues (.start a 0) (.start (a ++ '\n' :: b) 0) := by
  have hscan : (Scan.read a 0 false).errors = [] := List.map_eq_nil_iff.mp ha
  have hscan' : (Scan.read b k false).errors = [] := List.map_eq_nil_iff.mp hb
  have hwhole := Scan.read_append_newline a b 0 false hscan
  rw [Nat.zero_add, ← hk, Scan.read_fresh b k false hscan'] at hwhole
  refine ⟨?_, rfl, nofun, ?_, ?_⟩
  · have hsame : (Cursor.start a 0).rest.map (Lexeme.shift 0) = (Cursor.start a 0).rest :=
      List.map_id'' Lexeme.shift_zero _
    have htokens := congrArg Scan.lexemes hwhole
    exact htokens.trans (congrArg (· ++ _) hsame.symm)
  · rw [ha]
    exact List.map_eq_nil_iff.mpr (congrArg Scan.errors hwhole)
  · -- the line break stands between the two texts
    intro l hl m hm
    have hstop := (Scan.stands_read a 0 false (Occurs.self a)).1.stop_le l hl
    have hstart : k ≤ m.span.start := by
      have hshift := congrArg Cursor.rest (Cursor.start_shift k b 0)
      rw [Nat.zero_add] at hshift
      dsimp only [nextLine] at hm
      rw [hshift] at hm
      cases hr : (Cursor.start b 0).rest with
      | nil => simp [hr, Scan.freshen] at hm
      | cons l' ls =>
        rw [hr] at hm
        cases hm
        exact Nat.le_add_left _ _
    have hzero : (nextLine b k h).offset = 0 := rfl
    omega

/-- The tokens of the next line are those of the text that stands there. -/
theorem tokens_nextLine {b : List Char} {k : Nat}
    (h : ∀ l ∈ (Cursor.start b k).rest.head?, l.token.opensStatement = true) :
    (nextLine b k h).tokens.map (·.token) = (Cursor.start b 0).rest.map (·.token) := by
  have hfresh (ls : List Lexeme) : (Scan.freshen ls).map (·.token) = ls.map (·.token) := by
    cases ls <;> rfl
  have hshift := congrArg Cursor.rest (Cursor.start_shift k b 0)
  rw [Nat.zero_add] at hshift
  dsimp only [nextLine]
  rw [hfresh, hshift, List.map_map]
  rfl

/-- At the end of a text the next line is read as a text of its own. -/
theorem twins_nextLine {a b : List Char} {k : Nat} {e : Cursor} (hk : k = byteLength a + 1)
    (hb : (Cursor.start b k).errors = [])
    (h : ∀ l ∈ (Cursor.start b k).rest.head?, l.token.opensStatement = true)
    (hok : (sourceUnit (.start a 0)).2.errors = [])
    (he : (nextLine b k h).Continues (sourceUnit (.start a 0)).2 e)
    (hlast : (sourceUnit (.start (a ++ '\n' :: b) 0)).2 = (items e.separators.val).2) :
    Twins (.start b k) e := by
  refine ⟨he.rest_of_nil (rounds_items _).2, ?_, ?_⟩
  · have hwhole := (advances_sourceUnit (.start (a ++ '\n' :: b) 0)).textStop
    have hrest := ((Cursor.advances_skipWhile _ e).trans (advances_items e.separators.val)).textStop
    rw [hlast, hrest] at hwhole
    rw [hwhole]
    simp only [Cursor.start, byteLength_append, byteLength_cons, hk]
    have hnewline : '\n'.utf8Size = 1 := rfl
    omega
  · rw [he.errors, hok, hb]
    rfl

theorem hides_nextLine {b : List Char} {k : Nat} {t : Token}
    (h : ∀ l ∈ (Cursor.start b k).rest.head?, l.token.opensStatement = true)
    (ht : ∀ l ∈ (Cursor.start b 0).rest.head?, l.token ≠ t) : (nextLine b k h).Hides t := by
  intro l hl htoken
  have htokens := congrArg List.head? (tokens_nextLine h)
  rw [List.head?_map, List.head?_map, hl, Option.map_some, htoken] at htokens
  obtain ⟨m, hm, hmt⟩ := Option.map_eq_some_iff.mp htokens.symm
  exact ht m hm hmt

theorem sourceUnit_lines {a b : List Char} {k : Nat} (hk : k = byteLength a + 1)
    (ha : (sourceUnit (.start a 0)).2.errors = []) (hb : (sourceUnit (.start b 0)).2.errors = [])
    (hpackage : (sourceUnit (.start b 0)).1.package = none)
    (himports : (sourceUnit (.start b 0)).1.imports = [])
    (hparen : ∀ n ∈ (sourceUnit (.start a 0)).1.items.getLast?, n.isData = true →
      ∀ l ∈ (Cursor.start a 0).rest.getLast?, l.token.isIdentifier = true →
      ∀ m ∈ (Cursor.start b 0).rest.head?, m.token ≠ .mark .leftParen)
    (hbrace : (sourceUnit (.start a 0)).1.imports ≠ [] → (sourceUnit (.start a 0)).1.items = [] →
      ∀ l ∈ (Cursor.start a 0).rest.getLast?, l.token.isIdentifier = true →
      ∀ m ∈ (Cursor.start b 0).rest.head?, m.token ≠ .mark .leftBrace) :
    (sourceUnit (.start (a ++ '\n' :: b) 0)).1 = ⟨(sourceUnit (.start a 0)).1.package,
        (sourceUnit (.start a 0)).1.imports, (sourceUnit (.start a 0)).1.items ++
          (sourceUnit (.start b 0)).1.items.map (Node.shift k)⟩ ∧
      (sourceUnit (.start (a ++ '\n' :: b) 0)).2.errors = [] := by
  obtain ⟨hunit, himport⟩ := sourceUnit_of_items hb hpackage himports
  rw [hunit] at hb ⊢
  obtain ⟨hmoved, hok⟩ := items_moved k hb
  have hopens : ∀ l ∈ (Cursor.start b k).rest.head?, l.token.opensStatement = true := by
    intro l hl
    obtain ⟨ls, hrest⟩ := List.head?_eq_some_iff.mp hl
    exact opens_of_items hrest hok
  have hstart := errors_of_advances ((Cursor.advances_skipWhile _ _).trans (advances_items _)) hok
  have hcont := continues_nextLine hk (errors_of_advances (advances_sourceUnit _) ha) hstart hopens
  have hnone : ((nextLine b k hopens).tokens.map (·.token)).find? (· ≠ .mark .semicolon) ≠
      some (.keyword .importWord) := by
    rw [tokens_nextLine, ← peek?_separators]
    simpa [Cursor.isAt] using himport
  obtain ⟨e, he, hwhole, hlast⟩ := follows_sourceUnit hcont hnone ha
    (fun n hn hdata l hl hname => hides_nextLine hopens (hparen n hn hdata l hl hname))
    (fun hne hnil l hl hname => hides_nextLine hopens (hbrace hne hnil l hl hname))
  obtain ⟨hnodes, herrors⟩ := items_of_twins (twins_nextLine hk hstart hopens ha he hlast) hok
  rw [hlast]
  refine ⟨?_, herrors⟩
  -- the first text is not moved
  have hpackages : ∀ x : Option PackageDecl, x.map (PackageDecl.shift 0) = x := by
    rintro (_ | _) <;> rfl
  rw [hwhole, hnodes, hmoved]
  dsimp only [nextLine]
  rw [hpackages, List.map_id'' ImportDecl.shift_zero, List.map_id'' Node.shift_zero]

end Parse

namespace Parsed

open Parse

def firstToken? (text : String) : Option Token :=
  (Scan.ofText text.toList 0).lexemes.head?.map (·.token)

def lastToken? (text : String) : Option Token :=
  (Scan.ofText text.toList 0).lexemes.getLast?.map (·.token)

/-- The last token of `a` is a name that `b` goes on with on the next line: a case of a declaration of
data before a parenthesis, or a package that is imported before a brace. -/
def goesOn (a b : String) : Bool :=
  (lastToken? a).any Token.isIdentifier &&
    (firstToken? b == some (.mark .leftParen) &&
        (ofSource a).unit.items.getLast?.any Node.isData ||
      firstToken? b == some (.mark .leftBrace) &&
        !(ofSource a).unit.imports.isEmpty && (ofSource a).unit.items.isEmpty)

/-- A line break separates items: if neither of two texts has errors, and the second has items only,
then the two lines together have no errors, the package line and imports of the first, and the items
of both, those of the second moved. -/
theorem line_break_separates (a b : String) (ha : (ofSource a).errors = [])
    (hb : (ofSource b).errors = []) (hpackage : (ofSource b).unit.package = none)
    (himports : (ofSource b).unit.imports = []) (hseparate : goesOn a b = false) :
    (ofSource (a ++ "\n" ++ b)).errors = [] ∧
    (ofSource (a ++ "\n" ++ b)).unit.package = (ofSource a).unit.package ∧
    (ofSource (a ++ "\n" ++ b)).unit.imports = (ofSource a).unit.imports ∧
    (ofSource (a ++ "\n" ++ b)).unit.items =
      (ofSource a).unit.items ++
        (ofSource b).unit.items.map (Node.shift (byteLength a.toList + 1)) := by
  have htext : (a ++ "\n" ++ b).toList = a.toList ++ '\n' :: b.toList := by simp
  have hfirst {m : Lexeme} {t : Token} (hm : m ∈ (Cursor.start b.toList 0).rest.head?)
      (ht : m.token = t) : firstToken? b = some t := by
    rw [← ht]
    exact congrArg (Option.map Lexeme.token) hm
  have hlast {l : Lexeme} (hl : l ∈ (Cursor.start a.toList 0).rest.getLast?) :
      lastToken? a = some l.token := congrArg (Option.map Lexeme.token) hl
  obtain ⟨hunit, herrors⟩ := sourceUnit_lines rfl ha hb hpackage himports
    (by
      intro n hn hdata l hl hname m hm hmark
      have hitems : (ofSource a).unit.items.getLast? = some n := hn
      simp [goesOn, hfirst hm hmark, hlast hl, hname, hitems, hdata] at hseparate)
    (by
      intro hne hnil l hl hname m hm hmark
      have himports : (ofSource a).unit.imports ≠ [] := hne
      have hitems : (ofSource a).unit.items = [] := hnil
      simp [goesOn, hfirst hm hmark, hlast hl, hname, hitems, himports] at hseparate)
  rw [← htext] at hunit herrors
  have hwhole : (ofSource (a ++ "\n" ++ b)).unit = _ := hunit
  rw [hwhole]
  exact ⟨herrors, rfl, rfl, rfl⟩

/-- A parenthesis on a new line does not call what stands before it. -/
theorem line_break_separates_call :
    (ofSource "val f = g").errors = [] ∧ (ofSource "(x)").errors = [] ∧
    (ofSource "(x)").unit.package = none ∧ (ofSource "(x)").unit.imports = [] ∧
    goesOn "val f = g" "(x)" = false ∧
    (ofSource ("val f = g" ++ "\n" ++ "(x)")).unit.items =
      [.define ⟨"f", false, false, none⟩ (.name "g" ⟨8, 9⟩) ⟨0, 9⟩, .name "x" ⟨11, 12⟩] := by
  have ha : (ofSource "val f = g").errors = [] := by decide +kernel
  have hb : (ofSource "(x)").errors = [] := by decide +kernel
  have hpackage : (ofSource "(x)").unit.package = none := by decide +kernel
  have himports : (ofSource "(x)").unit.imports = [] := by decide +kernel
  have hseparate : goesOn "val f = g" "(x)" = false := by decide +kernel
  obtain ⟨_, _, _, hitems⟩ := line_break_separates _ _ ha hb hpackage himports hseparate
  refine ⟨ha, hb, hpackage, himports, hseparate, ?_⟩
  have hfirst : Scan.ofText "val f = g".toList 0 =
      ⟨[⟨.keyword .val, ⟨0, 3⟩, false⟩, ⟨.identifier "f", ⟨4, 5⟩, false⟩,
        ⟨.mark .equal, ⟨6, 7⟩, false⟩, ⟨.identifier "g", ⟨8, 9⟩, false⟩], []⟩ := by
    decide +kernel
  have hsecond : Scan.ofText "(x)".toList 0 =
      ⟨[⟨.mark .leftParen, ⟨0, 1⟩, false⟩, ⟨.identifier "x", ⟨1, 2⟩, false⟩,
        ⟨.mark .rightParen, ⟨2, 3⟩, false⟩], []⟩ := by
    decide +kernel
  rw [hitems, ofSource, ofSource, Cursor.start, Cursor.start, hfirst, hsecond,
    show byteLength "val f = g".toList = 9 by decide +kernel,
    show byteLength "(x)".toList = 3 by decide +kernel]
  cbv

/-- A text that starts with a declaration and has no errors has it for its first item. -/
theorem exists_data {text : String} {span : Span} {fresh : Bool} {ls : List Lexeme}
    (hrest : (Cursor.start text.toList 0).rest = ⟨.keyword .data, span, fresh⟩ :: ls)
    (hok : (ofSource text).errors = []) :
    ∃ n, (statement (.start text.toList 0)).value = some n := by
  have hpeek : (Cursor.start text.toList 0).peek? = some (.keyword .data) := by
    rw [Cursor.peek?, hrest]
    rfl
  have hline : packageLine (.start text.toList 0) = (none, .start text.toList 0) :=
    if_neg (by simp [Cursor.isAt, hpeek])
  have hsame : (Cursor.start text.toList 0).separators.val = .start text.toList 0 :=
    Cursor.skipWhile_of_neg hrest (by simp)
  have hdecls : importDecls (.start text.toList 0) = ([], .start text.toList 0) :=
    importDecls_of_not_at (by simp [Cursor.isAt, hpeek])
  apply exists_first hrest (by simp)
  rw [ofSource, sourceUnit_eq, hline] at hok
  dsimp only at hok
  rw [hsame, hdecls] at hok
  rw [hsame]
  exact hok

/-- A brace on a new line is taken for the names of an import, and the block there is lost; and a
parenthesis on a new line is taken for the fields of a case. -/
theorem line_break_joins :
    ((ofSource "import lib/math").errors = [] ∧ (ofSource "\x7b x \x7d").errors = [] ∧
      (ofSource "\x7b x \x7d").unit.package = none ∧ (ofSource "\x7b x \x7d").unit.imports = [] ∧
      (ofSource ("import lib/math" ++ "\n" ++ "\x7b x \x7d")).errors = [] ∧
      (ofSource ("import lib/math" ++ "\n" ++ "\x7b x \x7d")).unit.items ≠
        (ofSource "import lib/math").unit.items ++ (ofSource "\x7b x \x7d").unit.items.map
          (Node.shift (byteLength "import lib/math".toList + 1))) ∧
    ((ofSource "data A = X").errors = [] ∧ (ofSource "(y)").errors = [] ∧
      (ofSource "(y)").unit.package = none ∧ (ofSource "(y)").unit.imports = [] ∧
      (ofSource ("data A = X" ++ "\n" ++ "(y)")).errors ≠ []) := by
  refine ⟨⟨by decide +kernel, by decide +kernel, by decide +kernel, by decide +kernel,
    by decide +kernel, ?_⟩, by decide +kernel, by decide +kernel, by decide +kernel,
    by decide +kernel, ?_⟩
  · have hwhole : (ofSource ("import lib/math" ++ "\n" ++ "\x7b x \x7d")).unit.items = [] := by
      decide +kernel
    have hblock : (ofSource "\x7b x \x7d").unit.items.length = 1 := by decide +kernel
    intro hitems
    have hlength := congrArg List.length hitems
    rw [hwhole, List.length_append, List.length_map, hblock] at hlength
    exact absurd hlength (Nat.succ_ne_zero _).symm
  · have hrest : (Cursor.start ("data A = X" ++ "\n" ++ "(y)").toList 0).rest =
        ⟨.keyword .data, ⟨0, 4⟩, false⟩ ::
          (Cursor.start ("data A = X" ++ "\n" ++ "(y)").toList 0).rest.tail := by decide +kernel
    have hnone : (statement (.start ("data A = X" ++ "\n" ++ "(y)").toList 0)).value = none := by
      decide +kernel
    intro hok
    obtain ⟨n, hn⟩ := exists_data hrest hok
    rw [hnone] at hn
    cases hn

end Parsed

end Tern
