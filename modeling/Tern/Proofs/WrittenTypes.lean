import Tern.Ty.Resolve
import Tern.Proofs.Parse.OneLine

/-!
A type is what its text stands for. The text of a type, written after a variable, is read as a
reference with the same text, and this reference is resolved to the type again, if the names in it
mean what they mean in the type.
-/

set_option autoImplicit false

namespace Tern

/-! Types that can be written -/

/-- Nothing takes the name of a primitive type or of arrays. -/
structure TypeScope.Plain (scope : TypeScope) : Prop where
  primitive : ∀ p : Primitive, p.text ∉ scope.generics ∧ scope.lookup p.text = none
  array : "array" ∉ scope.generics ∧ scope.lookup "array" = none

/-- The names in the type are words that are in scope under these names, variants with as many
arguments as they have parameters, and with cases that they have. -/
inductive Ty.Writable (scope : TypeScope) : Ty → Prop
  | primitive (p : Primitive) : Writable scope (.primitive p)
  | param {x : String} (name : Piece.isName x = true) (known : x ∈ scope.generics) :
    Writable scope (.param x)
  | array {t : Ty} (element : Writable scope t) : Writable scope (.array t)
  | function {s : Signature} (params : ∀ t ∈ s.params, Writable scope t)
    (ret : Writable scope s.ret) : Writable scope (.function s)
  | variant {head : VariantHead} {args : List Ty} (name : Piece.isName head.name = true)
    (free : head.name ∉ scope.generics)
    (known : scope.lookup head.name = some (.generic head.path head.name head.typeParams))
    (length : head.typeParams.length = args.length) (parts : ∀ t ∈ args, Writable scope t)
    (case : ∀ case ∈ head.case,
      Piece.isName case = true ∧ scope.hasCase { head with case := none } case = true) :
    Writable scope (.variant head args)

/-- The reference says in its text what the type says, and stands for it. -/
structure Ty.WrittenAs (scope : TypeScope) (t : Ty) (ref : TypeRef) : Prop where
  text : ref.text = t.text
  resolve : scope.resolve ref = .ok t

/-! Tokens -/

/-- Lists of tokens between commas. -/
def Token.separated (groups : List (List Token)) : List Token :=
  [Token.mark .comma].intercalate groups

/-- Lists of tokens in brackets, if there are any. -/
def Token.bracketed (groups : List (List Token)) : List Token :=
  if groups.isEmpty then []
  else .mark .leftBracket :: (separated groups ++ [.mark .rightBracket])

mutual
/-- The tokens of the text of a type. Sets of signatures have no text that could be read. -/
def Ty.tokens : Ty → List Token
  | .primitive p => [.identifier p.text]
  | .function s => s.tokens
  | .overloaded _ => []
  | .param x => [.identifier x]
  | .variant head args =>
    .identifier head.name :: (Token.bracketed (Ty.tokensAll args) ++
      match head.case with
      | none => []
      | some case => [.mark .dot, .identifier case])
  | .array t => .identifier "array" :: Token.bracketed [t.tokens]
def Ty.tokensAll : List Ty → List (List Token)
  | [] => []
  | t :: ts => t.tokens :: Ty.tokensAll ts
def Signature.tokens : Signature → List Token
  | .mk params ret =>
    .mark .leftParen :: (Token.separated (Ty.tokensAll params) ++
      .mark .rightParen :: .mark .arrow :: ret.tokens)
end

theorem Ty.tokensAll_eq_map (ts : List Ty) : Ty.tokensAll ts = ts.map Ty.tokens := by
  induction ts with
  | nil => rfl
  | cons t ts ih => rw [Ty.tokensAll, ih, List.map_cons]

theorem Ty.texts_eq_map (ts : List Ty) : Ty.texts ts = ts.map Ty.text := by
  induction ts with
  | nil => rfl
  | cons t ts ih => rw [Ty.texts, ih, List.map_cons]

theorem TypeRef.texts_eq_map (rs : List TypeRef) : TypeRef.texts rs = rs.map TypeRef.text := by
  induction rs with
  | nil => rfl
  | cons r rs ih => rw [TypeRef.texts, ih, List.map_cons]

/-- The arguments in the text of a type. -/
def Ty.argsText : List Ty → String
  | [] => ""
  | t :: ts => "[" ++ ", ".intercalate (Ty.texts (t :: ts)) ++ "]"

theorem Ty.text_variant (head : VariantHead) (args : List Ty) :
    (Ty.variant head args).text = head.name ++ argsText args ++
      match head.case with
      | none => ""
      | some case => "." ++ case := by
  cases args <;> rfl

theorem Ty.text_array (t : Ty) : (Ty.array t).text = "array" ++ argsText [t] := by
  rw [Ty.text, argsText, Ty.texts, Ty.texts, String.intercalate_singleton, ← String.append_assoc,
    ← String.append_assoc]
  rfl

/-! The text of a type is read as its tokens. -/

section

open Piece

/-- The text is read as the tokens wherever its last word ends. -/
def Spells (text : String) (ts : List Token) : Prop :=
  ∀ rest us, Delimited rest → Reads rest us → Reads (text.toList ++ rest) (ts ++ us)

theorem spells_name {x : String} (hx : isName x = true) : Spells x [.identifier x] :=
  fun _ _ hrest h => h.name hx hrest

theorem isName_primitive (p : Primitive) : isName p.text = true := by cases p <;> rfl

variable {scope : TypeScope} {t : Ty} {ts : List Ty}

theorem spells_separated (h : ∀ t ∈ ts, Spells t.text t.tokens) :
    Spells (", ".intercalate (Ty.texts ts)) (Token.separated (Ty.tokensAll ts)) := by
  intro rest us hrest hreads
  rw [Ty.texts_eq_map, Ty.tokensAll_eq_map, String.toList_intercalate, List.map_map,
    Token.separated]
  induction ts with
  | nil => simpa using hreads
  | cons t ts ih =>
    rw [List.forall_mem_cons] at h
    cases ts with
    | nil =>
      simp only [List.map_singleton, List.intercalate_singleton]
      exact h.1 rest us hrest hreads
    | cons u ts =>
      have hmore := ih h.2
      simp only [List.map_cons, List.intercalate_cons_cons, List.append_assoc] at hmore ⊢
      exact h.1 _ _ (by simp [Delimited]; rfl) (Reads.token rfl hmore.blank)

theorem spells_args {x : String} (hx : isName x = true) (h : ∀ t ∈ ts, Spells t.text t.tokens) :
    Spells (x ++ Ty.argsText ts) (.identifier x :: Token.bracketed (Ty.tokensAll ts)) := by
  cases ts with
  | nil =>
    rw [Ty.argsText, String.append_empty]
    exact spells_name hx
  | cons t ts =>
    intro rest us _ hreads
    have hclose : Reads (']' :: rest) (.mark .rightBracket :: us) := .token rfl hreads
    have hinside := spells_separated h _ _ (by simp [Delimited]; rfl) hclose
    have hopen := Reads.name hx (by simp [Delimited]; rfl) (Reads.token (c := '[') rfl hinside)
    simp only [Ty.argsText, String.toList_append, List.append_assoc]
    simpa [Ty.tokensAll, Token.bracketed] using hopen

/-- The text of a type is read as its tokens. -/
theorem Ty.Writable.spells (h : t.Writable scope) : Spells t.text t.tokens := by
  induction h with
  | primitive p => exact spells_name (isName_primitive p)
  | param name _ => exact spells_name name
  | @array t _ ih =>
    rw [Ty.text_array]
    exact spells_args (by rfl) (by simpa using ih)
  | @function s _ _ ihp ihr =>
    obtain ⟨ps, r⟩ := s
    have ihps : ∀ t ∈ ps, Spells t.text t.tokens := ihp
    intro rest us hrest hreads
    have hret := ihr rest us hrest hreads
    have harrow : Reads (')' :: ' ' :: '-' :: '>' :: ' ' :: (r.text.toList ++ rest))
        (.mark .rightParen :: .mark .arrow :: (r.tokens ++ us)) :=
      .token rfl (Reads.blank (Reads.token rfl (Reads.blank hret)))
    have hparams := spells_separated ihps _ _ (by simp [Delimited]; rfl) harrow
    have hopen := Reads.token (c := '(') rfl hparams
    simp only [Ty.text, Signature.text, Ty.tokens, Signature.tokens, String.toList_append,
      List.append_assoc]
    simpa using hopen
  | @variant head args name _ _ _ _ case ih =>
    intro rest us hrest hreads
    rw [Ty.text_variant, Ty.tokens]
    cases hcase : head.case with
    | none =>
      simpa using spells_args name ih rest us hrest hreads
    | some x =>
      have hx : isName x = true := (case x hcase).1
      have hdot : Reads ('.' :: (x.toList ++ rest)) (.mark .dot :: .identifier x :: us) :=
        .token rfl (.name hx hrest hreads)
      have hall := spells_args name ih _ _ (by simp [Delimited]; rfl) hdot
      simp only [String.toList_append, List.append_assoc]
      simpa using hall

end

/-! The tokens are read as a reference to the type. -/

namespace Parse

open Outcome Cursor

variable {scope : TypeScope} {c : Cursor} {x : String} {args : List Ty} {us : List Token}

/-- A type ends before these tokens. -/
def EndsType (us : List Token) : Prop :=
  us.head? ≠ some (.mark .leftBracket) ∧ us.head? ≠ some (.mark .dot)

/-- Where the tokens of the type are ahead, a reference to it is found. -/
def FindsType (scope : TypeScope) (t : Ty) : Prop :=
  ∀ c us, EndsType us → c.Ahead (t.tokens ++ us) → (typeRef c).Finds (t.WrittenAs scope) us

theorem finds_selectedCase {case : String} {base : TypeRef} (start : Span)
    (h : c.Ahead (.mark .dot :: .identifier case :: us)) :
    (selectedCase start base c).Finds (fun ref => ∃ s, ref = .selected base case s) us := by
  obtain ⟨hd, heat⟩ := h.eat?
  rw [selectedCase, heat]
  have hname := finds_expectName h.advance "case name"
  refine (hname.andThen fun a d hd ha hahead => ?_).relax.weaken
  exact finds_done ⟨_, congrArg (TypeRef.selected base · _) ha⟩ hahead

theorem finds_noCase {base : TypeRef} (start : Span) (h : c.Ahead us)
    (hne : us.head? ≠ some (.mark .dot)) :
    (selectedCase start base c).Finds (fun ref => ref = base) us := by
  rw [selectedCase, h.eat?_of_ne hne]
  exact finds_done rfl h

/-- A name with the references that it is applied to, if there are any. -/
def IsApplied (scope : TypeScope) (x : String) (args : List Ty) (ref : TypeRef) : Prop :=
  (args = [] ∧ ∃ s, ref = .named x s) ∨
    ∃ refs s s', args ≠ [] ∧ List.Forall₂ (Ty.WrittenAs scope) args refs ∧
      ref = .applied (.named x s') refs s

theorem starts_tokens (t : Ty) (h : t.Writable scope) :
    t.tokens.head? ≠ none ∧
      ∀ m ∈ [Mark.rightParen, Mark.rightBracket], t.tokens.head? ≠ some (.mark m) := by
  cases h with
  | @function s _ _ =>
    obtain ⟨ps, r⟩ := s
    simp [Ty.tokens, Signature.tokens]
  | _ => simp [Ty.tokens]

/-- Types are found between commas if each of them is. -/
theorem finds_types {close : Mark} (hclose : close ∈ [Mark.rightParen, Mark.rightBracket])
    (hargs : ∀ t ∈ args, t.Writable scope ∧ FindsType scope t)
    (h : c.Ahead (Token.separated (Ty.tokensAll args) ++ .mark close :: us)) :
    (c.commaList close fun d _ => typeRef d).Finds (List.Forall₂ (Ty.WrittenAs scope) args) us := by
  rw [Ty.tokensAll_eq_map] at h
  refine finds_commaList args ?_ ?_ ?_ h
  · intro t ht
    have hstart := starts_tokens t (hargs t ht).1
    exact ⟨hstart.1, hstart.2 close hclose⟩
  · rintro rfl
    simp at hclose
  · intro t ht d _ vs hvs hahead
    refine (hargs t ht).2 d vs ?_ hahead
    rcases hvs with hvs | hvs
    · simp [EndsType, hvs]
    · rw [EndsType, hvs]
      revert hclose
      simp
      rintro (rfl | rfl) <;> simp

/-- What starts with a name is read up to a case, and then its case. -/
theorem finds_named {P : TypeRef → Prop} {vs : List Token}
    (hargs : ∀ t ∈ args, t.Writable scope ∧ FindsType scope t)
    (hnot : us.head? ≠ some (.mark .leftBracket))
    (hcase : ∀ start base d, IsApplied scope x args base → d.Ahead us →
      (selectedCase start base d).Finds P vs)
    (h : c.Ahead (.identifier x :: (Token.bracketed (Ty.tokensAll args) ++ us))) :
    (typeRef c).Finds P vs := by
  rw [typeRef]
  dsimp only
  rw [h.eat?_of_ne (t := .mark .leftParen) (by simp)]
  refine (finds_expectName h "type").andThen fun found d _ hx hahead => ?_
  obtain ⟨y, s⟩ := found
  obtain rfl : y = x := hx
  dsimp only
  rw [if_neg (by simp [hahead.isAtLineStart])]
  cases args with
  | nil =>
    rw [hahead.eat?_of_ne (t := .mark .leftBracket)
      (by simpa [Token.bracketed, Ty.tokensAll] using hnot)]
    exact hcase _ _ d (Or.inl ⟨rfl, s, rfl⟩) (by simpa [Token.bracketed, Ty.tokensAll] using hahead)
  | cons t ts =>
    have hbracket : d.Ahead (.mark .leftBracket ::
        (Token.separated (Ty.tokensAll (t :: ts)) ++ .mark .rightBracket :: us)) := by
      simpa [Token.bracketed, Ty.tokensAll] using hahead
    obtain ⟨he, heat⟩ := hbracket.eat?
    rw [heat]
    refine Finds.weaken ((finds_types (by simp) hargs hbracket.advance).relax.thenMaybe ?_)
    intro refs f _ hrefs hf
    exact hcase _ _ f (Or.inr ⟨refs, _, s, by simp, hrefs, rfl⟩) hf

/-! References to types -/

section

variable {refs : List TypeRef} {base : TypeRef} {t : Ty} {head : VariantHead}

theorem written_all (h : List.Forall₂ (Ty.WrittenAs scope) args refs) :
    TypeRef.texts refs = Ty.texts args ∧ scope.resolveAll refs = .ok args := by
  induction h with
  | nil => exact ⟨rfl, by rw [TypeScope.resolveAll]⟩
  | cons href _ ih =>
    rw [TypeRef.texts, Ty.texts, href.text, ih.1, TypeScope.resolveAll, href.resolve, ih.2]
    exact ⟨rfl, rfl⟩

theorem IsApplied.text (h : IsApplied scope x args base) : base.text = x ++ Ty.argsText args := by
  rcases h with ⟨rfl, s, rfl⟩ | ⟨refs, s, s', hne, hrefs, rfl⟩
  · rw [TypeRef.text, Ty.argsText, String.append_empty]
  · obtain ⟨t, ts, rfl⟩ := List.exists_cons_of_ne_nil hne
    rw [TypeRef.text, TypeRef.text, Ty.argsText, (written_all hrefs).1]
    simp only [String.append_assoc]

theorem name?_of_free (hfree : x ∉ scope.generics) (hknown : scope.lookup x = some t) :
    scope.name? x = some t := by
  rw [TypeScope.name?, if_neg (by simpa using hfree), hknown]

theorem IsApplied.variant (hfree : head.name ∉ scope.generics)
    (hknown : scope.lookup head.name = some (.generic head.path head.name head.typeParams))
    (hlength : head.typeParams.length = args.length)
    (h : IsApplied scope head.name args base) :
    (Ty.variant { head with case := none } args).WrittenAs scope base := by
  refine ⟨by rw [h.text, Ty.text_variant, String.append_empty], ?_⟩
  have hname := name?_of_free hfree hknown
  rcases h with ⟨rfl, s, rfl⟩ | ⟨refs, s, s', _, hrefs, rfl⟩
  · have hnil : head.typeParams = [] := List.length_eq_zero_iff.mp hlength
    rw [TypeScope.resolve, hname, Ty.generic, hnil]
    rfl
  · have harray : scope.isArrayName (.named head.name s') = false := by
      simp [TypeScope.isArrayName, hknown]
    rw [TypeScope.resolve, (written_all hrefs).2, harray, TypeScope.resolve, hname, Ty.generic]
    dsimp only
    rw [if_neg Bool.false_ne_true, TypeScope.applyBase, if_pos hlength]

theorem IsApplied.array (hplain : scope.Plain) (h : IsApplied scope "array" [t] base) :
    (Ty.array t).WrittenAs scope base := by
  refine ⟨by rw [h.text, Ty.text_array], ?_⟩
  rcases h with ⟨hnil, _⟩ | ⟨refs, s, s', _, hrefs, rfl⟩
  · cases hnil
  · have harray : scope.isArrayName (.named "array" s') = true := by
      simp [TypeScope.isArrayName, hplain.array]
    rw [TypeScope.resolve, (written_all hrefs).2, harray]
    rfl

theorem IsApplied.name (hname : scope.name? x = some t) (htext : t.text = x)
    (h : IsApplied scope x [] base) : t.WrittenAs scope base := by
  refine ⟨by rw [h.text, Ty.argsText, String.append_empty, htext], ?_⟩
  rcases h with ⟨_, s, rfl⟩ | ⟨_, _, _, hne, _, _⟩
  · rw [TypeScope.resolve, hname]
  · exact absurd rfl hne

theorem written_case {case : String} (s : Span)
    (hcase : scope.hasCase { head with case := none } case = true) (hhead : head.case = some case)
    (h : (Ty.variant { head with case := none } args).WrittenAs scope base) :
    (Ty.variant head args).WrittenAs scope (.selected base case s) := by
  obtain ⟨path, name, typeParams, _⟩ := head
  obtain rfl := hhead
  refine ⟨?_, ?_⟩
  · rw [TypeRef.text, h.text, Ty.text_variant, Ty.text_variant]
    simp only [String.append_empty, String.append_assoc]
  · rw [TypeScope.resolve, h.resolve]
    dsimp only
    rw [if_pos hcase]

end

/-- A type without a case is found after its name, whatever it is applied to. -/
theorem finds_applied {t : Ty} (hargs : ∀ t ∈ args, t.Writable scope ∧ FindsType scope t)
    (hus : EndsType us) (hwritten : ∀ base, IsApplied scope x args base → t.WrittenAs scope base)
    (h : c.Ahead (.identifier x :: (Token.bracketed (Ty.tokensAll args) ++ us))) :
    (typeRef c).Finds (t.WrittenAs scope) us := by
  refine finds_named hargs hus.1 (fun start base d hbase hd => ?_) h
  exact (finds_noCase start hd hus.2).imp fun ref href => href ▸ hwritten base hbase

/-- What a name stands for is found at this name. -/
theorem finds_name {t : Ty} (hname : scope.name? x = some t) (htext : t.text = x)
    (hus : EndsType us) (h : c.Ahead (.identifier x :: us)) : (typeRef c).Finds (t.WrittenAs scope) us :=
  finds_applied (List.forall_mem_nil _) hus (fun _ hbase => hbase.name hname htext) h

theorem finds_function {s : Signature}
    (hparams : ∀ t ∈ s.params, t.Writable scope ∧ FindsType scope t) 
    (hret : FindsType scope s.ret) : FindsType scope (.function s) := by
  obtain ⟨ps, r⟩ := s
  intro c us hus hc
  rw [Ty.tokens, Signature.tokens] at hc
  have hopen : c.Ahead (.mark .leftParen :: (Token.separated (Ty.tokensAll ps) ++
      .mark .rightParen :: .mark .arrow :: (r.tokens ++ us))) := by simpa using hc
  obtain ⟨_, heat⟩ := hopen.eat?
  rw [typeRef]
  dsimp only
  rw [heat]
  refine Finds.weaken
    ((finds_types (by simp) hparams hopen.advance).andThen fun refs d _ hrefs hd => ?_)
  refine ((finds_expect hd).andThen fun _ e _ _ he => ?_).relax
  refine (hret e us hus he).relax.thenMaybe fun ref f _ href hf => finds_done ⟨?_, ?_⟩ hf
  · rw [TypeRef.text, (written_all hrefs).1, href.text]
    rfl
  · rw [TypeScope.resolve, (written_all hrefs).2, href.resolve]
    rfl

/-- What a type is written as is found, and stands for it. -/
theorem finds_type (hplain : scope.Plain) {t : Ty} (h : t.Writable scope) : FindsType scope t := by
  induction h with
  | primitive p =>
    intro c us hus hc
    obtain ⟨hfree, hlookup⟩ := hplain.primitive p
    have hname : scope.name? p.text = some (.primitive p) := by
      rw [TypeScope.name?, if_neg (by simpa using hfree), hlookup]
      cases p <;> rfl
    exact finds_name hname rfl hus hc
  | @param x _ hknown =>
    intro c us hus hc
    have hname : scope.name? x = some (.param x) := by
      rw [TypeScope.name?, if_pos (by simpa using hknown)]
    exact finds_name hname rfl hus hc
  | @array t ht ih =>
    intro c us hus hc
    exact finds_applied (by simpa using ⟨ht, ih⟩) hus (fun base hbase => hbase.array hplain) hc
  | function hparams _ ihp ihr => exact finds_function (fun t ht => ⟨hparams t ht, ihp t ht⟩) ihr
  | @variant head args name hfree hknown hlength hargs hcase ih =>
    intro c us hus hc
    have hboth : ∀ t ∈ args, t.Writable scope ∧ FindsType scope t :=
      fun t ht => ⟨hargs t ht, ih t ht⟩
    have hbase (base : TypeRef) (h : IsApplied scope head.name args base) :=
      h.variant hfree hknown hlength
    rw [Ty.tokens] at hc
    cases hsome : head.case with
    | none =>
      have hhead : { head with case := none } = head := by rw [← hsome]
      rw [hsome] at hc
      rw [hhead] at hbase
      exact finds_applied hboth hus hbase (by simpa using hc)
    | some case =>
      rw [hsome] at hc
      have htokens : c.Ahead (.identifier head.name :: (Token.bracketed (Ty.tokensAll args) ++
          .mark .dot :: .identifier case :: us)) := by simpa using hc
      refine finds_named hboth (by simp) (fun start base d happlied hd => ?_) htokens
      refine (finds_selectedCase start hd).imp ?_
      rintro ref ⟨s, rfl⟩
      exact written_case s (hcase case hsome).2 hsome (hbase base happlied)

/-- The tokens of a type are found after the name of a variable. -/
theorem finds_val (hplain : scope.Plain) {t : Ty} (h : t.Writable scope)
    (hc : c.Ahead (.keyword .val :: .identifier x :: .mark .colon ::
      (t.tokens ++ [.mark .equal, .integer "0"]))) :
    (statement c).Finds (fun node => ∃ ref valueSpan span, t.WrittenAs scope ref ∧
      node = .define ⟨x, false, false, some ref⟩ (.literal (.int 0) valueSpan) span) [] := by
  have hform : formOf c.rest = .value false := by
    obtain ⟨⟨_, _, _⟩, ls, hrest, rfl⟩ := hc.exists_cons
    rw [hrest]
    rfl
  rw [statement_eq (hc.skip_of_ne (by simp)), hform, readForm, if_neg Bool.false_ne_true,
    variableDecl]
  refine Finds.weaken ((finds_expect hc).andThen fun _ d _ _ hd => ?_)
  refine ((finds_expectName hd "variable name").andThen fun found e _ hname he => ?_).relax
  have htype : (typeAfterColon e).Finds (fun ref? => ∃ ref, t.WrittenAs scope ref ∧ ref? = some ref)
      [.mark .equal, .integer "0"] := by
    obtain ⟨_, heat⟩ := he.eat?
    rw [typeAfterColon, heat]
    have hfound := finds_type hplain h _ _ ?_ he.advance
    · exact (hfound.map fun ref href => ⟨ref, href, rfl⟩).relax.weaken
    simp [EndsType]
  refine htype.thenMaybe fun ref? f _ href hf => ?_
  obtain ⟨ref, href, rfl⟩ := href
  refine ((finds_expect hf).andThen fun _ g _ _ hg => ?_).relax
  refine (finds_integer (n := 0) rfl hg).relax.thenMaybe fun node i _ hnode hi => ?_
  obtain ⟨span, rfl⟩ := hnode
  obtain ⟨y, s⟩ := found
  obtain rfl : y = x := hname
  exact finds_done ⟨ref, span, _, href, rfl⟩ hi

end Parse

/-- The text of a type, written after a variable, is read without errors as a reference with this
text, which stands for the type. -/
theorem written_type_resolves {scope : TypeScope} (hplain : scope.Plain) {t : Ty}
    (h : t.Writable scope) :
    ∃ ref valueSpan span,
      (Parsed.ofSource ("val x: " ++ t.text ++ " = 0")).errors = [] ∧
      (Parsed.ofSource ("val x: " ++ t.text ++ " = 0")).unit = ⟨none, [],
        [.define ⟨"x", false, false, some ref⟩ (.literal (.int 0) valueSpan) span]⟩ ∧
      ref.text = t.text ∧ scope.resolve ref = .ok t := by
  have hzero : Reads ['0'] [.integer "0"] := .token (n := 0) rfl .nil
  have hvalue : Reads [' ', '=', ' ', '0'] [.mark .equal, .integer "0"] :=
    .blank (.token (n := 0) rfl hzero.blank)
  have htype := h.spells _ _ (by simp [Piece.Delimited]; rfl) hvalue
  have hsource : Reads ("val x: " ++ t.text ++ " = 0").toList (.keyword .val :: .identifier "x" ::
      .mark .colon :: (t.tokens ++ [.mark .equal, .integer "0"])) := by
    have hcolon := Reads.token (c := ':') rfl htype.blank
    have hname := Reads.name (x := "x") rfl (by simp [Piece.Delimited]; rfl) hcolon
    have hval : Reads ('v' :: 'a' :: 'l' :: ' ' :: ("x".toList ++
        ':' :: ' ' :: (t.text.toList ++ [' ', '=', ' ', '0']))) (.keyword .val :: .identifier "x" ::
        .mark .colon :: (t.tokens ++ [.mark .equal, .integer "0"])) :=
      .token (n := 2) rfl hname.blank
    simpa using hval
  obtain ⟨node, ⟨ref, valueSpan, span, href, rfl⟩, hunit, herrors⟩ :=
    Parse.sourceUnit_of_statement (Parse.Cursor.ahead_start hsource 0) rfl (by simp)
      (Parse.finds_val hplain h (Parse.Cursor.ahead_start hsource 0))
  exact ⟨ref, valueSpan, span, herrors, hunit, href.text, href.resolve⟩

/-- A parameter `T` and two variant types, one of which has a parameter and a case. -/
def optionScope : TypeScope where
  generics := ["T"]
  lookup name :=
    if name = "Option" then some (.generic ⟨"std", "option"⟩ "Option" ["A"])
    else if name = "Color" then some (.generic ⟨"app", "main"⟩ "Color" [])
    else none
  hasCase head case := head.name = "Option" && case = "Some"

theorem written_type_resolves_nested :
    let option (case : Option String) (t : Ty) : Ty :=
      .variant ⟨⟨"std", "option"⟩, "Option", ["A"], case⟩ [t]
    let color : Ty := .variant ⟨⟨"app", "main"⟩, "Color", [], none⟩ []
    let t : Ty := .function (.mk
      [.array (option (some "Some") (.param "T")), .function (.mk [] .unit)]
      (option none (.function (.mk [color] .any))))
    optionScope.Plain ∧ t.Writable optionScope ∧
      ∃ ref valueSpan span,
        (Parsed.ofSource
          "val x: (array[Option[T].Some], () -> unit) -> Option[(Color) -> any] = 0").unit =
          ⟨none, [], [.define ⟨"x", false, false, some ref⟩ (.literal (.int 0) valueSpan) span]⟩ ∧
        optionScope.resolve ref = .ok t := by
  intro option color t
  have hplain : optionScope.Plain := ⟨fun p => by cases p <;> decide, by decide⟩
  have hoption {case : Option String} {u : Ty} (hu : u.Writable optionScope)
      (hcase : ∀ x ∈ case, x = "Some") : (option case u).Writable optionScope := by
    have hname : Piece.isName "Option" = true := by rfl
    have hfree : "Option" ∉ optionScope.generics := by decide
    refine .variant hname hfree (by rfl) (by rfl) (by simpa using hu) ?_
    intro x hx
    rw [hcase x hx]
    exact ⟨by rfl, by rfl⟩
  have hcolor : color.Writable optionScope :=
    .variant (by rfl) (by decide) (by rfl) (by rfl) (by simp) (by simp)
  have hfirst : (Ty.array (option (some "Some") (.param "T"))).Writable optionScope :=
    .array (hoption (.param (by rfl) (by decide)) (by simp))
  have hsecond : (Ty.function (.mk [] .unit)).Writable optionScope :=
    .function (by simp [Signature.params]) (.primitive .unit)
  have hret : (option none (.function (.mk [color] .any))).Writable optionScope :=
    hoption (.function (by simpa [Signature.params] using hcolor) (.primitive .any)) (by simp)
  have ht : t.Writable optionScope :=
    .function (by simpa [Signature.params] using ⟨hfirst, hsecond⟩) hret
  obtain ⟨ref, valueSpan, span, _, hunit, _, hresolve⟩ := written_type_resolves hplain ht
  have htext : "val x: " ++ t.text ++ " = 0" =
      "val x: (array[Option[T].Some], () -> unit) -> Option[(Color) -> any] = 0" := by
    decide +kernel
  rw [htext] at hunit
  exact ⟨hplain, ht, ref, valueSpan, span, hunit, hresolve⟩

end Tern
