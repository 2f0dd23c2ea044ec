import Tern.Parse
import Tern.Proofs.Span
import Tern.Proofs.Parse.Progress

/-!
Where the parts of a unit lie. Every part that the parser reads has a place in the text, and the
place of a part is inside the place of what it is a part of, also in the holes of strings. Errors
have places in the text as well, whatever state they leave the parser in.
-/

set_option autoImplicit false

namespace Tern

/-! The places of a tree -/

/-- The type and its parts lie in the text inside of a span. -/
inductive TypeRef.Lies (text : List Char) : Span → TypeRef → Prop
  | named {outer span : Span} {name : String} (h : span.In text outer) :
      Lies text outer (.named name span)
  | function {outer span : Span} {params : List TypeRef} {ret : TypeRef} (h : span.In text outer)
      (hparams : ∀ p ∈ params, Lies text span p) (hret : Lies text span ret) :
      Lies text outer (.function params ret span)
  | applied {outer span : Span} {base : TypeRef} {args : List TypeRef} (h : span.In text outer)
      (hbase : Lies text span base) (hargs : ∀ a ∈ args, Lies text span a) :
      Lies text outer (.applied base args span)
  | selected {outer span : Span} {base : TypeRef} {case : String} (h : span.In text outer)
      (hbase : Lies text span base) : Lies text outer (.selected base case span)

structure Param.Lies (text : List Char) (outer : Span) (p : Param) : Prop where
  span : p.span.In text outer
  type : p.type.Lies text p.span

structure FieldDecl.Lies (text : List Char) (outer : Span) (f : FieldDecl) : Prop where
  span : f.span.In text outer
  type : f.type.Lies text f.span

structure CaseDecl.Lies (text : List Char) (outer : Span) (c : CaseDecl) : Prop where
  span : c.span.In text outer
  fields : ∀ f ∈ c.fields, f.Lies text c.span

structure FunctionHead.Lies (text : List Char) (outer : Span) (head : FunctionHead) : Prop where
  params : ∀ p ∈ head.params, p.Lies text outer
  returnType : ∀ r ∈ head.returnType, r.Lies text outer

/-- The node and its parts lie in the text inside of a span, and a name is what is written there. -/
inductive Node.Lies (text : List Char) : Span → Node → Prop
  | literal {outer span : Span} {value : Literal} (h : span.In text outer) :
      Lies text outer (.literal value span)
  | interpolation {outer span : Span} {parts : List Part} (h : span.In text outer)
      (hparts : ∀ n, Part.expr n ∈ parts → Lies text span n) :
      Lies text outer (.interpolation parts span)
  | name {outer span : Span} {x : String} (h : span.In text outer)
      (hreads : span.Reads text x.toList) : Lies text outer (.name x span)
  | qualified {outer nameSpan span : Span} {path : PackagePath} {x : String} (h : span.In text outer)
      (hname : nameSpan.In text span) : Lies text outer (.qualified path x nameSpan span)
  | define {outer span : Span} {head : VariableHead} {value : Node} (h : span.In text outer)
      (htype : ∀ r ∈ head.type, r.Lies text span) (hvalue : Lies text span value) :
      Lies text outer (.define head value span)
  | function {outer span : Span} {head : FunctionHead} {body : List Node} (h : span.In text outer)
      (hhead : head.Lies text span) (hbody : ∀ n ∈ body, Lies text span n) :
      Lies text outer (.function head body span)
  | data {outer span : Span} {decl : DataDecl} (h : span.In text outer)
      (hcases : ∀ c ∈ decl.cases, c.Lies text span) : Lies text outer (.data decl span)
  | lambda {outer span : Span} {params : List Param} {ret : Option TypeRef} {body : List Node}
      (h : span.In text outer) (hparams : ∀ p ∈ params, p.Lies text span)
      (hret : ∀ r ∈ ret, r.Lies text span) (hbody : ∀ n ∈ body, Lies text span n) :
      Lies text outer (.lambda params ret body span)
  | block {outer span : Span} {body : List Node} (h : span.In text outer)
      (hbody : ∀ n ∈ body, Lies text span n) : Lies text outer (.block body span)
  | call {outer span : Span} {callee : Node} {args : List Node} (h : span.In text outer)
      (hcallee : Lies text span callee) (hargs : ∀ n ∈ args, Lies text span n) :
      Lies text outer (.call callee args span)
  | member {outer memberSpan span : Span} {receiver : Node} {x : String} (h : span.In text outer)
      (hreceiver : Lies text span receiver) (hmember : memberSpan.In text span) :
      Lies text outer (.member receiver x memberSpan span)
  | index {outer span : Span} {receiver i : Node} (h : span.In text outer)
      (hreceiver : Lies text span receiver) (hindex : Lies text span i) :
      Lies text outer (.index receiver i span)
  | assign {outer nameSpan span : Span} {x : String} {value : Node} (h : span.In text outer)
      (hname : nameSpan.In text span) (hvalue : Lies text span value) :
      Lies text outer (.assign x nameSpan value span)
  | assignIndex {outer span : Span} {receiver i value : Node} (h : span.In text outer)
      (hreceiver : Lies text span receiver) (hindex : Lies text span i)
      (hvalue : Lies text span value) : Lies text outer (.assignIndex receiver i value span)
  | binary {outer span : Span} {op : BinaryOp} {left right : Node} (h : span.In text outer)
      (hleft : Lies text span left) (hright : Lies text span right) :
      Lies text outer (.binary op left right span)
  | unary {outer span : Span} {op : UnaryOp} {operand : Node} (h : span.In text outer)
      (hoperand : Lies text span operand) : Lies text outer (.unary op operand span)
  | branch {outer span : Span} {condition thenBranch : Node} {elseBranch : Option Node}
      (h : span.In text outer) (hcondition : Lies text span condition)
      (hthen : Lies text span thenBranch) (helse : ∀ n ∈ elseBranch, Lies text span n) :
      Lies text outer (.branch condition thenBranch elseBranch span)
  | loop {outer span : Span} {condition body : Node} (h : span.In text outer)
      (hcondition : Lies text span condition) (hbody : Lies text span body) :
      Lies text outer (.loop condition body span)
  | ret {outer span : Span} {value : Option Node} (h : span.In text outer)
      (hvalue : ∀ n ∈ value, Lies text span n) : Lies text outer (.ret value span)
  | test {outer span : Span} {value : Node} {case : String} (h : span.In text outer)
      (hvalue : Lies text span value) : Lies text outer (.test value case span)
  | array {outer span : Span} {elements : List Node} (h : span.In text outer)
      (helements : ∀ n ∈ elements, Lies text span n) : Lies text outer (.array elements span)

structure ImportDecl.Lies (text : List Char) (d : ImportDecl) : Prop where
  span : d.span.Fits text
  entries : ∀ e ∈ d.entries, e.span.In text d.span

/-- All places of a unit are in the text. -/
structure SourceUnit.Lies (text : List Char) (u : SourceUnit) : Prop where
  package : ∀ d ∈ u.package, d.span.Fits text
  imports : ∀ d ∈ u.imports, d.Lies text
  items : ∀ n ∈ u.items, n.Lies text ⟨0, byteLength text⟩

variable {text : List Char} {outer outer' : Span}

theorem TypeRef.Lies.span {r : TypeRef} (h : r.Lies text outer) : r.span.In text outer := by
  cases h <;> assumption

/-- Only the place of the whole depends on what is around. -/
theorem TypeRef.Lies.inside {r : TypeRef} (h : r.Lies text outer) (hs : r.span.In text outer') :
    r.Lies text outer' := by
  cases h with
  | named => exact .named hs
  | function _ hparams hret => exact .function hs hparams hret
  | applied _ hbase hargs => exact .applied hs hbase hargs
  | selected _ hbase => exact .selected hs hbase

theorem Node.Lies.span {n : Node} (h : n.Lies text outer) : n.span.In text outer := by
  cases h <;> assumption

/-- Only the place of the whole depends on what is around. -/
theorem Node.Lies.inside {n : Node} (h : n.Lies text outer) (hs : n.span.In text outer') :
    n.Lies text outer' := by
  cases h with
  | literal => exact .literal hs
  | interpolation _ hparts => exact .interpolation hs hparts
  | name _ hreads => exact .name hs hreads
  | qualified _ hname => exact .qualified hs hname
  | define _ htype hvalue => exact .define hs htype hvalue
  | function _ hhead hbody => exact .function hs hhead hbody
  | data _ hcases => exact .data hs hcases
  | lambda _ hparams hret hbody => exact .lambda hs hparams hret hbody
  | block _ hbody => exact .block hs hbody
  | call _ hcallee hargs => exact .call hs hcallee hargs
  | member _ hreceiver hmember => exact .member hs hreceiver hmember
  | index _ hreceiver hindex => exact .index hs hreceiver hindex
  | assign _ hname hvalue => exact .assign hs hname hvalue
  | assignIndex _ hreceiver hindex hvalue => exact .assignIndex hs hreceiver hindex hvalue
  | binary _ hleft hright => exact .binary hs hleft hright
  | unary _ hoperand => exact .unary hs hoperand
  | branch _ hcondition hthen helse => exact .branch hs hcondition hthen helse
  | loop _ hcondition hbody => exact .loop hs hcondition hbody
  | ret _ hvalue => exact .ret hs hvalue
  | test _ hvalue => exact .test hs hvalue
  | array _ helements => exact .array hs helements

/-- What has the property between two places also has it between two that are further apart. -/
def Widens {α : Type} (P : Nat → Nat → α → Prop) : Prop :=
  ∀ ⦃lo lo' hi hi' : Nat⦄ ⦃a : α⦄, P lo hi a → lo' ≤ lo → hi ≤ hi' → P lo' hi' a

theorem widens_in : Widens fun lo hi (s : Span) => s.In text ⟨lo, hi⟩ :=
  fun _ _ _ _ _ h hlo hhi => h.mono hlo hhi

theorem TypeRef.widens : Widens fun lo hi (r : TypeRef) => r.Lies text ⟨lo, hi⟩ :=
  fun _ _ _ _ _ h hlo hhi => h.inside (widens_in h.span hlo hhi)

theorem Param.widens : Widens fun lo hi (p : Param) => p.Lies text ⟨lo, hi⟩ :=
  fun _ _ _ _ _ h hlo hhi => ⟨widens_in h.span hlo hhi, h.type⟩

theorem FieldDecl.widens : Widens fun lo hi (f : FieldDecl) => f.Lies text ⟨lo, hi⟩ :=
  fun _ _ _ _ _ h hlo hhi => ⟨widens_in h.span hlo hhi, h.type⟩

theorem CaseDecl.widens : Widens fun lo hi (c : CaseDecl) => c.Lies text ⟨lo, hi⟩ :=
  fun _ _ _ _ _ h hlo hhi => ⟨widens_in h.span hlo hhi, h.fields⟩

theorem Node.widens : Widens fun lo hi (n : Node) => n.Lies text ⟨lo, hi⟩ :=
  fun _ _ _ _ _ h hlo hhi => h.inside (widens_in h.span hlo hhi)

theorem Span.In.start_le {s : Span} {lo hi : Nat} (h : s.In text ⟨lo, hi⟩) : s.start ≤ hi :=
  Nat.le_trans h.fits.ordered h.stop

theorem Widens.forall_mem {α : Type} {P : Nat → Nat → α → Prop} (h : Widens P) :
    Widens fun lo hi (as : List α) => ∀ a ∈ as, P lo hi a :=
  fun _ _ _ _ _ has hlo hhi a ha => h (has a ha) hlo hhi

/-- What lies between the ends of a span lies in the span. -/
theorem Widens.spanFrom {α : Type} {P : Nat → Nat → α → Prop} (hP : Widens P) {lo hi : Nat} {a : α}
    {s : Span} {c : Parse.Cursor} (h : P lo hi a) (hlo : s.start ≤ lo) (hhi : hi ≤ c.lastStop) :
    P (c.spanFrom s).start (c.spanFrom s).stop a :=
  hP h hlo (Nat.le_trans hhi (Nat.le_max_left _ _))

namespace Parse

/-! Places in the list of tokens -/

namespace Cursor

/-- The tokens that are left stand in the text after the last one read, and the errors have places
in the text. -/
structure Sits (text : List Char) (c : Cursor) : Prop where
  tokens : Lexeme.AllStand text c.lastStop c.textStop c.rest
  last : Boundary text c.lastStop
  final : Boundary text c.textStop
  errors : ∀ e ∈ c.errors, e.span.Fits text

theorem sits_start {code : List Char} {offset : Nat} (h : Occurs text offset code) :
    (start code offset).Sits text where
  tokens := (Scan.stands_read code offset false h).1
  last := h.boundary
  final := h.boundary_stop
  errors := by
    intro e he
    obtain ⟨s, hs, rfl⟩ := List.mem_map.mp he
    exact (Scan.stands_read code offset false h).2 s hs

variable {c : Cursor}

theorem Sits.reportAll (h : c.Sits text) {es : List ParseError}
    (hes : ∀ e ∈ es, e.span.Fits text) : (c.reportAll es).Sits text where
  tokens := h.tokens
  last := h.last
  final := h.final
  errors := by
    intro e he
    rcases List.mem_append.mp he with he | he
    · exact h.errors e he
    · exact hes e he

theorem Sits.report (h : c.Sits text) {e : ParseError} (he : e.span.Fits text) :
    (c.report e).Sits text := by
  have hes : ∀ x ∈ [e], x.span.Fits text := by simpa using he
  exact h.reportAll hes

theorem Sits.fits_textStop (h : c.Sits text) :
    (⟨c.textStop, c.textStop⟩ : Span).Fits text :=
  Span.fits_of_boundaries (Nat.le_refl _) h.final h.final

theorem Sits.reportExpected (h : c.Sits text) (what : String) :
    (c.reportExpected what).Sits text := by
  apply h.report
  have htokens := h.tokens
  have hend := h.fits_textStop
  cases hr : c.rest with
  | nil => exact hend
  | cons l ls =>
    rw [hr] at htokens
    exact htokens.2.1.reads.fits

theorem Sits.advance (h : c.Sits text) : c.advance.Sits text := by
  obtain ⟨rest, lastStop, textStop, errors⟩ := c
  cases rest with
  | nil => exact h
  | cons l ls =>
    obtain ⟨_, hl, htokens⟩ := h.tokens
    exact ⟨htokens, hl.reads.fits.stop, h.final, h.errors⟩

theorem Sits.le_advance (h : c.Sits text) : c.lastStop ≤ c.advance.lastStop := by
  obtain ⟨rest, lastStop, textStop, errors⟩ := c
  cases rest with
  | nil => exact Nat.le_refl _
  | cons l ls =>
    obtain ⟨hstart, hl, _⟩ := h.tokens
    exact Nat.le_trans hstart hl.reads.fits.ordered

theorem Sits.fits_currentSpan (h : c.Sits text) : c.currentSpan.Fits text := by
  have hend := h.fits_textStop
  have htokens := h.tokens
  cases hr : c.rest with
  | nil => simpa [currentSpan, hr] using hend
  | cons l ls =>
    rw [hr] at htokens
    simpa [currentSpan, hr] using htokens.2.1.reads.fits

theorem Sits.le_currentSpan (h : c.Sits text) : c.lastStop ≤ c.currentSpan.start := by
  have htokens := h.tokens
  cases hr : c.rest with
  | nil =>
    rw [hr] at htokens
    have hle := htokens.le
    simpa [currentSpan, hr] using hle
  | cons l ls =>
    rw [hr] at htokens
    simpa [currentSpan, hr] using htokens.1

theorem Sits.currentSpan_in (h : c.Sits text) :
    c.currentSpan.In text ⟨c.lastStop, c.currentSpan.stop⟩ :=
  ⟨h.fits_currentSpan, h.le_currentSpan, Nat.le_refl _⟩

theorem Sits.le_currentSpan_stop (h : c.Sits text) : c.lastStop ≤ c.currentSpan.stop :=
  Nat.le_trans h.le_currentSpan h.fits_currentSpan.ordered

theorem lastStop_advance (hpos : 0 < c.weight) : c.advance.lastStop = c.currentSpan.stop := by
  obtain ⟨rest, lastStop, textStop, errors⟩ := c
  cases rest with
  | nil => simp [weight, Lexeme.totalSize] at hpos
  | cons l ls => rfl

theorem Sits.reads_of_peek? (h : c.Sits text) {t : Token} (ht : c.peek? = some t) :
    c.currentSpan.Reads text t.text.toList ∧
      ∀ raw, t = .string raw → raw.toList.head? = some '"' := by
  have htokens := h.tokens
  cases hr : c.rest with
  | nil => simp [peek?, hr] at ht
  | cons l ls =>
    rw [hr] at htokens
    obtain rfl : l.token = t := by simpa [peek?, hr] using ht
    have hl := htokens.2.1
    exact ⟨by simpa [currentSpan, hr] using hl.reads, hl.quoted⟩

theorem Sits.of_eat? (h : c.Sits text) {d : Cursor} {t : Token} {hd : d.weight < c.weight}
    (he : c.eat? t = some ⟨d, hd⟩) : d.Sits text ∧ d.lastStop = c.currentSpan.stop := by
  unfold eat? at he
  split at he
  · rename_i hat
    cases he
    exact ⟨h.advance, lastStop_advance (weight_pos_of_isAt hat)⟩
  · cases he

theorem Sits.of_skip (h : c.Sits text) {d : Cursor} {t : Token} {b : Bool}
    {hd : d.weight ≤ c.weight} (he : c.skip t = (b, ⟨d, hd⟩)) :
    d.Sits text ∧ c.lastStop ≤ d.lastStop ∧ c.currentSpan.stop ≤ d.currentSpan.stop := by
  unfold skip at he
  split at he
  · rename_i hat
    cases he
    refine ⟨h.advance, h.le_advance, ?_⟩
    rw [← lastStop_advance (weight_pos_of_isAt hat)]
    exact h.advance.le_currentSpan_stop
  · cases he
    exact ⟨h, Nat.le_refl _, Nat.le_refl _⟩

theorem Sits.skipWhile (h : c.Sits text) (p : Lexeme → Bool) :
    (c.skipWhile p).val.Sits text ∧ c.lastStop ≤ (c.skipWhile p).val.lastStop := by
  fun_induction Cursor.skipWhile p c with
  | case1 c hr => exact ⟨h, Nat.le_refl _⟩
  | case2 c l ls hr hp hlt d ih =>
    obtain ⟨hd, hle⟩ := ih h.advance
    exact ⟨hd, Nat.le_trans h.le_advance hle⟩
  | case3 c l ls hr hp => exact ⟨h, Nat.le_refl _⟩

theorem Sits.separators (h : c.Sits text) :
    c.separators.val.Sits text ∧ c.lastStop ≤ c.separators.val.lastStop :=
  h.skipWhile _

theorem Sits.toSafePlace (h : c.Sits text) :
    c.toSafePlace.val.Sits text ∧ c.lastStop ≤ c.toSafePlace.val.lastStop :=
  h.skipWhile _

/-- A span from the start of what was read before to the last token read. -/
theorem Sits.spanFrom_in (h : c.Sits text) {s : Span} {lo hi : Nat} (hs : s.In text ⟨lo, hi⟩)
    (hle : hi ≤ c.lastStop) : (c.spanFrom s).In text ⟨lo, c.lastStop⟩ := by
  have hstop : s.stop ≤ c.lastStop := Nat.le_trans hs.stop hle
  rw [spanFrom, Nat.max_eq_left hstop]
  exact ⟨Span.fits_of_boundaries (Nat.le_trans hs.fits.ordered hstop) hs.fits.start h.last,
    hs.start, Nat.le_refl _⟩

end Cursor

/-! What was read and where -/

namespace Outcome

variable {α β : Type} {k : Nat} {c : Cursor}

/-- Reading did not go back, and what it found has the property for the place reached. -/
structure Keeps (text : List Char) (r : Outcome k c α) (P : Nat → α → Prop) : Prop where
  sits : r.cursor.Sits text
  le : c.lastStop ≤ r.cursor.lastStop
  value : ∀ a ∈ r.value, P r.cursor.lastStop a

variable {P : Nat → α → Prop} {Q : Nat → β → Prop}

theorem keeps_fail {d : Cursor} {h : d.weight ≤ c.weight} (hd : d.Sits text)
    (hle : c.lastStop ≤ d.lastStop) : (fail d h : Outcome k c α).Keeps text P :=
  ⟨hd, hle, by simp [fail]⟩

theorem keeps_done {a : α} (hc : c.Sits text) (ha : P c.lastStop a) :
    (done a : Outcome 0 c α).Keeps text P :=
  ⟨hc, Nat.le_refl _, by simpa [done] using ha⟩

theorem keeps_found {a : α} {d : Cursor} {h : d.weight < c.weight} (hd : d.Sits text)
    (hle : c.lastStop ≤ d.lastStop) (ha : P d.lastStop a) : (found a d h).Keeps text P :=
  ⟨hd, hle, by simpa [found] using ha⟩

theorem Keeps.relax {r : Outcome 1 c α} (h : r.Keeps text P) : r.relax.Keeps text P :=
  ⟨h.sits, h.le, h.value⟩

theorem Keeps.map {r : Outcome k c α} (h : r.Keeps text P) {f : α → β}
    (hf : ∀ hi a, P hi a → Q hi (f a)) : (r.map f).Keeps text Q where
  sits := h.sits
  le := h.le
  value := by
    intro b hb
    obtain ⟨a, ha, rfl⟩ := Option.map_eq_some_iff.mp hb
    exact hf _ a (h.value a ha)

theorem Keeps.weaken {d : Cursor} {r : Outcome k d α} (h : r.Keeps text P)
    (hle : c.lastStop ≤ d.lastStop) {hw : d.weight ≤ c.weight} : (r.weaken hw).Keeps text P :=
  ⟨h.sits, Nat.le_trans hle h.le, h.value⟩

theorem Keeps.andThen {r : Outcome 1 c α}
    {f : α → (d : Cursor) → d.weight < c.weight → Outcome 0 d β} (h : r.Keeps text P)
    (hf : ∀ a d hd, d.Sits text → c.lastStop ≤ d.lastStop → P d.lastStop a →
      (f a d hd).Keeps text Q) : (r.andThen f).Keeps text Q := by
  obtain ⟨value, d, hle, hc⟩ := r
  cases value with
  | none => exact ⟨h.sits, h.le, by simp [Outcome.andThen, fail]⟩
  | some a =>
    have hs := hf a d (hc rfl) h.sits h.le (h.value a rfl)
    exact ⟨hs.sits, Nat.le_trans h.le hs.le, hs.value⟩

theorem Keeps.thenMaybe {r : Outcome 0 c α}
    {f : α → (d : Cursor) → d.weight ≤ c.weight → Outcome 0 d β} (h : r.Keeps text P)
    (hf : ∀ a d hd, d.Sits text → c.lastStop ≤ d.lastStop → P d.lastStop a →
      (f a d hd).Keeps text Q) : (r.thenMaybe f).Keeps text Q := by
  obtain ⟨value, d, hle, hc⟩ := r
  cases value with
  | none => exact ⟨h.sits, h.le, by simp [Outcome.thenMaybe, fail]⟩
  | some a =>
    have hs := hf a d hle h.sits h.le (h.value a rfl)
    exact ⟨hs.sits, Nat.le_trans h.le hs.le, hs.value⟩

/-- What was found before, in front of what was found next. -/
theorem Keeps.cons {P : Nat → Nat → α → Prop} (hP : Widens P) {r : Outcome k c (List α)}
    (hr : r.Keeps text fun hi as => ∀ a ∈ as, P c.lastStop hi a) {lo hi : Nat} {a : α}
    (ha : P lo hi a) (hlo : lo ≤ c.lastStop) (hhi : hi ≤ c.lastStop) :
    (r.map (a :: ·)).Keeps text fun hi as => ∀ a ∈ as, P lo hi a where
  sits := hr.sits
  le := hr.le
  value := by
    intro as has b hb
    obtain ⟨more, hmore, rfl⟩ := Option.map_eq_some_iff.mp has
    rcases List.mem_cons.mp hb with rfl | hb
    · exact hP ha (Nat.le_refl _) (Nat.le_trans hhi hr.le)
    · exact hP (hr.value more hmore b hb) hlo (Nat.le_refl _)

end Outcome

open Outcome

namespace Cursor

variable {α : Type} {c : Cursor}

theorem keeps_expect (hc : c.Sits text) (t : Token) :
    (c.expect t).Keeps text fun hi s => s = c.currentSpan ∧ hi = c.currentSpan.stop := by
  unfold expect
  split
  · rename_i hat
    exact keeps_found hc.advance hc.le_advance ⟨rfl, lastStop_advance (weight_pos_of_isAt hat)⟩
  · exact keeps_fail (hc.reportExpected _) (Nat.le_refl _)

theorem keeps_expectName (hc : c.Sits text) (what : String) :
    (c.expectName what).Keeps text fun hi x =>
      x.2 = c.currentSpan ∧ hi = c.currentSpan.stop := by
  unfold expectName
  split
  · rename_i name hpeek
    exact keeps_found hc.advance hc.le_advance ⟨rfl, lastStop_advance (weight_pos_of_peek? hpeek)⟩
  · exact keeps_fail (hc.reportExpected _) (Nat.le_refl _)

theorem keeps_commaList {P : Nat → Nat → α → Prop} (hP : Widens P) (close : Mark)
    (hc : c.Sits text) (item : (d : Cursor) → d.weight ≤ c.weight → Outcome 1 d α)
    (h : ∀ d hd, d.Sits text → (item d hd).Keeps text (P d.lastStop)) :
    (commaList close c item).Keeps text fun hi as => ∀ a ∈ as, P c.lastStop hi a := by
  fun_induction commaList close c item with
  | case1 c item hclose => exact (keeps_expect hc _).map (by simp)
  | case2 c item hclose ih =>
    apply (h c (Nat.le_refl _) hc).andThen
    intro a d hd hsits hle ha
    split
    · apply Keeps.relax
      refine ⟨(keeps_expect hsits _).sits, (keeps_expect hsits _).le, ?_⟩
      intro as has b hb
      obtain ⟨_, _, rfl⟩ := Option.map_eq_some_iff.mp has
      obtain rfl := List.mem_singleton.mp hb
      exact hP ha (Nat.le_refl _) (keeps_expect hsits _).le
    · rename_i e he heq
      obtain ⟨hsits', hstop⟩ := hsits.of_eat? heq
      have hde : d.lastStop ≤ e.lastStop := hstop ▸ hsits.le_currentSpan_stop
      have hmore := ih d hd e he hsits' fun f hf => h f _
      apply Keeps.weaken ?_ hde
      exact (hmore.cons hP ha (Nat.le_trans hle hde) hde).relax

/-- What one statement leaves behind, read or passed over. -/
theorem sits_statement (hpos : 0 < c.weight) {r : Outcome 1 c α} {P : Nat → α → Prop}
    (hr : r.Keeps text P) : (c.statement hpos r).2.val.Sits text ∧
      r.cursor.lastStop ≤ (c.statement hpos r).2.val.lastStop := by
  obtain ⟨value, d, hle, hd⟩ := r
  have hsits : d.Sits text := hr.sits
  cases value with
  | some a => exact hsits.separators
  | none =>
    simp only [Cursor.statement]
    have hmoved : ∀ e : Cursor, e.Sits text → d.lastStop ≤ e.lastStop →
        (e.toSafePlace.val.separators).val.Sits text ∧
          d.lastStop ≤ (e.toSafePlace.val.separators).val.lastStop := by
      intro e he hle
      obtain ⟨hsafe, hle'⟩ := he.toSafePlace
      obtain ⟨hnext, hle''⟩ := hsafe.separators
      exact ⟨hnext, Nat.le_trans hle (Nat.le_trans hle' hle'')⟩
    apply hmoved
    · split
      · exact hsits
      · exact hsits.advance
    · split
      · exact Nat.le_refl _
      · exact hsits.le_advance

theorem sits_statements {P : Nat → Nat → α → Prop} (hP : Widens P) (hc : c.Sits text)
    (item : (d : Cursor) → d.weight ≤ c.weight → Outcome 1 d α)
    (h : ∀ d hd, d.Sits text → (item d hd).Keeps text (P d.lastStop)) :
    (c.statements item).2.val.Sits text ∧ c.lastStop ≤ (c.statements item).2.val.lastStop ∧
      ∀ a ∈ (c.statements item).1, P c.lastStop (c.statements item).2.val.lastStop a := by
  fun_induction Cursor.statements c item with
  | case1 c item hend => exact ⟨hc, Nat.le_refl _, by simp⟩
  | case2 c item hend hpos a? d hd hs more ih =>
    have hitem := h c (Nat.le_refl _) hc
    have hfirst := sits_statement hpos hitem
    have hvalue := statement_fst hpos (item c (Nat.le_refl _))
    rw [hs] at hfirst hvalue
    obtain ⟨hsits, hle⟩ := hfirst
    obtain ⟨hmore, hle', hmem⟩ := ih hsits fun f hf => h f _
    have hcd := Nat.le_trans hitem.le hle
    refine ⟨hmore, Nat.le_trans hcd hle', ?_⟩
    intro a ha
    rcases List.mem_append.mp ha with ha | ha
    · have hfound := hitem.value a (by rw [← hvalue]; simpa using ha)
      exact hP hfound (Nat.le_refl _) (Nat.le_trans hle hle')
    · exact hP (hmem a ha) hcd (Nat.le_refl _)

end Cursor

open Cursor

/-! Types -/

variable {c : Cursor}

theorem keeps_selectedCase {start : Span} {type : TypeRef} {lo : Nat} (hc : c.Sits text)
    (hstart : start.In text ⟨lo, c.lastStop⟩) (htype : type.Lies text ⟨start.start, c.lastStop⟩) :
    (selectedCase start type c).Keeps text fun hi r => r.Lies text ⟨lo, hi⟩ := by
  unfold selectedCase
  split
  · exact keeps_done hc (TypeRef.widens htype hstart.start (Nat.le_refl _))
  · rename_i d hd heq
    obtain ⟨hd, hstop⟩ := hc.of_eat? heq
    have := hc.le_currentSpan_stop
    apply Keeps.weaken ?_ (by omega)
    apply Keeps.relax
    apply (keeps_expectName hd _).andThen
    rintro ⟨case, _⟩ e _ he hde _
    apply keeps_done he
    exact .selected (he.spanFrom_in hstart (by omega))
      (TypeRef.widens.spanFrom htype (Nat.le_refl _) (by omega))

theorem keeps_typeRef {c : Cursor} (hc : c.Sits text) :
    (typeRef c).Keeps text fun hi r => r.Lies text ⟨c.lastStop, hi⟩ := by
  have hspan := hc.currentSpan_in
  have hle := hc.le_currentSpan_stop
  rw [typeRef]
  dsimp only
  split
  · rename_i d hd heq
    obtain ⟨hd, hstop⟩ := hc.of_eat? heq
    rw [← hstop] at hspan hle
    have := hspan.start_le
    apply Keeps.weaken ?_ hle
    apply (keeps_commaList TypeRef.widens _ hd _ fun e _ he => keeps_typeRef he).andThen
    intro params e _ he hde hparams
    apply Keeps.relax
    apply (keeps_expect he _).andThen
    intro _ f _ hf hef _
    apply (keeps_typeRef hf).relax.thenMaybe
    intro ret g _ hg hfg hret
    apply keeps_done hg
    exact .function (hg.spanFrom_in hspan (by omega))
      (TypeRef.widens.forall_mem.spanFrom hparams (by omega) (by omega))
      (TypeRef.widens.spanFrom hret (by omega) (by omega))
  · apply (keeps_expectName hc _).andThen
    rintro ⟨name, span⟩ d _ hd _ ⟨rfl, hstop⟩
    rw [← hstop] at hspan hle
    have hbase : (TypeRef.named name c.currentSpan).Lies text ⟨c.currentSpan.start, d.lastStop⟩ :=
      .named ⟨hspan.fits, Nat.le_refl _, hspan.stop⟩
    dsimp only
    split
    · exact keeps_selectedCase hd hspan hbase
    · split
      · exact keeps_selectedCase hd hspan hbase
      · rename_i e he heq
        obtain ⟨he, hstop'⟩ := hd.of_eat? heq
        have := hd.le_currentSpan_stop
        have := hspan.start_le
        apply Keeps.weaken ?_ (by omega)
        apply (keeps_commaList TypeRef.widens _ he _ fun f _ hf => keeps_typeRef hf).relax.thenMaybe
        intro args f _ hf hef hargs
        have hdf : d.lastStop ≤ f.lastStop := by omega
        have hstart : c.currentSpan.In text ⟨c.currentSpan.start, d.lastStop⟩ :=
          ⟨hspan.fits, Nat.le_refl _, hspan.stop⟩
        apply keeps_selectedCase hf (widens_in hspan (Nat.le_refl _) hdf)
        exact .applied (hf.spanFrom_in hstart hdf)
          (TypeRef.widens.spanFrom hbase (Nat.le_refl _) (by omega))
          (TypeRef.widens.forall_mem.spanFrom hargs (by omega) (by omega))
termination_by c.weight
decreasing_by all_goals omega

theorem keeps_typeAfterColon (hc : c.Sits text) :
    (typeAfterColon c).Keeps text fun hi r => ∀ t ∈ r, t.Lies text ⟨c.lastStop, hi⟩ := by
  unfold typeAfterColon
  split
  · exact keeps_done hc (by simp)
  · rename_i d hd heq
    obtain ⟨hd, hstop⟩ := hc.of_eat? heq
    have hle : c.lastStop ≤ d.lastStop := hstop ▸ hc.le_currentSpan_stop
    apply Keeps.weaken ?_ hle
    apply Keeps.relax
    apply (keeps_typeRef hd).map
    intro hi r hr t ht
    obtain rfl := Option.some.inj ht
    exact TypeRef.widens hr hle (Nat.le_refl _)

theorem keeps_typeParams (hc : c.Sits text) :
    (typeParams c).Keeps text fun _ _ => True := by
  unfold typeParams
  split
  · exact keeps_done hc trivial
  · rename_i d hd heq
    obtain ⟨hd, hstop⟩ := hc.of_eat? heq
    apply Keeps.weaken ?_ (hstop ▸ hc.le_currentSpan_stop)
    apply Keeps.relax
    have hlist := keeps_commaList (P := fun _ _ _ => True) (fun _ _ _ _ _ _ _ _ => trivial)
      .rightBracket hd (fun e _ => (e.expectName "type parameter").map (·.1))
      fun e _ he => (keeps_expectName he _).map fun _ _ _ => trivial
    exact ⟨hlist.sits, hlist.le, fun _ _ => trivial⟩

theorem keeps_param (hc : c.Sits text) :
    (param c).Keeps text fun hi p => p.Lies text ⟨c.lastStop, hi⟩ := by
  have hspan := hc.currentSpan_in
  apply (keeps_expectName hc _).andThen
  rintro ⟨name, span⟩ d _ hd hcd ⟨rfl, hstop⟩
  rw [← hstop] at hspan
  have := hspan.start_le
  apply Keeps.relax
  apply (keeps_expect hd _).andThen
  intro _ e _ he hde _
  apply (keeps_typeRef he).relax.thenMaybe
  intro type f _ hf hef htype
  apply keeps_done hf
  exact ⟨hf.spanFrom_in hspan (by omega), TypeRef.widens.spanFrom htype (by omega) (by omega)⟩

theorem keeps_params (hc : c.Sits text) :
    (params c).Keeps text fun hi ps => ∀ p ∈ ps, p.Lies text ⟨c.lastStop, hi⟩ := by
  apply (keeps_expect hc _).andThen
  intro _ d _ hd hcd _
  apply Keeps.relax
  have hlist := keeps_commaList Param.widens .rightParen hd _ fun e _ he => keeps_param he
  exact ⟨hlist.sits, hlist.le, fun ps hps => Param.widens.forall_mem (hlist.value ps hps) hcd
    (Nat.le_refl _)⟩

theorem keeps_caseField (hc : c.Sits text) :
    (caseField c).Keeps text fun hi f => f.Lies text ⟨c.lastStop, hi⟩ := by
  have hspan := hc.currentSpan_in
  unfold caseField
  split
  rename_i isPublic d hd heq
  obtain ⟨hd, hcd, hstop⟩ := hc.of_skip heq
  apply Keeps.weaken ?_ hcd
  apply (keeps_expectName hd _).andThen
  rintro ⟨name, _⟩ e _ he hde ⟨_, hstop'⟩
  rw [← hstop'] at hstop
  have hstart := widens_in hspan (Nat.le_refl _) hstop
  have := hstart.start_le
  apply Keeps.relax
  apply (keeps_expect he _).andThen
  intro _ f _ hf hef _
  apply (keeps_typeRef hf).relax.thenMaybe
  intro type g _ hg hfg htype
  apply keeps_done hg
  exact ⟨hg.spanFrom_in hstart (by omega), TypeRef.widens.spanFrom htype (by omega) (by omega)⟩

theorem keeps_caseDecl (hc : c.Sits text) :
    (caseDecl c).Keeps text fun hi d => d.Lies text ⟨c.lastStop, hi⟩ := by
  have hspan := hc.currentSpan_in
  unfold caseDecl
  split
  rename_i isPublic d hd heq
  obtain ⟨hd, hcd, hstop⟩ := hc.of_skip heq
  apply Keeps.weaken ?_ hcd
  apply (keeps_expectName hd _).andThen
  rintro ⟨name, _⟩ e _ he hde ⟨_, hstop'⟩
  rw [← hstop'] at hstop
  have hstart := widens_in hspan (Nat.le_refl _) hstop
  have := hstart.start_le
  dsimp only
  split
  · exact keeps_done he ⟨he.spanFrom_in hstart (Nat.le_refl _), by simp⟩
  · rename_i f hf hparen
    obtain ⟨hf, hef⟩ := he.of_eat? hparen
    have := he.le_currentSpan_stop
    apply Keeps.weaken ?_ (by omega)
    apply (keeps_commaList FieldDecl.widens _ hf _ fun g _ hg => keeps_caseField hg).relax.thenMaybe
    intro fields g _ hg hfg hfields
    apply keeps_done hg
    exact ⟨hg.spanFrom_in hstart (by omega),
      FieldDecl.widens.forall_mem.spanFrom hfields (by omega) (by omega)⟩

theorem keeps_caseDecls {c : Cursor} (hc : c.Sits text) :
    (caseDecls c).Keeps text fun hi ds => ∀ d ∈ ds, d.Lies text ⟨c.lastStop, hi⟩ := by
  rw [caseDecls]
  apply (keeps_caseDecl hc).andThen
  intro first d _ hd hcd hfirst
  split
  · exact keeps_done hd (by simpa using hfirst)
  · rename_i e he heq
    obtain ⟨he, hstop⟩ := hd.of_eat? heq
    have hde : d.lastStop ≤ e.lastStop := hstop ▸ hd.le_currentSpan_stop
    apply Keeps.weaken ?_ hde
    exact ((keeps_caseDecls he).cons CaseDecl.widens hfirst (by omega) hde).relax
termination_by c.weight
decreasing_by all_goals omega

theorem keeps_dataDecl {start : Span} {lo : Nat} (isPublic : Bool) (hc : c.Sits text)
    (hstart : start.In text ⟨lo, c.currentSpan.stop⟩) :
    (dataDecl isPublic start c).Keeps text fun hi n => n.Lies text ⟨lo, hi⟩ := by
  apply (keeps_expect hc _).andThen
  rintro _ d _ hd hcd ⟨_, hstop⟩
  rw [← hstop] at hstart
  have := hstart.start_le
  apply Keeps.relax
  apply (keeps_expectName hd _).andThen
  rintro ⟨name, _⟩ e _ he hde _
  apply (keeps_typeParams he).thenMaybe
  intro typeParams f _ hf hef _
  apply Keeps.relax
  apply (keeps_expect hf _).andThen
  intro _ g _ hg hfg _
  apply (keeps_caseDecls hg).relax.thenMaybe
  intro cases i _ hi hgi hcases
  apply keeps_done hi
  exact .data (hi.spanFrom_in hstart (by omega))
    (CaseDecl.widens.forall_mem.spanFrom hcases (by omega) (by omega))

/-! Expressions -/

theorem Cursor.Sits.of_operator? (hc : c.Sits text) {l : Level} {d : Cursor} {op : BinaryOp}
    {h : d.weight < c.weight} (he : operator? l c = some (op, ⟨d, h⟩)) :
    d.Sits text ∧ c.lastStop ≤ d.lastStop := by
  unfold operator? at he
  split at he
  · cases he
  · split at he
    · obtain ⟨_, _, heq⟩ := Option.map_eq_some_iff.mp he
      cases heq
      exact ⟨hc.advance, hc.le_advance⟩
    · cases he

theorem Cursor.Sits.of_signOperator? (hc : c.Sits text) {d : Cursor} {op : UnaryOp}
    {h : d.weight < c.weight} (he : signOperator? c = some (op, ⟨d, h⟩)) :
    d.Sits text ∧ d.lastStop = c.currentSpan.stop := by
  unfold signOperator? at he
  split at he
  · rename_i heq
    cases he
    exact hc.of_eat? heq
  · rename_i heq
    cases he
    exact hc.of_eat? heq
  · cases he

/-- A path from its first to its last token. -/
theorem Cursor.Sits.of_qualifiedName? (hc : c.Sits text) {d : Cursor} {node : Node}
    {h : d.weight < c.weight} (he : qualifiedName? c = some (node, ⟨d, h⟩)) :
    d.Sits text ∧ c.lastStop ≤ d.lastStop ∧ node.Lies text ⟨c.lastStop, d.lastStop⟩ := by
  have htokens := hc.tokens
  unfold qualifiedName? at he
  split at he
  · rename_i m s₁ _ s₂ _ p s₃ _ s₄ _ n s₅ _ rest hrest
    split at he
    · cases he
      rw [hrest] at htokens
      obtain ⟨h₁, hm, h₂, hslash, h₃, hp, h₄, hdot, h₅, hn, hafter⟩ := htokens
      have : s₁.start ≤ s₁.stop := hm.reads.fits.ordered
      have : s₂.start ≤ s₂.stop := hslash.reads.fits.ordered
      have : s₃.start ≤ s₃.stop := hp.reads.fits.ordered
      have : s₄.start ≤ s₄.stop := hdot.reads.fits.ordered
      have : s₅.start ≤ s₅.stop := hn.reads.fits.ordered
      simp only at h₁ h₂ h₃ h₄ h₅
      have hle : c.lastStop ≤ s₅.stop := by omega
      have hfirst : s₁.In text ⟨c.lastStop, s₅.stop⟩ := ⟨hm.reads.fits, h₁, by simp only; omega⟩
      have hlast : s₅.In text ⟨c.lastStop, s₅.stop⟩ :=
        ⟨hn.reads.fits, by simp only; omega, Nat.le_refl _⟩
      exact ⟨⟨hafter, hn.reads.fits.stop, hc.final, hc.errors⟩, hle,
        .qualified (hfirst.join hlast) (hlast.fits.in_join_right s₁)⟩
    · cases he
  · cases he

/-- What is read for a hole has its place there, and errors have one somewhere. -/
def HoleLies (text : List Char) (outer : Span) (r : Option Node × List ParseError) : Prop :=
  (∀ n ∈ r.1, n.Lies text outer) ∧ ∀ e ∈ r.2, e.span.Fits text

theorem lies_fill {outer : Span} {n : Nat}
    (run : (code : List Char) → Nat → code.length < n → Option Node × List ParseError)
    (holes : List (String × Hole)) (h : ∀ x ∈ holes, x.2.size < n)
    (hholes : ∀ x ∈ holes, x.2.Stands text outer)
    (hrun : ∀ code offset hlt, (Hole.code code offset).Stands text outer →
      HoleLies text outer (run code offset hlt)) :
    (∀ n, Part.expr n ∈ (fill run holes h).1 → n.Lies text outer) ∧
      ∀ e ∈ (fill run holes h).2, e.span.Fits text := by
  induction holes with
  | nil => exact ⟨by simp [fill], by simp [fill]⟩
  | cons x rest ih =>
    obtain ⟨before, hole⟩ := x
    obtain ⟨hparts, herrors⟩ := ih (fun x hx => h x (List.mem_cons_of_mem _ hx))
      fun x hx => hholes x (List.mem_cons_of_mem _ hx)
    have hhole := hholes _ List.mem_cons_self
    have htext : ∀ n, Part.expr n ∉ (if before.isEmpty then [] else [Part.text before]) := by
      intro n
      split <;> simp
    cases hole with
    | name name span =>
      refine ⟨?_, herrors⟩
      intro n hn
      simp only [fill, List.mem_append, List.mem_cons, Part.expr.injEq] at hn
      rcases hn with hn | rfl | hn
      · exact absurd hn (htext n)
      · exact .name ⟨hhole.reads.fits, hhole.start, hhole.stop⟩ hhole.reads
      · exact hparts n hn
    | code code offset =>
      obtain ⟨hnode, hnested⟩ := hrun code offset (h _ List.mem_cons_self) hhole
      constructor
      · intro n hn
        simp only [fill, List.mem_append, Option.mem_toList] at hn
        rcases hn with (hn | hn) | hn
        · exact absurd hn (htext n)
        · obtain ⟨m, hm, heq⟩ := Option.map_eq_some_iff.mp hn
          obtain rfl := Part.expr.inj heq
          exact hnode m hm
        · exact hparts n hn
      · intro e he
        simp only [fill, List.mem_append] at he
        rcases he with he | he
        · exact hnested e he
        · exact herrors e he

theorem lies_readHole {outer : Span} {code : List Char} {offset : Nat}
    (hstands : (Hole.code code offset).Stands text outer)
    (h : (binary .or (start code offset)).Keeps text fun hi n => n.Lies text ⟨offset, hi⟩) :
    HoleLies text outer (readHole code offset) := by
  constructor
  · intro n hn
    have hend : (binary .or (start code offset)).cursor.textStop = offset + byteLength code :=
      (sound_binary .or (start code offset)).advances.textStop
    have hle := h.sits.tokens.le
    rw [hend] at hle
    exact Node.widens (h.value n hn) hstands.start (Nat.le_trans hle hstands.stop)
  · intro e he
    simp only [readHole] at he
    split at he
    · exact (h.sits.reportExpected _).errors e he
    · exact h.sits.errors e he

theorem lies_stringNode {outer span : Span} {parts : List Part} (hspan : span.In text outer)
    (hparts : ∀ n, Part.expr n ∈ parts → n.Lies text span) (tail : String) :
    (stringNode span parts tail).Lies text outer := by
  unfold stringNode
  split
  · exact .literal hspan
  · apply Node.Lies.interpolation hspan
    intro n hn
    split at hn
    · exact hparts n hn
    · rcases List.mem_append.mp hn with hn | hn
      · exact hparts n hn
      · simp at hn

theorem lies_assignTo? {target value node : Node} {lo hi : Nat} (h : assignTo? target value = some node)
    (htarget : target.Lies text ⟨lo, hi⟩) (hvalue : value.Lies text ⟨lo, hi⟩) :
    node.Lies text ⟨lo, hi⟩ := by
  have hspan := htarget.span.join hvalue.span
  have hright := hvalue.inside (hvalue.span.fits.in_join_right target.span)
  have hleft := htarget.span.fits.in_join_left value.span
  unfold assignTo? at h
  split at h
  · cases h
    exact .assign hspan hleft hright
  · cases h
    cases htarget with
    | index h hreceiver hindex =>
      exact .assignIndex hspan (hreceiver.inside (hreceiver.span.trans hleft))
        (hindex.inside (hindex.span.trans hleft)) hright
  · cases h

mutual

theorem keeps_statement {c : Cursor} (hc : c.Sits text) :
    (statement c).Keeps text fun hi n => n.Lies text ⟨c.lastStop, hi⟩ := by
  have hspan := hc.currentSpan_in
  unfold statement
  split
  rename_i isPublic d hd heq
  obtain ⟨hd, hcd, hstop⟩ := hc.of_skip heq
  have hstart := widens_in hspan (Nat.le_refl _) hstop
  apply Keeps.weaken ?_ hcd
  split
  · exact keeps_functionDecl isPublic hd hstart
  · exact keeps_variableDecl isPublic false _ hd hstart
  · exact keeps_variableDecl isPublic true _ hd hstart
  · exact keeps_dataDecl isPublic hd hstart
  · split
    · exact keeps_fail (hd.reportExpected _) (Nat.le_refl _)
    · have hexpr := keeps_assignment hd
      exact ⟨hexpr.sits, hexpr.le, fun n hn => Node.widens (hexpr.value n hn) hcd (Nat.le_refl _)⟩
termination_by 32 * c.weight + 25
decreasing_by all_goals omega

theorem keeps_functionDecl {c : Cursor} {start : Span} {lo : Nat} (isPublic : Bool)
    (hc : c.Sits text) (hstart : start.In text ⟨lo, c.currentSpan.stop⟩) :
    (functionDecl isPublic start c).Keeps text fun hi n => n.Lies text ⟨lo, hi⟩ := by
  rw [functionDecl]
  apply (keeps_expect hc _).andThen
  rintro _ d _ hd hcd ⟨_, hstop⟩
  rw [← hstop] at hstart
  have := hstart.start_le
  apply Keeps.relax
  apply (keeps_expectName hd _).andThen
  rintro ⟨name, _⟩ e _ he hde _
  apply (keeps_typeParams he).thenMaybe
  intro typeParams f _ hf hef _
  apply Keeps.relax
  apply (keeps_params hf).andThen
  intro params g _ hg hfg hparams
  apply (keeps_typeAfterColon hg).thenMaybe
  intro returnType i _ hi hgi hreturn
  apply (keeps_blockBody hi).relax.thenMaybe
  rintro ⟨body, span⟩ j _ hj hij ⟨hspan, hbody⟩
  apply keeps_done hj
  refine .function (hj.spanFrom_in hstart (by omega)) ⟨?_, ?_⟩ ?_
  · exact Param.widens.forall_mem.spanFrom hparams (by omega) (by omega)
  · exact fun r hr => TypeRef.widens.spanFrom (hreturn r hr) (by omega) (by omega)
  · intro n hn
    exact (hbody n hn).inside
      (widens_in.spanFrom ((hbody n hn).span.trans hspan) (by omega) (by omega))
termination_by 32 * c.weight + 24
decreasing_by all_goals omega

theorem keeps_variableDecl {c : Cursor} {start : Span} {lo : Nat} (isPublic isMutable : Bool)
    (word : Token) (hc : c.Sits text) (hstart : start.In text ⟨lo, c.currentSpan.stop⟩) :
    (variableDecl isPublic isMutable start word c).Keeps text fun hi n =>
      n.Lies text ⟨lo, hi⟩ := by
  rw [variableDecl]
  apply (keeps_expect hc _).andThen
  rintro _ d _ hd hcd ⟨_, hstop⟩
  rw [← hstop] at hstart
  have := hstart.start_le
  apply Keeps.relax
  apply (keeps_expectName hd _).andThen
  rintro ⟨name, _⟩ e _ he hde _
  apply (keeps_typeAfterColon he).thenMaybe
  intro type f _ hf hef htype
  apply Keeps.relax
  apply (keeps_expect hf _).andThen
  intro _ g _ hg hfg _
  apply (keeps_binary .or hg).relax.thenMaybe
  intro value i _ hi hgi hvalue
  apply keeps_done hi
  exact .define (hi.spanFrom_in hstart (by omega))
    (fun r hr => TypeRef.widens.spanFrom (htype r hr) (by omega) (by omega))
    (Node.widens.spanFrom hvalue (by omega) (by omega))
termination_by 32 * c.weight + 24
decreasing_by all_goals (try simp only [Level.height]); all_goals omega

theorem keeps_assignment {c : Cursor} (hc : c.Sits text) :
    (assignment c).Keeps text fun hi n => n.Lies text ⟨c.lastStop, hi⟩ := by
  rw [assignment]
  apply (keeps_binary .or hc).andThen
  intro target d _ hd hcd htarget
  split
  · exact keeps_done hd htarget
  · rename_i e he heq
    obtain ⟨he, hstop⟩ := hd.of_eat? heq
    have hde : d.lastStop ≤ e.lastStop := hstop ▸ hd.le_currentSpan_stop
    apply Keeps.weaken ?_ hde
    apply (keeps_assignment he).relax.thenMaybe
    intro value f _ hf hef hvalue
    split
    · rename_i node hnode
      apply keeps_done hf
      exact lies_assignTo? hnode (Node.widens htarget (Nat.le_refl _) (by omega))
        (Node.widens hvalue (by omega) (Nat.le_refl _))
    · exact keeps_fail (hf.report htarget.span.fits) (Nat.le_refl _)
termination_by 32 * c.weight + 22
decreasing_by all_goals (try simp only [Level.height]); all_goals omega

theorem keeps_binary {c : Cursor} (l : Level) (hc : c.Sits text) :
    (binary l c).Keeps text fun hi n => n.Lies text ⟨c.lastStop, hi⟩ := by
  rw [binary]
  apply (keeps_operand l hc).andThen
  intro left d _ hd _ hleft
  exact keeps_binaryTail l hd hleft
termination_by 32 * c.weight + 6 + 3 * l.height
decreasing_by all_goals omega

theorem keeps_binaryTail {c : Cursor} {left : Node} {lo : Nat} (l : Level) (hc : c.Sits text)
    (hleft : left.Lies text ⟨lo, c.lastStop⟩) :
    (binaryTail l left c).Keeps text fun hi n => n.Lies text ⟨lo, hi⟩ := by
  rw [binaryTail]
  split
  · exact keeps_done hc hleft
  · rename_i op d hlt heq
    have := l.height_le
    have : lo ≤ left.span.start := hleft.span.start
    have := hleft.span.start_le
    obtain ⟨hd, hcd⟩ := hc.of_operator? heq
    apply Keeps.weaken ?_ hcd
    apply (keeps_operand l hd).relax.thenMaybe
    intro right e _ he hde hright
    apply keeps_binaryTail l he
    have hwide := Node.widens hleft (Nat.le_refl _) (show c.lastStop ≤ e.lastStop by omega)
    have hnext := Node.widens hright (show lo ≤ d.lastStop by omega) (Nat.le_refl _)
    exact .binary (hwide.span.join hnext.span) (hleft.inside (hleft.span.fits.in_join_left _))
      (hright.inside (hright.span.fits.in_join_right _))
termination_by 32 * c.weight
decreasing_by all_goals omega

theorem keeps_operand {c : Cursor} (l : Level) (hc : c.Sits text) :
    (operand l c).Keeps text fun hi n => n.Lies text ⟨c.lastStop, hi⟩ := by
  cases l with
  | or => rw [operand]; exact keeps_binary .and hc
  | and => rw [operand]; exact keeps_binary .equality hc
  | equality => rw [operand]; exact keeps_binary .comparison hc
  | comparison => rw [operand]; exact keeps_caseTest hc
  | sum => rw [operand]; exact keeps_binary .product hc
  | product => rw [operand]; exact keeps_unary hc
termination_by 32 * c.weight + 5 + 3 * l.height
decreasing_by all_goals (try simp only [Level.height]); all_goals omega

theorem keeps_caseTest {c : Cursor} (hc : c.Sits text) :
    (caseTest c).Keeps text fun hi n => n.Lies text ⟨c.lastStop, hi⟩ := by
  rw [caseTest]
  apply (keeps_binary .sum hc).andThen
  intro value d _ hd hcd hvalue
  split
  · exact keeps_done hd hvalue
  · split
    · exact keeps_done hd hvalue
    · rename_i e he heq
      obtain ⟨he, hstop⟩ := hd.of_eat? heq
      have hde : d.lastStop ≤ e.lastStop := hstop ▸ hd.le_currentSpan_stop
      have hspan := he.currentSpan_in
      apply Keeps.weaken ?_ hde
      apply Keeps.relax
      apply (keeps_expectName he _).andThen
      rintro ⟨case, caseSpan⟩ f _ hf hef ⟨rfl, hstop'⟩
      rw [← hstop'] at hspan
      apply keeps_done hf
      have hwide := Node.widens hvalue (Nat.le_refl _) (show d.lastStop ≤ f.lastStop by omega)
      have hcase := widens_in hspan (show c.lastStop ≤ e.lastStop by omega) (Nat.le_refl _)
      exact .test (hwide.span.join hcase) (hvalue.inside (hvalue.span.fits.in_join_left _))
termination_by 32 * c.weight + 10
decreasing_by all_goals (try simp only [Level.height]); all_goals omega

theorem keeps_unary {c : Cursor} (hc : c.Sits text) :
    (unary c).Keeps text fun hi n => n.Lies text ⟨c.lastStop, hi⟩ := by
  have hspan := hc.currentSpan_in
  rw [unary]
  split
  · exact keeps_suffixed hc
  · rename_i op d hlt heq
    obtain ⟨hd, hstop⟩ := hc.of_signOperator? heq
    have hcd : c.lastStop ≤ d.lastStop := hstop ▸ hc.le_currentSpan_stop
    apply Keeps.weaken ?_ hcd
    apply (keeps_unary hd).andThen
    intro operand e _ he hde hoperand
    apply keeps_done he
    have hwide := Node.widens hoperand hcd (Nat.le_refl _)
    have hsign := widens_in hspan (Nat.le_refl _) (show c.currentSpan.stop ≤ e.lastStop by omega)
    exact .unary (hsign.join hwide.span) (hoperand.inside (hoperand.span.fits.in_join_right _))
termination_by 32 * c.weight + 4
decreasing_by all_goals omega

theorem keeps_suffixed {c : Cursor} (hc : c.Sits text) :
    (suffixed c).Keeps text fun hi n => n.Lies text ⟨c.lastStop, hi⟩ := by
  rw [suffixed]
  apply (keeps_primary hc).andThen
  intro node d _ hd _ hnode
  exact keeps_suffixTail hd hnode
termination_by 32 * c.weight + 3
decreasing_by all_goals omega

theorem keeps_suffixTail {c : Cursor} {node : Node} {lo : Nat} (hc : c.Sits text)
    (hnode : node.Lies text ⟨lo, c.lastStop⟩) :
    (suffixTail node c).Keeps text fun hi n => n.Lies text ⟨lo, hi⟩ := by
  have hspan := hnode.span
  have hstart := hspan.start_le
  have hle := hc.le_currentSpan_stop
  have hself : node.Lies text ⟨node.span.start, c.lastStop⟩ :=
    hnode.inside ⟨hspan.fits, Nat.le_refl _, hspan.stop⟩
  rw [suffixTail]
  split
  · rename_i d hd heq
    obtain ⟨hd, hstop⟩ := hc.of_eat? heq
    split
    · exact keeps_done hc hnode
    · apply Keeps.weaken ?_ (by omega)
      apply (keeps_commaList Node.widens _ hd _ fun e _ he => keeps_binary .or he).relax.thenMaybe
      intro args e _ he hde hargs
      apply keeps_suffixTail he
      exact .call (he.spanFrom_in hspan (by omega))
        (Node.widens.spanFrom hself (Nat.le_refl _) (by omega))
        (Node.widens.forall_mem.spanFrom hargs (by omega) (by omega))
  · rename_i d hd _ heq
    obtain ⟨hd, hstop⟩ := hc.of_eat? heq
    split
    · exact keeps_done hc hnode
    · apply Keeps.weaken ?_ (by omega)
      apply (keeps_binary .or hd).relax.thenMaybe
      intro index e _ he hde hindex
      apply (keeps_expect he _).relax.thenMaybe
      intro _ f _ hf hef _
      apply keeps_suffixTail hf
      exact .index (hf.spanFrom_in hspan (by omega))
        (Node.widens.spanFrom hself (Nat.le_refl _) (by omega))
        (Node.widens.spanFrom hindex (by omega) (by omega))
  · rename_i d hd _ _ heq
    obtain ⟨hd, hstop⟩ := hc.of_eat? heq
    have hmember := hd.currentSpan_in
    apply Keeps.weaken ?_ (by omega)
    apply (keeps_expectName hd _).relax.thenMaybe
    rintro ⟨member, memberSpan⟩ e _ he hde ⟨rfl, hstop'⟩
    rw [← hstop'] at hmember
    apply keeps_suffixTail he
    have : lo ≤ node.span.start := hspan.start
    have hwide := Node.widens hnode (Nat.le_refl _) (show c.lastStop ≤ e.lastStop by omega)
    have hafter := widens_in hmember (show lo ≤ d.lastStop by omega) (Nat.le_refl _)
    exact .member (hwide.span.join hafter) (hnode.inside (hspan.fits.in_join_left _))
      (hmember.fits.in_join_right _)
  · exact keeps_done hc hnode
termination_by 32 * c.weight
decreasing_by all_goals (try simp only [Level.height]); all_goals omega

theorem keeps_primary {c : Cursor} (hc : c.Sits text) :
    (primary c).Keeps text fun hi n => n.Lies text ⟨c.lastStop, hi⟩ := by
  rw [primary]
  dsimp only
  split
  · exact keeps_fail (hc.reportExpected _) (Nat.le_refl _)
  · rename_i token h
    have hlt : c.advance.weight < c.weight := Cursor.weight_advance_lt (Cursor.weight_pos_of_peek? h)
    have hstop : c.advance.lastStop = c.currentSpan.stop :=
      Cursor.lastStop_advance (Cursor.weight_pos_of_peek? h)
    have hd := hc.advance
    have hle := hc.le_advance
    have hspan := hc.currentSpan_in
    rw [← hstop] at hspan
    have := hspan.start_le
    have hliteral (value : Literal) {hlt : c.advance.weight < c.weight} :
        (found (Node.literal value c.currentSpan) c.advance hlt).Keeps text fun hi n =>
          n.Lies text ⟨c.lastStop, hi⟩ := keeps_found hd hle (.literal hspan)
    obtain ⟨hreads, hquote⟩ := hc.reads_of_peek? h
    split
    · split
      · exact hliteral _
      · exact keeps_found (hd.report hspan.fits) hle (.literal hspan)
    · exact hliteral _
    · rename_i raw hraw
      have hsize : raw.length ≤ c.weight :=
        Nat.le_trans (Nat.le_max_right 1 raw.length) (Cursor.size_le_weight_of_peek? hraw)
      have htemplate := Template.stands_ofToken hreads (hquote raw rfl)
      have hholes (code : List Char) (offset : Nat) (_ : code.length < raw.length)
          (hstands : (Hole.code code offset).Stands text c.currentSpan) :
          HoleLies text c.currentSpan (readHole code offset) :=
        have := weight_start_le code offset
        lies_readHole hstands (keeps_binary .or (sits_start hstands.reads.occurs))
      obtain ⟨hparts, herrors⟩ := lies_fill (fun code offset _ => readHole code offset) _
        (fun _ => Template.size_lt_of_mem_ofToken) htemplate.holes hholes
      apply keeps_found
      · apply hd.reportAll
        intro e he
        rcases List.mem_append.mp he with he | he
        · exact herrors e he
        · obtain ⟨p, hp, rfl⟩ := Option.map_eq_some_iff.mp (Option.mem_toList.mp he)
          exact htemplate.unclosed p hp
      · exact hle
      · exact lies_stringNode hspan hparts _
    · exact hliteral _
    · exact hliteral _
    · split
      · exact hliteral _
      · split
        · rename_i node d hd hq
          obtain ⟨hd, hcd, hnode⟩ := hc.of_qualifiedName? hq
          exact keeps_found hd hcd hnode
        · exact keeps_found hd hle (.name hspan hreads)
    · apply Keeps.weaken ?_ hle
      apply (keeps_binary .or hd).andThen
      intro inner d _ hd hcd hinner
      apply Keeps.relax
      have hclose := keeps_expect hd (.mark .rightParen)
      refine ⟨hclose.sits, hclose.le, ?_⟩
      intro n hn
      obtain ⟨_, _, rfl⟩ := Option.map_eq_some_iff.mp hn
      exact Node.widens hinner hle hclose.le
    · apply (keeps_blockBody hc).map
      rintro hi ⟨body, span⟩ ⟨hspan, hbody⟩
      exact .block hspan hbody
    · apply Keeps.weaken ?_ hle
      apply (keeps_commaList Node.widens _ hd _ fun d _ hd => keeps_binary .or hd).andThen
      intro elements d _ hd hcd helements
      apply keeps_done hd
      exact .array (hd.spanFrom_in hspan (by omega))
        (Node.widens.forall_mem.spanFrom helements (by omega) (by omega))
    · exact keeps_branch hc
    · apply (keeps_expect hc _).andThen
      rintro start d _ hd hcd ⟨rfl, hstart⟩
      apply (keeps_condition hd).thenMaybe
      intro condition e _ he hde hcondition
      apply (keeps_blockBody he).relax.thenMaybe
      rintro ⟨body, bodySpan⟩ f _ hf hef ⟨hbodySpan, hbody⟩
      apply keeps_done hf
      exact .loop (hf.spanFrom_in hspan (by omega))
        (Node.widens.spanFrom hcondition (by omega) (by omega))
        (.block (widens_in.spanFrom hbodySpan (by omega) (by omega)) hbody)
    · apply (keeps_expect hc _).andThen
      rintro start d _ hd hcd ⟨rfl, hstart⟩
      split
      · apply (keeps_binary .or hd).relax.thenMaybe
        intro value e _ he hde hvalue
        apply keeps_done he
        refine .ret (he.spanFrom_in hspan (by omega)) ?_
        intro n hn
        obtain rfl := Option.some.inj hn
        exact Node.widens.spanFrom hvalue (by omega) (by omega)
      · exact keeps_done hd (.ret (hd.spanFrom_in hspan (by omega)) (by simp))
    · apply (keeps_expect hc _).andThen
      rintro start d _ hd hcd ⟨rfl, hstart⟩
      apply Keeps.relax
      apply (keeps_params hd).andThen
      intro params e _ he hde hparams
      apply (keeps_typeAfterColon he).thenMaybe
      intro returnType f _ hf hef hreturn
      apply (keeps_blockBody hf).relax.thenMaybe
      rintro ⟨body, span⟩ g _ hg hfg ⟨hbodySpan, hbody⟩
      apply keeps_done hg
      refine .lambda (hg.spanFrom_in hspan (by omega)) ?_ ?_ ?_
      · exact Param.widens.forall_mem.spanFrom hparams (by omega) (by omega)
      · exact fun r hr => TypeRef.widens.spanFrom (hreturn r hr) (by omega) (by omega)
      · intro n hn
        exact (hbody n hn).inside
          (widens_in.spanFrom ((hbody n hn).span.trans hbodySpan) (by omega) (by omega))
    · exact keeps_fail (hc.reportExpected _) (Nat.le_refl _)
termination_by 32 * c.weight + 2
decreasing_by all_goals (try simp only [Level.height]); all_goals omega

theorem keeps_condition {c : Cursor} (hc : c.Sits text) :
    (condition c).Keeps text fun hi n => n.Lies text ⟨c.lastStop, hi⟩ := by
  rw [condition]
  apply Keeps.relax
  apply (keeps_expect hc _).andThen
  intro _ d _ hd hcd _
  apply (keeps_binary .or hd).relax.thenMaybe
  intro condition e _ he hde hcondition
  apply Keeps.relax
  have hclose := keeps_expect he (.mark .rightParen)
  refine ⟨hclose.sits, hclose.le, ?_⟩
  intro n hn
  obtain ⟨_, _, rfl⟩ := Option.map_eq_some_iff.mp hn
  exact Node.widens hcondition hcd hclose.le
termination_by 32 * c.weight
decreasing_by all_goals (try simp only [Level.height]); all_goals omega

theorem keeps_branch {c : Cursor} (hc : c.Sits text) :
    (branch c).Keeps text fun hi n => n.Lies text ⟨c.lastStop, hi⟩ := by
  have hspan := hc.currentSpan_in
  rw [branch]
  apply (keeps_expect hc _).andThen
  rintro start d _ hd hcd ⟨rfl, hstart⟩
  rw [← hstart] at hspan
  have := hspan.start_le
  apply (keeps_condition hd).thenMaybe
  intro condition e _ he hde hcondition
  apply (keeps_blockBody he).relax.thenMaybe
  rintro ⟨body, bodySpan⟩ f _ hf hef ⟨hbodySpan, hbody⟩
  dsimp only
  have hthen {g : Cursor} (hfg : f.lastStop ≤ g.lastStop) :
      (Node.block body bodySpan).Lies text (g.spanFrom c.currentSpan) :=
    .block (widens_in.spanFrom hbodySpan (by omega) hfg) hbody
  split
  · apply keeps_done hf
    exact .branch (hf.spanFrom_in hspan (by omega))
      (Node.widens.spanFrom hcondition (by omega) (by omega)) (hthen (Nat.le_refl _)) (by simp)
  · rename_i g hg heq
    obtain ⟨hg, hstop⟩ := hf.of_eat? heq
    have hfg : f.lastStop ≤ g.lastStop := hstop ▸ hf.le_currentSpan_stop
    apply Keeps.weaken ?_ hfg
    apply Keeps.thenMaybe (P := fun hi n => n.Lies text ⟨g.lastStop, hi⟩)
    · apply Keeps.relax
      split
      · exact keeps_branch hg
      · apply (keeps_blockBody hg).map
        rintro hi ⟨body, span⟩ ⟨hspan, hbody⟩
        exact .block hspan hbody
    · intro elseBranch i _ hi hgi helse
      apply keeps_done hi
      refine .branch (hi.spanFrom_in hspan (by omega))
        (Node.widens.spanFrom hcondition (by omega) (by omega)) (hthen (by omega)) ?_
      intro n hn
      obtain rfl := Option.some.inj hn
      exact Node.widens.spanFrom helse (by omega) (by omega)
termination_by 32 * c.weight + 1
decreasing_by all_goals omega

theorem keeps_blockBody {c : Cursor} (hc : c.Sits text) :
    (blockBody c).Keeps text fun hi b =>
      b.2.In text ⟨c.lastStop, hi⟩ ∧ ∀ n ∈ b.1, n.Lies text b.2 := by
  have hspan := hc.currentSpan_in
  rw [blockBody]
  apply (keeps_expect hc _).andThen
  rintro start d _ hd hcd ⟨rfl, hstart⟩
  rw [← hstart] at hspan
  have := hspan.start_le
  dsimp only
  obtain ⟨he, hde⟩ := hd.separators
  have hlt := d.separators.property
  obtain ⟨hf, hef, hbody⟩ := Cursor.sits_statements Node.widens he (fun f _ => statement f)
    fun f _ hf => keeps_statement hf
  apply Keeps.weaken ?_ (Nat.le_trans hde hef)
  apply (keeps_expect hf _).relax.thenMaybe
  intro _ g _ hg hfg _
  apply keeps_done hg
  refine ⟨hg.spanFrom_in hspan (by omega), ?_⟩
  exact Node.widens.forall_mem.spanFrom hbody (by omega) hfg
termination_by 32 * c.weight + 1
decreasing_by all_goals omega

end

/-! Units -/

theorem keeps_packagePath (hc : c.Sits text) : (packagePath c).Keeps text fun _ _ => True := by
  apply (keeps_expectName hc _).andThen
  rintro ⟨module, _⟩ d _ hd _ _
  apply Keeps.relax
  apply (keeps_expect hd _).andThen
  intro _ e _ he _ _
  exact ((keeps_expectName he _).map fun _ _ _ => trivial).relax

theorem keeps_packageDecl (hc : c.Sits text) :
    (packageDecl c).Keeps text fun _ d => d.span.Fits text := by
  have hspan := hc.currentSpan_in
  apply (keeps_expect hc _).andThen
  rintro start d _ hd hcd ⟨rfl, hstart⟩
  rw [← hstart] at hspan
  apply (keeps_packagePath hd).relax.thenMaybe
  intro path e _ he hde _
  exact keeps_done he (he.spanFrom_in hspan hde).fits

theorem keeps_nameAfterAs (what : String) (hc : c.Sits text) :
    (nameAfterAs what c).Keeps text fun _ _ => True := by
  unfold nameAfterAs
  split
  · exact keeps_done hc trivial
  · rename_i d hd heq
    obtain ⟨hd, hstop⟩ := hc.of_eat? heq
    apply Keeps.weaken ?_ (hstop ▸ hc.le_currentSpan_stop)
    exact ((keeps_expectName hd _).map fun _ _ _ => trivial).relax

theorem keeps_importEntry (hc : c.Sits text) :
    (importEntry c).Keeps text fun hi e => e.span.In text ⟨c.lastStop, hi⟩ := by
  have hspan := hc.currentSpan_in
  apply (keeps_expectName hc _).andThen
  rintro ⟨name, span⟩ d _ hd hcd ⟨rfl, hstart⟩
  rw [← hstart] at hspan
  apply (keeps_nameAfterAs _ hd).thenMaybe
  intro newName e _ he hde _
  exact keeps_done he (he.spanFrom_in hspan hde)

theorem keeps_importEntries (hc : c.Sits text) :
    (importEntries c).Keeps text fun hi es => ∀ e ∈ es, e.span.In text ⟨c.lastStop, hi⟩ := by
  unfold importEntries
  split
  · exact keeps_done hc (by simp)
  · rename_i d hd heq
    obtain ⟨hd, hstop⟩ := hc.of_eat? heq
    have hcd : c.lastStop ≤ d.lastStop := hstop ▸ hc.le_currentSpan_stop
    have hwidens : Widens fun lo hi (e : ImportEntry) => e.span.In text ⟨lo, hi⟩ :=
      fun _ _ _ _ _ h hlo hhi => widens_in h hlo hhi
    apply Keeps.weaken ?_ hcd
    apply Keeps.relax
    have hlist := keeps_commaList hwidens .rightBrace hd _ fun e _ he => keeps_importEntry he
    exact ⟨hlist.sits, hlist.le, fun es hes =>
      hwidens.forall_mem (hlist.value es hes) hcd (Nat.le_refl _)⟩

theorem keeps_importDecl (hc : c.Sits text) :
    (importDecl c).Keeps text fun _ d => d.Lies text := by
  have hspan := hc.currentSpan_in
  apply (keeps_expect hc _).andThen
  rintro start d _ hd hcd ⟨rfl, hstart⟩
  rw [← hstart] at hspan
  have := hspan.start_le
  apply (keeps_packagePath hd).relax.thenMaybe
  intro path e _ he hde _
  apply (keeps_nameAfterAs _ he).thenMaybe
  intro packageName f _ hf hef _
  apply (keeps_importEntries hf).thenMaybe
  intro entries g _ hg hfg hentries
  apply keeps_done hg
  exact ⟨(hg.spanFrom_in hspan (by omega)).fits,
    fun e he => widens_in.spanFrom (hentries e he) (by omega) (by omega)⟩

theorem sits_importDecls (hc : c.Sits text) :
    (∀ d ∈ (importDecls c).1, d.Lies text) ∧ (importDecls c).2.Sits text := by
  fun_induction importDecls c with
  | case1 c h decl? d hd hs decls e he ih =>
    have hdecl := keeps_importDecl hc
    have hfirst := sits_statement (weight_pos_of_isAt h) hdecl
    have hvalue := statement_fst (weight_pos_of_isAt h) (importDecl c)
    rw [hs] at hfirst hvalue
    rw [he] at ih
    obtain ⟨hdecls, hsits⟩ := ih hfirst.1
    refine ⟨?_, hsits⟩
    intro x hx
    rcases List.mem_append.mp hx with hx | hx
    · exact hdecl.value x (by rw [← hvalue]; simpa using hx)
    · exact hdecls x hx
  | case2 c h => exact ⟨by simp, hc⟩

/-- Items come one after the other, each with a place of its own. -/
theorem sits_items (hc : c.Sits text) :
    (∀ n ∈ (items c).1, n.Lies text ⟨c.lastStop, (items c).2.lastStop⟩) ∧
      (items c).2.Sits text ∧ c.lastStop ≤ (items c).2.lastStop := by
  fun_induction items c with
  | case1 c h => exact ⟨by simp, hc, Nat.le_refl _⟩
  | case2 c h hpos hbrace hlt ih =>
    have hreport := hc.reportExpected "declaration or expression"
    have hle : c.lastStop ≤ _ := hreport.le_advance
    obtain ⟨hitems, hsits, hle'⟩ := ih hreport.advance
    exact ⟨fun n hn => Node.widens (hitems n hn) hle (Nat.le_refl _), hsits, Nat.le_trans hle hle'⟩
  | case3 c h hpos hbrace node? d hd hs nodes e he ih =>
    have hnode := keeps_statement hc
    have hfirst := sits_statement hpos hnode
    have hvalue := statement_fst hpos (statement c)
    rw [hs] at hfirst hvalue
    rw [he] at ih
    obtain ⟨hsits, hle⟩ := hfirst
    obtain ⟨hitems, hlast, hle'⟩ := ih hsits
    have hcd := Nat.le_trans hnode.le hle
    refine ⟨?_, hlast, Nat.le_trans hcd hle'⟩
    intro n hn
    rcases List.mem_append.mp hn with hn | hn
    · have hfound := hnode.value n (by rw [← hvalue]; simpa using hn)
      exact Node.widens hfound (Nat.le_refl _) (Nat.le_trans hle hle')
    · exact Node.widens (hitems n hn) hcd (Nat.le_refl _)

theorem sits_packageLine (hc : c.Sits text) :
    (∀ d ∈ (packageLine c).1, d.span.Fits text) ∧ (packageLine c).2.Sits text := by
  unfold packageLine
  split
  · exact ⟨(keeps_packageDecl hc).value, (keeps_packageDecl hc).sits⟩
  · exact ⟨by simp, hc⟩

theorem sits_sourceUnit (hc : c.Sits text) :
    (sourceUnit c).1.Lies text ∧ (sourceUnit c).2.Sits text := by
  obtain ⟨hpackage, h₁⟩ := sits_packageLine hc
  obtain ⟨himports, h₂⟩ := sits_importDecls h₁.separators.1
  obtain ⟨hitems, h₃, _⟩ := sits_items h₂
  refine ⟨⟨hpackage, himports, ?_⟩, h₃⟩
  intro n hn
  exact Node.widens (hitems n hn) (Nat.zero_le _) h₃.last.le

end Parse

/-- All that is read from a text has a place in it, also what is reported. -/
theorem Parsed.lies_ofSource (source : String) :
    (ofSource source).unit.Lies source.toList ∧
      ∀ e ∈ (ofSource source).errors, e.span.Fits source.toList := by
  obtain ⟨hunit, hsits⟩ :=
    Parse.sits_sourceUnit (Parse.Cursor.sits_start (Occurs.self source.toList))
  exact ⟨hunit, hsits.errors⟩

end Tern
