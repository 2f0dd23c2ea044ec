import Tern.Proofs.Code
import Tern.Proofs.Compile
import Tern.Proofs.Parse.Placement

/-!
Lowered code is closed. While an item is checked, the scopes around the current place are covered by
the frames of the code that becomes of it: a function's scope by a frame of its own, and blocks by the
frame of the function around them.
-/

set_option autoImplicit false

namespace Tern

namespace Code

variable {ns : Namespace} {frames : List Frame}

/-- Codes one after the other, each of them closed after those before it. -/
def AllClosed (ns : Namespace) (frames : List Frame) (codes : List Code) : Prop :=
  ∀ before k after, codes = before ++ k :: after →
    Closed ns (Frame.declare (fun x => ∃ b ∈ before, b.Declares x) frames) k

theorem closed_value (v : Literal) (span : Span) : Closed ns frames (.value v span) := by
  refine .intro (by simp [storage?]) ?_
  intro before k after h
  simp [children] at h

theorem allClosed_of_closed {codes : List Code} (h : ∀ k ∈ codes, Closed ns frames k) :
    AllClosed ns frames codes := by
  rintro before k after rfl
  exact (h k (by simp)).mono (Frame.le_declare _ _)

theorem AllClosed.append {cs ds : List Code} (h : AllClosed ns frames cs)
    (k : AllClosed ns (Frame.declare (fun x => ∃ c ∈ cs, c.Declares x) frames) ds) :
    AllClosed ns frames (cs ++ ds) := by
  intro before d after heq
  rcases List.append_eq_append_iff.mp heq with ⟨mid, rfl, hds⟩ | ⟨mid, rfl, hds⟩
  · refine (k mid d after hds).mono (Frame.declare_declare_le ?_)
    intro x hx
    simp only [List.mem_append]
    rcases hx with ⟨b, hb, hx⟩ | ⟨b, hb, hx⟩
    · exact ⟨b, Or.inl hb, hx⟩
    · exact ⟨b, Or.inr hb, hx⟩
  · cases mid with
    | nil =>
      refine (k [] d after (by simpa using hds.symm)).mono (Frame.declare_declare_le ?_)
      intro x hx
      simpa using hx
    | cons d' mid =>
      obtain ⟨rfl, _⟩ := List.cons.inj hds
      exact h before d mid rfl

end Code

/-! Frames around a scope -/

/-- The frames fit the scopes on the way outwards: a function has a frame of its own with its
parameters, and the names of a block are declared in the frame of its function. -/
inductive ScopeTree.Covers (t : ScopeTree) : List Nat → List Frame → Prop
  | item (f : Frame) : Covers t [] [f]
  | function {s : Nat} {scope : Scope} {rest : List Nat} {f : Frame} {fs : List Frame}
      (hs : t.scope? s = some scope) (hk : scope.kind = .function)
      (hp : scope.parameters = f.params) (hd : ∀ x, scope.Declares x → x ∈ f.params)
      (h : Covers t rest fs) : Covers t (s :: rest) (f :: fs)
  | block {s : Nat} {scope : Scope} {rest : List Nat} {f : Frame} {fs : List Frame}
      (hs : t.scope? s = some scope) (hk : scope.kind ≠ .function)
      (hd : ∀ x, scope.Declares x → f.declared x) (h : Covers t rest (f :: fs)) :
      Covers t (s :: rest) (f :: fs)

namespace ScopeTree

variable {t t' : ScopeTree} {chain : List Nat} {frames : List Frame}

theorem isFunction_eq_true {s : Nat} {scope : Scope} (hs : t.scope? s = some scope) :
    t.isFunction s = true ↔ scope.kind = .function := by
  simp [isFunction, kind?, hs]

theorem Covers.length_pos (h : t.Covers chain frames) : 0 < frames.length := by
  cases h <;> simp

theorem Covers.congr (h : t.Covers chain frames) (ht : ∀ s ∈ chain, t'.scope? s = t.scope? s) :
    t'.Covers chain frames := by
  induction h with
  | item f => exact .item f
  | function hs hk hp hd _ ih =>
    have hs' := (ht _ List.mem_cons_self).trans hs
    exact .function hs' hk hp hd (ih fun s hm => ht s (List.mem_cons_of_mem _ hm))
  | block hs hk hd _ ih =>
    have hs' := (ht _ List.mem_cons_self).trans hs
    exact .block hs' hk hd (ih fun s hm => ht s (List.mem_cons_of_mem _ hm))

theorem Covers.extends (h : t.Covers chain frames) (ht : t.Extends t') : t'.Covers chain frames := by
  induction h with
  | item f => exact .item f
  | function hs hk hp hd _ ih => exact .function (ht _ _ hs) hk hp hd ih
  | block hs hk hd _ ih => exact .block (ht _ _ hs) hk hd ih

theorem Covers.le {gs : List Frame} (h : t.Covers chain frames) (hle : Frame.Le frames gs) :
    t.Covers chain gs := by
  induction h generalizing gs with
  | item f =>
    cases hle with
    | cons hp hd h =>
      cases h
      exact .item _
  | function hs hk hp hd _ ih =>
    cases hle with
    | cons hp' _ hle => exact .function hs hk (hp.trans hp'.symm) (fun x hx => hp' ▸ hd x hx) (ih hle)
  | block hs hk hd _ ih =>
    cases hle with
    | cons hp' hd' hle =>
      exact .block hs hk (fun x hx => hd' x (hd x hx)) (ih (.cons hp' hd' hle))

theorem exists_ancestors_eq {id : Nat} (h : id < t.size) : ∃ rest, t.ancestors id = id :: rest := by
  obtain ⟨s, hs⟩ := exists_scope? h
  exact ⟨_, ancestors_eq t hs⟩

/-- A name that is declared in the innermost block. -/
theorem Covers.addSymbol {id : Nat} (h : t.Covers (t.ancestors id) frames) (hlt : id < t.size)
    (hid : t.isFunction id = false) (s : Symbol) :
    (t.addSymbol id s).Covers (t.ancestors id) (Frame.declare (· = s.name) frames) := by
  have hsorted := t.ancestors_sorted id
  obtain ⟨rest, hrest⟩ := exists_ancestors_eq hlt
  rw [hrest] at h hsorted ⊢
  cases h with
  | function hs hk => simp [(isFunction_eq_true hs).mpr hk] at hid
  | @block _ scope _ f fs hs hk hd h =>
    have hs' : (t.addSymbol id s).scope? id = some { scope with symbols := s.declare scope.symbols } := by
      rw [addSymbol, scope?_modify_self, hs]
      rfl
    refine .block hs' hk ?_ ?_
    · intro x hx
      rw [Scope.Declares, Symbol.find?_declare_iff] at hx
      rcases hx with rfl | hx
      · exact Or.inr rfl
      · exact Or.inl (hd x hx)
    · refine (h.congr fun r hr => ?_).le (Frame.le_declare _ _)
      have := (List.pairwise_cons.mp hsorted).1 r hr
      exact scope?_modify_of_ne t _ (by omega)

/-- Where a name is found that a scope on the way outwards declares. -/
theorem Covers.found {d n : Nat} {x : String} (h : t.Covers chain frames)
    (hb : t.boundaries? d chain = some n) (hd : t.Declares d x) :
    ∃ f, frames[n]? = some f ∧
      ((t.isFunction d = true ∧ n + 1 < frames.length ∧ x ∈ f.params ∧
          ∃ scope, t.scope? d = some scope ∧ scope.parameters = f.params) ∨
        (t.isFunction d = false ∧ f.declared x)) := by
  obtain ⟨sd, hsd, hx⟩ := hd
  induction h generalizing n with
  | item f => simp [boundaries?] at hb
  | @function s scope rest f fs hs hk hp hd h ih =>
    have hfun := (isFunction_eq_true hs).mpr hk
    rw [boundaries?] at hb
    split at hb
    · rename_i hsd'
      subst hsd'
      cases hb
      obtain rfl : scope = sd := Option.some.inj (hs.symm.trans hsd)
      have := h.length_pos
      refine ⟨f, rfl, Or.inl ⟨hfun, ?_, hd x hx, scope, hs, hp⟩⟩
      simp only [List.length_cons]
      omega
    · obtain ⟨m, hm, rfl⟩ := Option.map_eq_some_iff.mp hb
      obtain ⟨g, hg, hcase⟩ := ih hm
      refine ⟨g, by simpa using hg, hcase.imp_left ?_⟩
      rintro ⟨hf, hlt, hrest⟩
      exact ⟨hf, by simpa using hlt, hrest⟩
  | @block s scope rest f fs hs hk hd h ih =>
    have hfun : t.isFunction s = false := by
      simpa using mt (isFunction_eq_true hs).mp hk
    rw [boundaries?] at hb
    split at hb
    · rename_i hsd'
      subst hsd'
      cases hb
      obtain rfl : scope = sd := Option.some.inj (hs.symm.trans hsd)
      exact ⟨f, rfl, Or.inr ⟨hfun, hd x hx⟩⟩
    · obtain ⟨m, hm, rfl⟩ := Option.map_eq_some_iff.mp hb
      simp only [hfun]
      exact ih hm

theorem Refines.boundaries?_eq (h : t.Refines t') {d : Nat} (hlt : ∀ s ∈ chain, s < t.size) :
    t'.boundaries? d chain = t.boundaries? d chain := by
  induction chain with
  | nil => rfl
  | cons s rest ih =>
    rw [boundaries?, boundaries?, ih fun r hr => hlt r (List.mem_cons_of_mem s hr),
      h.isFunction_eq (hlt s List.mem_cons_self)]

end ScopeTree

namespace Storage

variable {t t' : ScopeTree} {a : Access}

theorem classify_eq (h : t.Refines t') (ha : a.Inside t) : classify t' a = classify t a := by
  unfold classify
  split
  · rfl
  · rename_i d x ht
    have hd := ha d x ht
    have hlt := ScopeTree.lt_size_of_mem_ancestors hd
    have hchain (s : Nat) (hs : s ∈ t.ancestors a.scope) : s < t.size := by
      have := ScopeTree.le_of_mem_ancestors hs
      omega
    rw [h.ancestors_eq hlt, h.boundaries?_eq hchain, h.isFunction_eq (hchain d hd),
      h.parameterIndex?_eq (hchain d hd)]

/-- A use of a variable finds it in the frames around. -/
theorem foundIn_of_classify {ns : Namespace} {frames : List Frame} {s : Storage}
    (hcov : t.Covers (t.ancestors a.scope) frames)
    (hnested : ∀ d x, a.target = .nested d x → t.Declares d x)
    (hpackage : ∀ path x, a.target = .package path x → (ns.symbol? path x).isSome)
    (h : classify t a = .ok s) : s.FoundIn ns frames := by
  unfold classify at h
  split at h
  · rename_i path x ht
    cases h
    exact hpackage path x ht
  · rename_i d x ht
    have hdecl := hnested d x ht
    split at h
    · simp at h
    · rename_i n hn
      cases h
      obtain ⟨f, hf, hcase⟩ := hcov.found hn hdecl
      refine ⟨Nat.succ_le_succ (Nat.zero_le n), f, hf, ?_⟩
      exact hcase.imp (fun h => h.2.2.1) (fun h => h.2)
    · rename_i hn
      obtain ⟨f, hf, hcase⟩ := hcov.found hn hdecl
      rcases hcase with ⟨hfun, hlen, hx, scope, hs, hp⟩ | ⟨hfun, hx⟩
      · rw [if_pos hfun] at h
        -- a name of a function's own scope is one of its parameters
        obtain ⟨i, hi⟩ := ScopeTree.exists_lastIndexOf? (hp ▸ hx)
        have hi' : t.parameterIndex? d x = some i := by
          simp [ScopeTree.parameterIndex?, hs, hi]
        rw [hi'] at h
        cases h
        refine ⟨hlen, f, hf, ?_⟩
        have hget := ScopeTree.getElem?_lastIndexOf? hi
        rw [← hp]
        exact (List.getElem?_eq_some_iff.mp hget).1
      · rw [if_neg (by simp [hfun])] at h
        cases h
        exact ⟨f, hf, hx⟩

end Storage

/-! The code of an expression -/

namespace Expr

variable {p : Program} {g : Nat → Code} {e : Expr} {code : Code}

theorem mapM_ok (g : Nat → Code) (ids : List Nat) :
    ids.mapM (fun i => Except.ok (g i)) = (.ok (ids.map g) : Except LowerFault (List Code)) :=
  List.mapM_pure

/-- Simple expressions open no frame, and their code is made of the codes of their parts and of
text. -/
theorem code_of_lower (h : e.lower p (fun i => .ok (g i)) = .ok code) (he : e.IsSimple) :
    (∀ frames, code.enter frames = frames) ∧
    (∀ k ∈ code.children, (∃ i ∈ e.parts, k = g i) ∨ ∃ v span, k = .value v span) ∧
    (∀ s, code.storage? = some s → ∃ a, e.access? = some a ∧ Storage.classify p.scopes a = .ok s) := by
  cases e with
  | defineLocal scope x m v s => exact he.elim
  | function scope ps ret v s => exact he.elim
  | block scope body s => exact he.elim
  | error s => exact he.elim
  | read a =>
    obtain ⟨st, hst, h⟩ := bind_eq_ok.mp h
    cases h
    exact ⟨fun _ => rfl, by simp [Code.children], by simpa [Code.storage?, access?] using hst⟩
  | assign a v s =>
    obtain ⟨st, hst, h⟩ := bind_eq_ok.mp h
    cases h
    refine ⟨fun _ => rfl, ?_, by simpa [Code.storage?, access?] using hst⟩
    simp [Code.children, parts]
  | interpolation ps s =>
    obtain ⟨cs, hcs, h⟩ := bind_eq_ok.mp h
    cases h
    refine ⟨fun _ => rfl, ?_, by simp [Code.storage?]⟩
    intro k hk
    obtain ⟨q, hq, hk⟩ := exists_of_mem_mapM hcs hk
    cases q with
    | text t =>
      cases hk
      exact Or.inr ⟨_, _, rfl⟩
    | expr i =>
      cases hk
      exact Or.inl ⟨i, List.mem_flatMap.mpr ⟨_, hq, by simp [ExprPart.ids]⟩, rfl⟩
  | array es s =>
    rw [lower, mapM_ok] at h
    cases h
    refine ⟨fun _ => rfl, ?_, by simp [Code.storage?]⟩
    intro k hk
    obtain ⟨i, hi, rfl⟩ := List.mem_map.mp hk
    exact Or.inl ⟨i, hi, rfl⟩
  | call callee args s =>
    rw [lower, mapM_ok] at h
    cases h
    refine ⟨fun _ => rfl, ?_, by simp [Code.storage?]⟩
    intro k hk
    rcases List.mem_cons.mp hk with rfl | hk
    · exact Or.inl ⟨callee, List.mem_cons_self, rfl⟩
    · obtain ⟨i, hi, rfl⟩ := List.mem_map.mp hk
      exact Or.inl ⟨i, List.mem_cons_of_mem callee hi, rfl⟩
  | branch c t e s =>
    cases e <;> cases h <;> simp [Code.enter, Code.children, Code.storage?, parts]
  | ret v s =>
    cases v <;> cases h <;> simp [Code.enter, Code.children, Code.storage?, parts]
  | _ =>
    cases h
    simp [Code.enter, Code.children, Code.storage?, parts]

end Expr

namespace Context

/-- What is made in the context is still there in a later one. -/
structure Precedes (c z : Context) : Prop where
  symbol : ∀ path name, (c.ns.symbol? path name).isSome → (z.ns.symbol? path name).isSome
  diagnostics : c.diagnostics <+: z.diagnostics
  expr : ∀ i e, c.program.expr? i = some e → z.program.expr? i = some e
  scopes : c.program.scopes.Refines z.program.scopes

variable {c c' z : Context}

theorem Precedes.refl (z : Context) : z.Precedes z :=
  ⟨fun _ _ h => h, List.prefix_refl _, fun _ _ h => h, .refl _⟩

theorem Grows.precedes (h : c.Grows c') (k : c'.Precedes z) : c.Precedes z where
  symbol := fun path name hs => k.symbol path name (h.ns.symbol path name hs)
  diagnostics := h.diagnostics.trans k.diagnostics
  expr := by
    intro i e he
    obtain ⟨x, hx, rfl⟩ := Option.map_eq_some_iff.mp he
    exact k.expr i x.expr (Option.map_eq_some_iff.mpr ⟨x, h.exprs i x hx, rfl⟩)
  scopes := h.scopes.refines.trans k.scopes

theorem Precedes.of_leave (h : (c.leave c').Precedes z) : c'.Precedes z :=
  ⟨h.symbol, h.diagnostics, h.expr, h.scopes⟩

/-- The frames fit the scopes around the current place. -/
def Covered (c : Context) (frames : List Frame) : Prop :=
  c.program.scopes.Covers (c.program.scopes.ancestors c.scope) frames

section

variable {frames : List Frame}

theorem Grows.ancestors_eq (h : c.Grows c') (hlt : c.scope < c.program.scopes.size) :
    c'.program.scopes.ancestors c'.scope = c.program.scopes.ancestors c.scope := by
  rw [h.scope]
  exact h.scopes.refines.ancestors_eq hlt

theorem Covered.declareLocal (h : c.Covered frames) (hin : c.InBlock) (s : Symbol) :
    (c.declareLocal s).Covered (Frame.declare (· = s.name) frames) := by
  rw [Covered, (grows_declareLocal c s).ancestors_eq hin.placed]
  exact ScopeTree.Covers.addSymbol h hin.placed hin.kind s

theorem covered_inside {t : ScopeTree} {rs : List Ty} (ho : c.program.scopes.Opens c.scope t)
    (h : t.Covers (c.program.scopes.size :: c.program.scopes.ancestors c.scope) frames) :
    (c.inside t rs).Covered frames := by
  rw [← ho.ancestors_eq] at h
  exact h

theorem Covered.enter (h : c.Covered frames) (hlt : c.scope < c.program.scopes.size) :
    (c.enter .block).Covered frames := by
  have ho := opens_enter hlt .block
  have hcov := ScopeTree.Covers.extends h ho.older
  have hpos := hcov.length_pos
  apply covered_inside ho
  cases frames with
  | nil => simp at hpos
  | cons f fs =>
    refine .block (c.program.scopes.scope?_createChild_self c.scope .block) (by simp) ?_ hcov
    intro x hx
    simp [Scope.Declares, Symbol.find?] at hx

theorem Covered.enterFunction (h : c.Covered frames) (hlt : c.scope < c.program.scopes.size)
    (ps : List TypedParam) (ret : Ty) :
    (c.enterFunction ps ret).Covered (⟨ps.map TypedParam.name, fun _ => False⟩ :: frames) := by
  have ho := opens_enterFunction hlt ps
  obtain ⟨s, hs, _, hk, hparams, hdecl⟩ := ScopeTree.scope?_addParameters_self ps
    (c.program.scopes.scope?_createChild_self c.scope .function)
  apply covered_inside ho
  refine .function hs hk (by simpa using hparams) ?_ (ScopeTree.Covers.extends h ho.older)
  intro x hx
  simpa [Scope.Declares, Symbol.find?] using (hdecl x).mp hx

end

/-- What becomes of expressions that were built: those inside an expression are closed, and leave the
scopes as they were; those among statements are closed one after the other, and what they declare is
then in the frames. -/
def Closes (z : Context) (frames : List Frame) (c : Context) (ids : List Nat) (c' : Context) :
    Place → Prop
  | .part => c.program.scopes.Extends c'.program.scopes ∧
    ∀ i ∈ ids, (z.program.code i).Closed z.ns frames
  | .statement => Code.AllClosed z.ns frames (ids.map z.program.code) ∧
    c'.Covered (Frame.declare (fun x => ∃ k ∈ ids.map z.program.code, k.Declares x) frames)

section

variable {frames : List Frame} {ids js : List Nat} {p : Place}

theorem Covered.extends (h : c.Covered frames) (hg : c.Grows c')
    (hlt : c.scope < c.program.scopes.size)
    (hext : c.program.scopes.Extends c'.program.scopes) : c'.Covered frames := by
  rw [Covered, hg.ancestors_eq hlt]
  exact ScopeTree.Covers.extends h hext

theorem Closes.inPlace (h : Closes z frames c ids c' .part) (hcov : c.Covered frames)
    (hg : c.Grows c') (hlt : c.scope < c.program.scopes.size) (p : Place) :
    Closes z frames c ids c' p := by
  cases p with
  | part => exact h
  | statement =>
    refine ⟨Code.allClosed_of_closed ?_, (hcov.extends hg hlt h.1).le (Frame.le_declare _ _)⟩
    intro k hk
    obtain ⟨i, hi, rfl⟩ := List.mem_map.mp hk
    exact h.2 i hi

theorem closes_single {i : Nat} (hg : c.Grows c')
    (hext : c.program.scopes.Extends c'.program.scopes)
    (h : (z.program.code i).Closed z.ns frames) (hcov : c.Covered frames)
    (hlt : c.scope < c.program.scopes.size) (p : Place) : Closes z frames c [i] c' p := by
  refine Closes.inPlace ⟨hext, ?_⟩ hcov hg hlt p
  intro j hj
  rw [List.mem_singleton.mp hj]
  exact h

theorem Closes.append {c'' : Context} (h : Closes z frames c ids c' p) (hcov : c.Covered frames)
    (hg : c.Grows c') (hlt : c.scope < c.program.scopes.size)
    (ih : ∀ gs, c'.Covered gs → Closes z gs c' js c'' p) : Closes z frames c (ids ++ js) c'' p := by
  cases p with
  | part =>
    obtain ⟨hext, hclosed⟩ := ih frames (hcov.extends hg hlt h.1)
    refine ⟨h.1.trans hext, ?_⟩
    intro i hi
    rcases List.mem_append.mp hi with hi | hi
    · exact h.2 i hi
    · exact hclosed i hi
  | statement =>
    obtain ⟨hclosed, hcov'⟩ := ih _ h.2
    refine ⟨?_, hcov'.le (Frame.declare_declare_le ?_)⟩
    · rw [List.map_append]
      exact h.1.append hclosed
    · intro x hx
      rw [List.map_append]
      rcases hx with ⟨k, hk, hx⟩ | ⟨k, hk, hx⟩
      · exact ⟨k, List.mem_append_left _ hk, hx⟩
      · exact ⟨k, List.mem_append_right _ hk, hx⟩

end

end Context

/-! Single expressions -/

namespace Context

theorem expr?_alloc_self (c : Context) (e : Expr) (t : Ty) :
    (c.alloc e t).program.expr? c.program.exprs.size = some e := by
  simp [alloc, Program.alloc, Program.expr?]

theorem Sees.foundIn {c z : Context} {a : Access} {s : Storage} {frames : List Frame}
    (h : c.Sees a) (hle : c.Precedes z) (hcov : c.Covered frames)
    (hs : Storage.classify z.program.scopes a = .ok s) : s.FoundIn z.ns frames := by
  rw [Storage.classify_eq hle.scopes h.inside] at hs
  rw [Covered, ← h.scope] at hcov
  refine Storage.foundIn_of_classify hcov ?_ ?_ hs
  · exact fun d x ht => (h.nested ht).declares
  · intro path x ht
    have hr := h.target
    rw [ht] at hr
    obtain ⟨s, hs, _⟩ := hr
    exact hle.symbol path x (by simp [hs])

end Context

namespace Context.Sound

variable {z : Context} {frames : List Frame} {i : Nat} {span : Span}

theorem not_error (hz : z.Sound) (hd : z.diagnostics = []) (i : Nat) (span : Span) :
    z.program.expr? i ≠ some (.error span) := fun he => hz.reported i span he hd

theorem closed_node (hz : z.Sound) (hd : z.diagnostics = []) {e : Expr}
    (he : z.program.expr? i = some e) (hs : e.IsSimple)
    (hparts : ∀ j ∈ e.parts, (z.program.code j).Closed z.ns frames)
    (haccess : ∀ a s, e.access? = some a → Storage.classify z.program.scopes a = .ok s →
      s.FoundIn z.ns frames) : (z.program.code i).Closed z.ns frames := by
  have hcode := hz.program.lower_code (hz.not_error hd) he
  obtain ⟨henter, hchildren, hstorage⟩ := Expr.code_of_lower hcode hs
  refine .intro ?_ ?_
  · intro s hs
    obtain ⟨a, ha, hc⟩ := hstorage s hs
    exact haccess a s ha hc
  · intro before k after hk
    rw [henter]
    rcases hchildren k (by simp [hk]) with ⟨j, hj, rfl⟩ | ⟨v, s, rfl⟩
    · exact (hparts j hj).mono (Frame.le_declare _ _)
    · exact Code.closed_value v s

theorem code_block (hz : z.Sound) (hd : z.diagnostics = []) {scope : Nat} {ids : List Nat}
    (he : z.program.expr? i = some (.block scope ids span)) :
    z.program.code i = .block (ids.map z.program.code) span := by
  have hcode := hz.program.lower_code (hz.not_error hd) he
  rw [Expr.lower, Expr.mapM_ok] at hcode
  exact (Except.ok.inj hcode).symm

theorem code_function (hz : z.Sound) (hd : z.diagnostics = []) {scope body : Nat}
    {ps : List TypedParam} {ret : Ty}
    (he : z.program.expr? i = some (.function scope ps ret body span)) :
    z.program.code i = .function (ps.map TypedParam.name) (z.program.code body) span :=
  (Except.ok.inj (hz.program.lower_code (hz.not_error hd) he)).symm

theorem code_defineLocal (hz : z.Sound) (hd : z.diagnostics = []) {scope v : Nat} {x : String}
    {isMutable : Bool} (he : z.program.expr? i = some (.defineLocal scope x isMutable v span)) :
    z.program.code i = .declareLocal x isMutable (z.program.code v) span :=
  (Except.ok.inj (hz.program.lower_code (hz.not_error hd) he)).symm

end Context.Sound

namespace Code

variable {ns : Namespace} {frames : List Frame} {span : Span}

theorem closed_block {codes : List Code} (h : AllClosed ns frames codes) :
    Closed ns frames (.block codes span) := .intro (by simp [storage?]) h

theorem closed_function {params : List String} {body : Code}
    (h : Closed ns (⟨params, fun _ => False⟩ :: frames) body) :
    Closed ns frames (.function params body span) := by
  refine .intro (by simp [storage?]) (allClosed_of_closed ?_)
  simpa [children, enter] using h

theorem closed_declareLocal {x : String} {isMutable : Bool} {v : Code}
    (h : Closed ns (Frame.declare (· = x) frames) v) :
    Closed ns frames (.declareLocal x isMutable v span) := by
  refine .intro (by simp [storage?]) (allClosed_of_closed ?_)
  simpa [children, enter] using h

end Code

namespace Built

variable {permit : Permit} {p : Place} {c c' z : Context} {ids : List Nat}

theorem closes_declaration {frames : List Frame} {i v : Nat} {x : String} {isMutable : Bool}
    {span : Span} (hcode : z.program.code i = .declareLocal x isMutable (z.program.code v) span)
    (hv : (z.program.code v).Closed z.ns (Frame.declare (· = x) frames))
    (hcov : c'.Covered (Frame.declare (· = x) frames)) :
    Context.Closes z frames c [i] c' .statement := by
  refine ⟨Code.allClosed_of_closed ?_, hcov.le ((Frame.Le.refl frames).declare ?_)⟩
  · simpa [hcode] using Code.closed_declareLocal hv
  · rintro y rfl
    exact ⟨_, List.mem_singleton.mpr rfl, hcode ▸ .here _ _ _ _⟩

/-- The code of what is built is closed in the program at the end. -/
theorem closes (h : Built permit true p c ids c') (hz : z.Sound) (hd : z.diagnostics = [])
    (hle : c'.Precedes z) (hin : c.InBlock) {frames : List Frame} (hcov : c.Covered frames) :
    Context.Closes z frames c ids c' p := by
  induction h generalizing frames with
  | nil p c =>
    have hpart : Context.Closes z frames c [] c .part := ⟨.refl _, by simp⟩
    exact hpart.inPlace hcov (.refl c) hin.placed p
  | append h k ih ik =>
    have h₁ := ih (k.grows.precedes hle) hin hcov
    exact h₁.append hcov h.grows hin.placed fun gs hgs => ik hle (h.grows.inBlock hin) hgs
  | @later p c ns ds hns hds =>
    have hpart : Context.Closes z frames c [] (c.later ns ds) .part := ⟨.refl _, by simp⟩
    exact hpart.inPlace hcov (Context.grows_later hns.toGrows ds) hin.placed p
  | @node p c c' ids e t h he hp ha hw ih =>
    have hle' := (Context.grows_alloc c' e t).precedes hle
    obtain ⟨hext, hclosed⟩ := ih hle' hin hcov
    have hcov' := hcov.extends h.grows hin.placed hext
    have hg := h.grows.trans (Context.grows_alloc c' e t)
    refine Context.closes_single hg hext ?_ hcov hin.placed p
    refine hz.closed_node hd (hle.expr _ e (Context.expr?_alloc_self c' e t)) he ?_ ?_
    · exact fun j hj => hclosed j (hp.mem_iff.mp hj)
    · exact fun a s hea hs => (ha a hea).foundIn hle' hcov' hs
  | @error p c c' ids span h hd' ih =>
    have hpre := ((Context.grows_alloc c' (.error span) .any).precedes hle).diagnostics
    rw [hd] at hpre
    exact absurd (List.prefix_nil.mp hpre) hd'
  | @variableDecl c c' v s span h ih =>
    let e : Expr := .defineLocal c'.scope s.name s.isMutable v span
    have hle₁ := (Context.grows_alloc (c'.declareLocal s) e .unit).precedes hle
    obtain ⟨hext, hclosed⟩ := ih ((Context.grows_declareLocal c' s).precedes hle₁) hin hcov
    have hcov' := (hcov.extends h.grows hin.placed hext).declareLocal (h.grows.inBlock hin) s
    have hcode := hz.code_defineLocal hd
      (hle.expr _ e (Context.expr?_alloc_self (c'.declareLocal s) e .unit))
    refine closes_declaration hcode ?_ hcov'
    exact (hclosed v List.mem_cons_self).mono (Frame.le_declare _ _)
  | @localFunction c c' v s m span h ih =>
    let e : Expr := .defineLocal c.scope s.name m v span
    have hg := Context.grows_declareLocal c s
    have hdecl := hcov.declareLocal hin s
    obtain ⟨hext, hclosed⟩ := ih ((Context.grows_alloc c' e .unit).precedes hle) (hg.inBlock hin) hdecl
    have hcov' := hdecl.extends h.grows (hg.inBlock hin).placed hext
    have hcode := hz.code_defineLocal hd (hle.expr _ e (Context.expr?_alloc_self c' e .unit))
    exact closes_declaration hcode (hclosed v List.mem_cons_self) hcov'
  | @block p c c' ids span t h ih =>
    let e : Expr := .block c.program.scopes.size ids span
    have hle' := (Context.grows_alloc (c.leave c') e t).precedes hle
    obtain ⟨hall, _⟩ := ih hle'.of_leave (Context.inBlock_enter c) (hcov.enter hin.placed)
    have hcode := hz.code_block hd (hle.expr _ e (Context.expr?_alloc_self (c.leave c') e t))
    have hext := h.grows.extends (ScopeTree.extends_createChild _ _ _)
    have hg := h.grows.leaveBlock.trans (Context.grows_alloc _ e t)
    exact Context.closes_single hg hext (hcode ▸ Code.closed_block hall) hcov hin.placed p
  | @function p c c₁ c₂ ids ps ret ret' bodySpan span bodyType t h k hr ih ik =>
    let body : Expr := .block (c.program.scopes.size + 1) ids bodySpan
    let e : Expr := .function c.program.scopes.size ps ret' c₁.program.exprs.size span
    -- inside the function
    have hle₂ := (Context.grows_alloc c₂ e t).precedes hle
    have hle₁ : (c₁.alloc body bodyType).Precedes z := (k.grows.precedes hle₂).of_leave
    have hf := (Context.opens_enterFunction hin.placed ps).size
    have hcovf := (hcov.enterFunction hin.placed ps ret).enter (hf ▸ Nat.lt_succ_self _)
    obtain ⟨hall, _⟩ := ih ((Context.grows_alloc c₁ body bodyType).precedes hle₁)
      (Context.inBlock_enter _) hcovf
    -- and outside again
    have hg : c.Grows (c.leaveFunction ids bodySpan bodyType c₁) :=
      h.grows.leaveFunction bodySpan bodyType
    have hext : c.program.scopes.Extends (c.leaveFunction ids bodySpan bodyType c₁).program.scopes :=
      (ScopeTree.extends_addParameters _ _ _ ps).trans
        (h.grows.extends (ScopeTree.extends_createChild _ _ _))
    obtain ⟨hext', _⟩ := ik hle₂ (hg.inBlock hin) (hcov.extends hg hin.placed hext)
    have hbody := hz.code_block hd (hle₁.expr _ body (Context.expr?_alloc_self c₁ body bodyType))
    have hcode := hz.code_function hd (hle.expr _ e (Context.expr?_alloc_self c₂ e t))
    have hgrows := (hg.trans k.grows).trans (Context.grows_alloc c₂ e t)
    refine Context.closes_single hgrows (hext.trans hext') ?_ hcov hin.placed p
    rw [hcode, hbody]
    exact Code.closed_function (Code.closed_block hall)
  | @generics p c c' ids names h ih =>
    have hg := ih ⟨hle.symbol, hle.diagnostics, hle.expr, hle.scopes⟩ ⟨hin.placed, hin.kind⟩ hcov
    cases p with
    | part => exact hg
    | statement => exact hg
  | statement h ih => exact (ih hle hin hcov).inPlace hcov h.grows hin.placed .statement
  | anywhere hs h ih => simp at hs

end Built

theorem Context.Starts.covered {c : Context} (h : c.Starts) : c.Covered [Frame.item] := by
  rw [Covered, h.scope, h.program]
  refine .block (f := Frame.item) rfl (by simp) ?_ (.item _)
  intro x hx
  simp [Scope.Declares, Symbol.find?] at hx

/-- The items of a unit whose declarations are statements have closed code. -/
theorem SourceUnit.closed_check {u : SourceUnit} {ns : Namespace} {default : PackagePath}
    (hfit : ∀ n ∈ u.items, n.FitsIn .statement) (hd : (u.check ns default).2.diagnostics = []) :
    ∀ i ∈ (u.check ns default).2.program.items,
      ((u.check ns default).2.program.code i).Closed (u.check ns default).2.ns [Frame.item] := by
  -- closed in whatever context comes at the end
  let J (c : Context) : Prop := ∀ z, c.Precedes z → z.Sound → z.diagnostics = [] →
    c.Covered [Frame.item] ∧ ∀ i ∈ c.program.items, (z.program.code i).Closed z.ns [Frame.item]
  have hJ : J (u.check ns default).2 := by
    refine (u.check_invariant true (fun _ => hfit) ?_ ?_).2
    · intro c hc _ z _ _ _
      exact ⟨hc.covered, by simp [hc.program, Program.init]⟩
    · intro c id c' _ hin ih hb z hle hz hd
      have hle' : c'.Precedes z := ⟨hle.symbol, hle.diagnostics, hle.expr, hle.scopes⟩
      obtain ⟨hcov, hitems⟩ := ih z (hb.grows.precedes hle') hz hd
      obtain ⟨hext, hclosed⟩ := hb.closes hz hd hle' hin hcov
      have hcov' : c'.Covered [Frame.item] := hcov.extends hb.grows hin.placed hext
      refine ⟨hcov', ?_⟩
      intro i hi
      rcases List.mem_append.mp hi with hi | hi
      · exact hitems i (hb.grows.items ▸ hi)
      · exact hclosed i hi
  exact (hJ _ (.refl _) (u.sound_check ns default).2 hd).2

/-- Whatever is compiled, its code is closed: every use of a variable finds it in the frame that the
storage names, declared before the use, or in the namespace as it is then. -/
theorem compile_closed (options : Options) (source : String) (ns : Namespace) :
    match compile options source ns with
    | (.ok c, ns') => ∀ p ∈ c.lowered, ∀ code ∈ p.items, code.Closed ns' [Frame.item]
    | (.error _, _) => True := by
  rw [compile_eq]
  by_cases hp : (Parsed.ofSource source).isOk
  · simp only [hp, if_true, Context.compilation]
    intro p hlow code hcode
    split at hlow
    · rename_i hd
      cases hlow
      obtain ⟨i, hi, rfl⟩ := List.mem_map.mp hcode
      exact SourceUnit.closed_check (Parsed.items_fit source) (List.isEmpty_iff.mp hd) i hi
    · simp at hlow
  · simp [hp]

end Tern
