import Tern.Proofs.Check.Arena

/-!
What functions return. A `return` is checked against the function around it while the body of that
function is checked, and the body itself afterwards. Only a lambda without a written result takes the
type of its body: then nothing was asked of what is returned on the way.
-/

set_option autoImplicit false

namespace Tern

def Expr.IsFunction : Expr → Prop
  | function _ _ _ _ _ => True
  | _ => False

namespace Program

/-- The expression `j` is `i` or inside it, but not inside a function that is inside `i`. -/
inductive Owns (p : Program) (i : Nat) : Nat → Prop
  | self : Owns p i i
  | part {j k : Nat} {e : Expr} (h : Owns p i j) (he : p.expr? j = some e) (hf : ¬ e.IsFunction)
      (hk : k ∈ e.parts) : Owns p i k

/-- Whatever the expression returns fits the type, if there is one. -/
def ReturnsFit (p : Program) (t? : Option Ty) (i : Nat) : Prop :=
  ∀ r v span, p.Owns i r → p.expr? r = some (.ret v span) → ∃ t, t? = some t ∧ p.Gives t v

/-- What is expected of the expression if it is a function: its body fits its result, and so does all
that it returns, unless its result was inferred. -/
def FunctionFits (p : Program) (infers : Span → Prop) (f : Nat) : Prop :=
  ∀ scope ps ret body span, p.expr? f = some (.function scope ps ret body span) →
    (ret.isUnit ∨ ret.isAssignable (p.type body)) ∧
      ((infers span ∧ ret = p.type body) ∨ p.ReturnsFit (some ret) body)

variable {p : Program} {t? : Option Ty} {i r : Nat} {e : Expr}

theorem Owns.cases_head (h : p.Owns i r) :
    r = i ∨ ∃ e, p.expr? i = some e ∧ ¬ e.IsFunction ∧ ∃ k ∈ e.parts, p.Owns k r := by
  induction h with
  | self => exact Or.inl rfl
  | part h he hf hk ih =>
    right
    rcases ih with rfl | ⟨e', he', hf', k', hk', hown⟩
    · exact ⟨_, he, hf, _, hk, .self⟩
    · exact ⟨e', he', hf', k', hk', .part hown he hf hk⟩

theorem returnsFit_of_parts (he : p.expr? i = some e)
    (hret : ∀ v span, e = .ret v span → ∃ t, t? = some t ∧ p.Gives t v)
    (hparts : ¬ e.IsFunction → ∀ k ∈ e.parts, p.ReturnsFit t? k) : p.ReturnsFit t? i := by
  intro r v span hown hr
  rcases hown.cases_head with rfl | ⟨e', he', hf, k, hk, hown⟩
  · exact hret v span (Option.some.inj (he.symm.trans hr))
  · obtain rfl : e = e' := Option.some.inj (he.symm.trans he')
    exact hparts hf k hk r v span hown hr

theorem functionFits_of_not {infers : Span → Prop} (he : p.expr? i = some e)
    (hf : ¬ e.IsFunction) : p.FunctionFits infers i := by
  intro scope ps ret body span h
  obtain rfl := Option.some.inj (he.symm.trans h)
  exact absurd trivial hf

end Program

namespace Context

/-- What is made and reported in the context is still there in `z`. -/
structure KeptIn (c z : Context) : Prop where
  exprs : ∀ (i : Nat) (x : TypedExpr), c.program.exprs[i]? = some x → z.program.exprs[i]? = some x
  diagnostics : c.diagnostics <+: z.diagnostics

variable {c c' z : Context}

theorem Grows.keptIn (h : c.Grows c') (k : c'.KeptIn z) : c.KeptIn z where
  exprs := fun i x hx => k.exprs i x (h.exprs i x hx)
  diagnostics := h.diagnostics.trans k.diagnostics

theorem KeptIn.of_leave (h : (c.leave c').KeptIn z) : c'.KeptIn z := ⟨h.exprs, h.diagnostics⟩

theorem KeptIn.diagnostics_eq (h : c.KeptIn z) (hd : z.diagnostics = []) : c.diagnostics = [] :=
  List.prefix_nil.mp (hd ▸ h.diagnostics)

theorem KeptIn.expr?_alloc {e : Expr} {t : Ty} (h : (c.alloc e t).KeptIn z) :
    z.program.expr? c.program.exprs.size = some e := by
  have hself : (c.alloc e t).program.exprs[c.program.exprs.size]? = some ⟨e, t⟩ := by
    simp [alloc, Program.alloc]
  simp [Program.expr?, h.exprs _ _ hself]

theorem KeptIn.type_eq (h : c.KeptIn z) {i : Nat} (hi : i < c.program.exprs.size) :
    z.program.type i = c.program.type i := by
  have hx := Array.getElem?_eq_getElem hi
  rw [Program.type, Program.type, hx, h.exprs i _ hx]

theorem KeptIn.gives (h : c.KeptIn z) {t : Ty} {v : Option Nat}
    (hv : ∀ i ∈ v.toList, i < c.program.exprs.size) (hg : c.program.Gives t v) :
    z.program.Gives t v := by
  cases v with
  | none => exact hg
  | some v =>
    rw [Program.Gives, h.type_eq (hv v (by simp))]
    exact hg

/-- The functions among the expressions that were made on the way to `c'`. -/
def FunctionsFit (z : Context) (infers : Span → Prop) (c c' : Context) : Prop :=
  ∀ f, c.program.exprs.size ≤ f → f < c'.program.exprs.size → z.program.FunctionFits infers f

theorem FunctionsFit.trans {infers : Span → Prop} {c'' : Context} (h : z.FunctionsFit infers c c')
    (k : z.FunctionsFit infers c' c'') : z.FunctionsFit infers c c'' := by
  intro f hle hlt
  by_cases hf : f < c'.program.exprs.size
  · exact h f hle hf
  · exact k f (by omega) hlt

theorem functionsFit_alloc {infers : Span → Prop} {e : Expr} {t : Ty}
    (h : z.program.FunctionFits infers c.program.exprs.size) :
    z.FunctionsFit infers c (c.alloc e t) := by
  intro f hle hlt
  obtain rfl : f = c.program.exprs.size := by
    simp only [alloc, Program.alloc, Array.size_push] at hlt
    omega
  exact h

end Context

namespace Built

variable {permit : Permit} {strict : Bool} {p : Place} {c c' z : Context} {ids : List Nat}

/-- Where nothing is reported, all that is returned fits the functions around, and the functions
themselves are as expected. -/
theorem returns_fit (h : Built permit strict p c ids c') (hz : c'.KeptIn z)
    (hd : z.diagnostics = []) :
    (∀ i ∈ ids, z.program.ReturnsFit c.returnTypes.head? i) ∧ z.FunctionsFit permit.infers c c' := by
  induction h with
  | nil p c => exact ⟨by simp, fun f hle hlt => absurd hlt (by omega)⟩
  | append h k ih ik =>
    obtain ⟨hr, hf⟩ := ih (k.grows.keptIn hz)
    obtain ⟨hr', hf'⟩ := ik hz
    rw [h.grows.returnTypes] at hr'
    refine ⟨?_, hf.trans hf'⟩
    intro i hi
    rcases List.mem_append.mp hi with hi | hi
    · exact hr i hi
    · exact hr' i hi
  | later p hns hds => exact ⟨by simp, fun f hle hlt => absurd hlt (Nat.not_lt.mpr hle)⟩
  | @node p c c' ids e t h he hp ha hw ih =>
    have hz' := (Context.grows_alloc c' e t).keptIn hz
    obtain ⟨hr, hf⟩ := ih hz'
    have hnot : ¬ e.IsFunction := by
      cases e <;> first | exact he.elim | exact id
    refine ⟨?_, hf.trans (Context.functionsFit_alloc (Program.functionFits_of_not hz.expr?_alloc hnot))⟩
    intro i hi
    obtain rfl := List.mem_singleton.mp hi
    refine Program.returnsFit_of_parts hz.expr?_alloc ?_ fun _ k hk => hr k (hp.mem_iff.mp hk)
    -- what is returned was checked when the expression was made
    rintro v span rfl
    obtain ⟨u, hu, hgives⟩ := hw.resolve_left fun hne => hne (hz'.diagnostics_eq hd)
    rw [h.grows.returnTypes] at hu
    exact ⟨u, hu, hz'.gives (fun i hi => h.ids_lt i (hp.mem_iff.mp hi)) hgives⟩
  | @error p c c' ids span h hd' ih =>
    exact absurd (((Context.grows_alloc c' _ _).keptIn hz).diagnostics_eq hd) hd'
  | @variableDecl c c' v s span h ih =>
    obtain ⟨hr, hf⟩ := ih (((Context.grows_declareLocal c' s).trans
      (Context.grows_alloc _ _ _)).keptIn hz)
    have hmade := hz.expr?_alloc
    refine ⟨?_, hf.trans (Context.functionsFit_alloc (c := c'.declareLocal s)
      (Program.functionFits_of_not hmade id))⟩
    intro i hi
    obtain rfl := List.mem_singleton.mp hi
    exact Program.returnsFit_of_parts hmade (by simp) fun _ => hr
  | @localFunction c c' v s m span h ih =>
    obtain ⟨hr, hf⟩ := ih ((Context.grows_alloc c' _ _).keptIn hz)
    have hmade := hz.expr?_alloc
    have hdeclared : z.FunctionsFit permit.infers c c' := hf
    refine ⟨?_, hdeclared.trans (Context.functionsFit_alloc (Program.functionFits_of_not hmade id))⟩
    intro i hi
    obtain rfl := List.mem_singleton.mp hi
    exact Program.returnsFit_of_parts hmade (by simp) fun _ => hr
  | @block p c c' ids span t h ih =>
    obtain ⟨hr, hf⟩ := ih ((Context.grows_alloc (c.leave c') _ _).keptIn hz).of_leave
    have hmade := hz.expr?_alloc
    have hinner : z.FunctionsFit permit.infers c (c.leave c') := hf
    refine ⟨?_, hinner.trans (Context.functionsFit_alloc (Program.functionFits_of_not hmade id))⟩
    intro i hi
    obtain rfl := List.mem_singleton.mp hi
    exact Program.returnsFit_of_parts hmade (by simp) fun _ => hr
  | @function p c c₁ c₂ ids ps ret ret' bodySpan span bodyType t h k hres ih ik =>
    have hz₂ := (Context.grows_alloc c₂ _ _).keptIn hz
    have hz₁ : (c₁.alloc (.block (c.program.scopes.size + 1) ids bodySpan) bodyType).KeptIn z :=
      (k.grows.keptIn hz₂).of_leave
    obtain ⟨hr, hf⟩ := ih ((Context.grows_alloc c₁ _ _).keptIn hz₁)
    obtain ⟨_, hf'⟩ := ik hz₂
    -- the body
    have hbody := hz₁.expr?_alloc
    have htype : z.program.type c₁.program.exprs.size = bodyType := by
      rw [hz₁.type_eq (by simp [Context.alloc, Program.alloc]), Context.type_alloc_self]
    have hreturns : z.program.ReturnsFit (some ret) c₁.program.exprs.size :=
      Program.returnsFit_of_parts hbody (by simp) fun _ => hr
    -- the function
    have hmade := hz.expr?_alloc
    have hfits : z.program.FunctionFits permit.infers c₂.program.exprs.size := by
      intro scope ps' r body span' he
      obtain ⟨rfl, rfl, rfl, rfl, rfl⟩ := Expr.function.inj (Option.some.inj (hmade.symm.trans he))
      rw [htype]
      rcases hres with ⟨rfl, hfit⟩ | ⟨rfl, rfl, hinfers⟩
      · exact ⟨hfit.resolve_left fun hne => hne (hz₂.diagnostics_eq hd), Or.inr hreturns⟩
      · exact ⟨Or.inr (Ty.isAssignable_self _), Or.inl ⟨hinfers, rfl⟩⟩
    constructor
    · intro i hi
      obtain rfl := List.mem_singleton.mp hi
      exact Program.returnsFit_of_parts hmade (by simp) fun hnot => absurd trivial hnot
    · have hinner : z.FunctionsFit permit.infers c c₁ := hf
      have hinner : z.FunctionsFit permit.infers c (c.leaveFunction ids bodySpan bodyType c₁) :=
        hinner.trans (Context.functionsFit_alloc (c := c₁) (Program.functionFits_of_not hbody id))
      exact (hinner.trans hf').trans (Context.functionsFit_alloc hfits)
  | generics names h ih => exact ih ⟨hz.exprs, hz.diagnostics⟩
  | statement h ih => exact ih hz
  | anywhere hs h ih => exact ih hz

end Built

namespace SourceUnit

/-- A lambda without a written result stands there. -/
def Infers (u : SourceUnit) (span : Span) : Prop :=
  ∃ n ∈ u.items, ∃ params body, Node.lambda params none body span ∈ n.nodes

theorem functionFits_check (u : SourceUnit) (ns : Namespace) (default : PackagePath)
    (hd : (u.check ns default).2.diagnostics = []) (f : Nat) :
    (u.check ns default).2.program.FunctionFits u.Infers f := by
  let J (c : Context) : Prop := ∀ z, c.KeptIn z → z.diagnostics = [] →
    ∀ f < c.program.exprs.size, z.program.FunctionFits u.Infers f
  have hJ : J (u.check ns default).2 := by
    refine (u.check_invariant_within u.Infers (fun _ => True) false ?_ (by simp) ?_ ?_).2
    · intro n hn m hm
      unfold Permit.Covers
      split
      · exact ⟨trivial, fun _ _ => trivial⟩
      · exact ⟨n, hn, _, _, hm⟩
      · trivial
      · trivial
    · intro c hc _ z _ _ f hf
      simp [hc.program, Program.init] at hf
    · intro c id c' _ _ hc hb z hz hd f hf
      have hz' : c'.KeptIn z := ⟨hz.exprs, hz.diagnostics⟩
      by_cases hlt : f < c.program.exprs.size
      · exact hc z (hb.grows.keptIn hz') hd f hlt
      · exact (hb.returns_fit hz' hd).2 f (Nat.le_of_not_lt hlt) hf
  intro scope ps ret body span he
  have hlt : f < (u.check ns default).2.program.exprs.size := by
    obtain ⟨x, hx, _⟩ := Option.map_eq_some_iff.mp he
    exact (Array.getElem?_eq_some_iff.mp hx).1
  exact hJ _ ⟨fun _ _ h => h, List.prefix_refl _⟩ hd f hlt scope ps ret body span he

/-- Where nothing is reported, the body of every function fits its result, and all that it returns
does too, unless it is a lambda without a written result: that one has the type of its body for its
result. -/
theorem returned_fits_unless_inferred (u : SourceUnit) (ns : Namespace) (default : PackagePath)
    (hd : (u.check ns default).2.diagnostics = []) {f scope body : Nat} {ps : List TypedParam}
    {ret : Ty} {span : Span}
    (hf : (u.check ns default).2.program.expr? f = some (.function scope ps ret body span)) :
    (ret.isUnit ∨ ret.isAssignable ((u.check ns default).2.program.type body)) ∧
      ((u.Infers span ∧ ret = (u.check ns default).2.program.type body) ∨
        ∀ r v s, (u.check ns default).2.program.Owns body r →
          (u.check ns default).2.program.expr? r = some (.ret v s) →
          (u.check ns default).2.program.Gives ret v) := by
  obtain ⟨hbody, hreturns⟩ := u.functionFits_check ns default hd f scope ps ret body span hf
  refine ⟨hbody, hreturns.imp_right ?_⟩
  intro h r v s hown hr
  obtain ⟨t, ht, hgives⟩ := h r v s hown hr
  cases ht
  exact hgives

end SourceUnit

/-- The function

    fn g(b: bool): int {
      if (b) { return 2 }
      1
    }
-/
def guarded : SourceUnit where
  package := none
  imports := []
  items :=
    [.function ⟨"g", false, [], [⟨"b", .named "bool" ⟨8, 12⟩, ⟨5, 12⟩⟩], some (.named "int" ⟨15, 18⟩)⟩
      [.branch (.name "b" ⟨27, 28⟩)
        (.block [.ret (some (.literal (.int 2) ⟨39, 40⟩)) ⟨32, 40⟩] ⟨30, 42⟩) none ⟨23, 42⟩,
       .literal (.int 1) ⟨45, 46⟩]
      ⟨0, 48⟩]

/-- What the function returns is at number 2, and its body at number 6. -/
theorem guarded_return_fits :
    (Ty.int.isUnit ∨
        Ty.int.isAssignable ((guarded.check .withPrelude ⟨"user", "default"⟩).2.program.type 6)) ∧
      ((guarded.Infers ⟨0, 48⟩ ∧
          Ty.int = (guarded.check .withPrelude ⟨"user", "default"⟩).2.program.type 6) ∨
        ∀ r v s, (guarded.check .withPrelude ⟨"user", "default"⟩).2.program.Owns 6 r →
          (guarded.check .withPrelude ⟨"user", "default"⟩).2.program.expr? r = some (.ret v s) →
          (guarded.check .withPrelude ⟨"user", "default"⟩).2.program.Gives .int v) := by
  have hf : (guarded.check .withPrelude ⟨"user", "default"⟩).2.program.expr? 7 =
      some (.function 1 [⟨"b", .bool⟩] .int 6 ⟨0, 48⟩) := by cbv
  exact guarded.returned_fits_unless_inferred .withPrelude ⟨"user", "default"⟩ (by cbv) hf

/-- The lambda

    val f = fn(b: bool) {
      if (b) { return }
      1
    }
-/
def unguarded : SourceUnit where
  package := none
  imports := []
  items :=
    [.define ⟨"f", false, false, none⟩
      (.lambda [⟨"b", .named "bool" ⟨14, 18⟩, ⟨11, 18⟩⟩] none
        [.branch (.name "b" ⟨28, 29⟩) (.block [.ret none ⟨33, 39⟩] ⟨31, 41⟩) none ⟨24, 41⟩,
         .literal (.int 1) ⟨44, 45⟩]
        ⟨8, 47⟩)
      ⟨0, 47⟩]

/-- The program of the lambda: its body is at number 5, and what it returns at number 1. -/
def unguardedProgram : Program := (unguarded.check .withPrelude ⟨"user", "default"⟩).2.program

theorem owns_unguarded : unguardedProgram.Owns 5 1 := by
  have hbody : unguardedProgram.Owns 5 3 :=
    .part (e := .block 2 [3, 4] ⟨8, 47⟩) .self (by cbv) id (by simp [Expr.parts])
  have hbranch : unguardedProgram.Owns 5 2 :=
    .part (e := .branch 0 2 none ⟨24, 41⟩) hbody (by cbv) id (by simp [Expr.parts])
  exact .part (e := .block 3 [1] ⟨31, 41⟩) hbranch (by cbv) id (by simp [Expr.parts])

/-- A lambda with the result `int` returns nothing, and nothing is reported. -/
theorem inferred_result_permits_bare_return :
    ¬ ∀ (u : SourceUnit) (ns : Namespace) (default : PackagePath),
      (u.check ns default).2.diagnostics = [] →
      ∀ f scope ps ret body span,
        (u.check ns default).2.program.expr? f = some (.function scope ps ret body span) →
      ∀ r v s, (u.check ns default).2.program.Owns body r →
        (u.check ns default).2.program.expr? r = some (.ret v s) →
        (u.check ns default).2.program.Gives ret v := by
  intro h
  have hgives := h unguarded .withPrelude ⟨"user", "default"⟩ (by cbv) 6 1 [⟨"b", .bool⟩] .int 5
    ⟨8, 47⟩ (by cbv) 1 none ⟨33, 39⟩ owns_unguarded (by cbv)
  rcases hgives with hunit | hany
  · cases hunit
  · cases hany

end Tern
