import Tern.Program.Lower
import Tern.Proofs.Check.Built

/-!
Lowering. The bound on its descent is never reached if every expression comes after its parts, and it
succeeds if there are no errors and every use of a variable stands inside the scope that declares it.
-/

set_option autoImplicit false

namespace Tern

section Except

variable {ε α β : Type}

theorem bind_eq_ok {x : Except ε α} {f : α → Except ε β} {b : β} :
    x >>= f = .ok b ↔ ∃ a, x = .ok a ∧ f a = .ok b := by
  cases x with
  | error e => simp [bind, Except.bind]
  | ok a => simp [bind, Except.bind]

theorem mapM_congr {f g : α → Except ε β} {as : List α} (h : ∀ a ∈ as, f a = g a) :
    as.mapM f = as.mapM g := by
  induction as with
  | nil => rfl
  | cons a as ih =>
    rw [List.mapM_cons, List.mapM_cons, h a List.mem_cons_self,
      ih fun b hb => h b (List.mem_cons_of_mem a hb)]

theorem exists_of_mem_mapM {f : α → Except ε β} {as : List α} {bs : List β}
    (h : as.mapM f = .ok bs) {b : β} (hb : b ∈ bs) : ∃ a ∈ as, f a = .ok b := by
  induction as generalizing bs with
  | nil =>
    cases h
    simp at hb
  | cons a as ih =>
    rw [List.mapM_cons] at h
    obtain ⟨b', hb', h⟩ := bind_eq_ok.mp h
    obtain ⟨bs', hbs', h⟩ := bind_eq_ok.mp h
    cases h
    rcases List.mem_cons.mp hb with rfl | hb
    · exact ⟨a, List.mem_cons_self, hb'⟩
    · obtain ⟨x, hx, hfx⟩ := ih hbs' hb
      exact ⟨x, List.mem_cons_of_mem a hx, hfx⟩

/-- There is a value. -/
def Succeeds (x : Except ε α) : Prop := ∃ a, x = .ok a

theorem succeeds_pure (a : α) : Succeeds (pure a : Except ε α) := ⟨a, rfl⟩

theorem Succeeds.bind {x : Except ε α} {f : α → Except ε β} (hx : Succeeds x)
    (hf : ∀ a, Succeeds (f a)) : Succeeds (x >>= f) := by
  obtain ⟨a, rfl⟩ := hx
  exact hf a

theorem succeeds_mapM {f : α → Except ε β} {as : List α} (h : ∀ a ∈ as, Succeeds (f a)) :
    Succeeds (as.mapM f) := by
  induction as with
  | nil => exact succeeds_pure []
  | cons a as ih =>
    rw [List.mapM_cons]
    refine (h a List.mem_cons_self).bind fun _ => ?_
    exact (ih fun b hb => h b (List.mem_cons_of_mem a hb)).bind fun _ => succeeds_pure _

theorem succeeds_optionMapM {f : α → Except ε β} {a? : Option α}
    (h : ∀ a ∈ a?.toList, Succeeds (f a)) : Succeeds (a?.mapM f) := by
  cases a? with
  | none => exact succeeds_pure none
  | some a =>
    rw [Option.mapM_some]
    exact (h a (by simp)).bind fun _ => succeeds_pure _

end Except

/-! Storage -/

namespace ScopeTree

theorem exists_boundaries? (t : ScopeTree) {declaring : Nat} {chain : List Nat}
    (h : declaring ∈ chain) : ∃ n, t.boundaries? declaring chain = some n := by
  induction chain with
  | nil => simp at h
  | cons s rest ih =>
    rw [boundaries?]
    by_cases hs : s = declaring
    · exact ⟨0, by simp [hs]⟩
    · obtain ⟨n, hn⟩ := ih ((List.mem_cons.mp h).resolve_left (Ne.symm hs))
      simp [hs, hn]

end ScopeTree

/-- The use stands inside the scope that declares the variable. -/
def Access.Inside (t : ScopeTree) (a : Access) : Prop :=
  ∀ declaring name, a.target = .nested declaring name → declaring ∈ t.ancestors a.scope

theorem Access.Inside.classify {t : ScopeTree} {a : Access} (h : a.Inside t) :
    Succeeds (Storage.classify t a) := by
  unfold Storage.classify
  split
  · exact ⟨_, rfl⟩
  · rename_i declaring name ht
    obtain ⟨n, hn⟩ := t.exists_boundaries? (h declaring name ht)
    rw [hn]
    cases n with
    | succ n => exact ⟨_, rfl⟩
    | zero =>
      dsimp only
      split
      · split
        · exact ⟨_, rfl⟩
        · exact ⟨_, rfl⟩
      · exact ⟨_, rfl⟩

/-! Single expressions -/

namespace Expr

variable {p : Program} {f g : Nat → Except LowerFault Code} {e : Expr}

/-- The code depends on the code of the parts only. -/
theorem lower_congr (h : ∀ i ∈ e.parts, f i = g i) : e.lower p f = e.lower p g := by
  cases e with
  | interpolation ps s =>
    have hps : ps.mapM (ExprPart.lower f s) = ps.mapM (ExprPart.lower g s) := by
      refine mapM_congr fun q hq => ?_
      cases q with
      | text t => rfl
      | expr i => exact h i (List.mem_flatMap.mpr ⟨_, hq, by simp [ExprPart.ids]⟩)
    simp only [lower, hps]
  | block scope body s =>
    have hbody : body.mapM f = body.mapM g := mapM_congr h
    simp only [lower, hbody]
  | array es s =>
    have hes : es.mapM f = es.mapM g := mapM_congr h
    simp only [lower, hes]
  | call callee args s =>
    have hargs : args.mapM f = args.mapM g :=
      mapM_congr fun i hi => h i (List.mem_cons_of_mem callee hi)
    simp only [lower, h callee List.mem_cons_self, hargs]
  | branch c t e s => cases e <;> simp_all [lower, parts]
  | ret v s => cases v <;> simp_all [lower, parts]
  | _ => simp_all [lower, parts]

theorem succeeds_lower (hparts : ∀ i ∈ e.parts, Succeeds (f i))
    (herror : ∀ span, e ≠ .error span)
    (haccess : ∀ a, e.access? = some a → Succeeds (Storage.classify p.scopes a)) :
    Succeeds (e.lower p f) := by
  cases e with
  | literal v s => exact succeeds_pure _
  | defineData d s => exact succeeds_pure _
  | error s => exact absurd rfl (herror s)
  | interpolation ps s =>
    refine (succeeds_mapM fun q hq => ?_).bind fun _ => succeeds_pure _
    cases q with
    | text t => exact succeeds_pure _
    | expr i => exact hparts i (List.mem_flatMap.mpr ⟨_, hq, by simp [ExprPart.ids]⟩)
  | read a => exact (haccess a rfl).bind fun _ => succeeds_pure _
  | assign a v s =>
    exact (haccess a rfl).bind fun _ => (hparts v (by simp [parts])).bind fun _ => succeeds_pure _
  | block scope body s => exact (succeeds_mapM hparts).bind fun _ => succeeds_pure _
  | array es s => exact (succeeds_mapM hparts).bind fun _ => succeeds_pure _
  | call callee args s =>
    refine (hparts callee List.mem_cons_self).bind fun _ => ?_
    exact (succeeds_mapM fun i hi => hparts i (List.mem_cons_of_mem callee hi)).bind
      fun _ => succeeds_pure _
  | ret v s => exact (succeeds_optionMapM hparts).bind fun _ => succeeds_pure _
  | branch c t e s =>
    refine (hparts c (by simp [parts])).bind fun _ => (hparts t (by simp [parts])).bind fun _ => ?_
    exact (succeeds_optionMapM fun i hi => hparts i (by simp_all [parts])).bind
      fun _ => succeeds_pure _
  | assignIndex r i v s =>
    refine (hparts r (by simp [parts])).bind fun _ => (hparts i (by simp [parts])).bind fun _ => ?_
    exact (hparts v (by simp [parts])).bind fun _ => succeeds_pure _
  | index l r s | binary op l r s | loop l r s =>
    refine (hparts l (by simp [parts])).bind fun _ => ?_
    exact (hparts r (by simp [parts])).bind fun _ => succeeds_pure _
  | defineFunction item v s | defineVariable item v s | defineLocal scope x m v s
  | function scope ps ret v s | field v x s | unary op v s | test v x s =>
    exact (hparts v (by simp [parts])).bind fun _ => succeeds_pure _

end Expr

/-! Programs -/

namespace Program

/-- Expressions come after their parts, and uses of variables stand inside their scopes. -/
structure Sound (p : Program) : Prop where
  parts : ∀ i e, p.expr? i = some e → ∀ j ∈ e.parts, j < i
  access : ∀ i e a, p.expr? i = some e → e.access? = some a → a.Inside p.scopes
  items : ∀ i ∈ p.items, i < p.exprs.size

variable {p : Program}

theorem exists_expr? {id : Nat} (h : id < p.exprs.size) : ∃ e, p.expr? id = some e := by
  simp [expr?, h]

theorem lt_of_expr? {id : Nat} {e : Expr} (h : p.expr? id = some e) : id < p.exprs.size := by
  obtain ⟨x, hx, _⟩ := Option.map_eq_some_iff.mp h
  exact (Array.getElem?_eq_some_iff.mp hx).1

/-- A larger bound does not change the code. -/
theorem Sound.lowerWithin_eq (hp : p.Sound) {n id : Nat} (h : id < n) :
    p.lowerWithin n id = p.lowerExpr id := by
  induction id using Nat.strongRecOn generalizing n with
  | ind id ih =>
    obtain ⟨n, rfl⟩ := Nat.exists_eq_succ_of_ne_zero (Nat.ne_of_gt (Nat.zero_lt_of_lt h))
    rw [lowerExpr, lowerWithin, lowerWithin]
    cases he : p.expr? id with
    | none => rfl
    | some e =>
      refine Expr.lower_congr fun j hj => ?_
      have hlt := hp.parts id e he j hj
      rw [ih j hlt (n := n) (by omega), ih j hlt hlt]

/-- The code of an expression from the code of its parts. -/
theorem Sound.lowerExpr_eq (hp : p.Sound) {id : Nat} {e : Expr} (he : p.expr? id = some e) :
    p.lowerExpr id = e.lower p p.lowerExpr := by
  rw [lowerExpr, lowerWithin, he]
  exact Expr.lower_congr fun j hj => hp.lowerWithin_eq (hp.parts id e he j hj)

theorem Sound.succeeds_lowerExpr (hp : p.Sound) (herror : ∀ i span, p.expr? i ≠ some (.error span))
    {id : Nat} (h : id < p.exprs.size) : Succeeds (p.lowerExpr id) := by
  induction id using Nat.strongRecOn with
  | ind id ih =>
    obtain ⟨e, he⟩ := exists_expr? h
    rw [hp.lowerExpr_eq he]
    refine Expr.succeeds_lower ?_ ?_ ?_
    · intro j hj
      have hlt := hp.parts id e he j hj
      exact ih j hlt (by omega)
    · rintro span rfl
      exact herror id span he
    · exact fun a ha => (hp.access id e a he ha).classify

/-- The code of an expression, of those that can be lowered. -/
def code (p : Program) (id : Nat) : Code :=
  match p.lowerExpr id with
  | .ok code => code
  | .error _ => default

theorem Sound.lowerExpr_eq_code (hp : p.Sound) (herror : ∀ i span, p.expr? i ≠ some (.error span))
    {id : Nat} (h : id < p.exprs.size) : p.lowerExpr id = .ok (p.code id) := by
  obtain ⟨code, hc⟩ := hp.succeeds_lowerExpr herror h
  rw [Program.code, hc]

/-- The code of an expression is made of the codes of its parts. -/
theorem Sound.lower_code (hp : p.Sound) (herror : ∀ i span, p.expr? i ≠ some (.error span))
    {id : Nat} {e : Expr} (he : p.expr? id = some e) :
    e.lower p (fun i => .ok (p.code i)) = .ok (p.code id) := by
  have hid := lt_of_expr? he
  rw [← hp.lowerExpr_eq_code herror hid, hp.lowerExpr_eq he]
  apply Expr.lower_congr
  intro i hi
  have hlt := hp.parts id e he i hi
  exact (hp.lowerExpr_eq_code herror (by omega)).symm

/-- A sound program without errors is lowered. -/
theorem Sound.lower_eq (hp : p.Sound) (herror : ∀ i span, p.expr? i ≠ some (.error span)) :
    p.lower = .ok ⟨p.path, p.items.map p.code⟩ := by
  have hitems : p.items.mapM p.lowerExpr = .ok (p.items.map p.code) := by
    rw [mapM_congr fun i hi => hp.lowerExpr_eq_code herror (hp.items i hi)]
    exact List.mapM_pure
  rw [lower, hitems]
  rfl

end Program

end Tern
