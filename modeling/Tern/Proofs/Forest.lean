import Tern.Proofs.Closed

/-!
The expressions of a program form a forest: each is used at most once, as a part of a later expression
or as an item, and without reports each is used exactly once. So lowering comes to every expression
once, and the storages of all uses of variables are those in the code.
-/

set_option autoImplicit false

namespace Tern

/-! Uses of expressions -/

/-- All parts of all expressions. -/
def Program.uses (p : Program) : List Nat := p.exprs.toList.flatMap fun e => e.expr.parts

namespace Context

variable {c : Context} {ids roots : List Nat}

/-- Every expression is a part of another one, a root, or dropped; what is dropped is reported. -/
def Planted (c : Context) (roots : List Nat) : Prop :=
  ∃ dropped, (c.program.uses ++ (roots ++ dropped)).Perm (List.range c.program.exprs.size) ∧
    (c.diagnostics = [] → dropped = [])

theorem uses_alloc (c : Context) (e : Expr) (t : Ty) :
    (c.alloc e t).program.uses = c.program.uses ++ e.parts := by
  simp [alloc, Program.alloc, Program.uses]

theorem Planted.perm {roots' : List Nat} (h : c.Planted roots) (hr : roots.Perm roots') :
    c.Planted roots' := by
  obtain ⟨dropped, hperm, hreported⟩ := h
  exact ⟨dropped, ((hr.symm.append_right dropped).append_left c.program.uses).trans hperm, hreported⟩

/-- A new expression is a root in place of its parts and of what it drops. -/
theorem Planted.grow (dropped : List Nat) {e : Expr} (t : Ty) (h : c.Planted (ids ++ roots))
    (hids : (e.parts ++ dropped).Perm ids) (hreported : c.diagnostics = [] → dropped = []) :
    (c.alloc e t).Planted (c.program.exprs.size :: roots) := by
  obtain ⟨before, hperm, hbefore⟩ := h
  refine ⟨dropped ++ before, ?_, fun hd => by simp [hreported hd, hbefore hd]⟩
  have hsize : (c.alloc e t).program.exprs.size = c.program.exprs.size + 1 := by
    simp [alloc, Program.alloc]
  rw [hsize, List.range_succ, uses_alloc, List.perm_iff_count]
  intro i
  have hi := hperm.count_eq i
  have hi' := hids.count_eq i
  simp only [List.count_append, List.cons_append, List.count_cons, List.count_nil] at hi hi' ⊢
  omega

theorem Planted.alloc {e : Expr} (t : Ty) (h : c.Planted (ids ++ roots)) (hids : e.parts.Perm ids) :
    (c.alloc e t).Planted (c.program.exprs.size :: roots) :=
  h.grow [] t (by simpa using hids) fun _ => rfl

end Context

namespace Built

variable {permit : Permit} {strict : Bool} {p : Place} {c c' : Context} {ids roots : List Nat}

/-- The expressions that checking makes for its caller are roots. -/
theorem planted (h : Built permit strict p c ids c') (hc : c.Planted roots) :
    c'.Planted (ids ++ roots) := by
  induction h generalizing roots with
  | nil p c => exact hc
  | @append _ _ _ _ is js h k ih ik =>
    refine (ik (ih hc)).perm ?_
    rw [← List.append_assoc]
    exact List.perm_append_comm.append_right roots
  | later p hns hds =>
    obtain ⟨dropped, hperm, hreported⟩ := hc
    exact ⟨dropped, hperm, fun hd => hreported (List.append_eq_nil_iff.mp hd).1⟩
  | node p t h he hp ha hw ih => exact (ih hc).alloc t hp
  | error p span h hd ih => exact (ih hc).grow _ .any (.refl _) fun hnil => absurd hnil hd
  | @variableDecl c c' v s span h ih =>
    have hdecl : (c'.declareLocal s).Planted ([v] ++ roots) := ih hc
    exact hdecl.alloc .unit (.refl _)
  | @localFunction c c' v s m span h ih =>
    have hvalue : c'.Planted ([v] ++ roots) := ih hc
    exact hvalue.alloc .unit (.refl _)
  | @block p c c' ids span t h ih =>
    have hbody : (c.leave c').Planted (ids ++ roots) := ih hc
    exact hbody.alloc t (.refl _)
  | @function p c c₁ c₂ ids ps ret ret' bodySpan span bodyType t h k hr ih ik =>
    have hbody : c₁.Planted (ids ++ roots) := ih hc
    have hblock := hbody.alloc (e := .block (c.program.scopes.size + 1) ids bodySpan) bodyType (.refl _)
    have hout : c₂.Planted ([c₁.program.exprs.size] ++ roots) := ik hblock
    exact hout.alloc t (.refl _)
  | generics names h ih => exact ih hc
  | statement h ih => exact ih hc
  | anywhere hs h ih => exact ih hc

end Built

/-- The roots of a checked unit are its items. -/
theorem SourceUnit.planted_check (u : SourceUnit) (ns : Namespace) (default : PackagePath) :
    (u.check ns default).2.Planted (u.check ns default).2.program.items := by
  refine (u.check_invariant false (J := fun c => c.Planted c.program.items) (by simp) ?_ ?_).2
  · intro c hc _
    exact ⟨[], by simp [hc.program, Program.init, Program.uses], fun _ => rfl⟩
  · intro c id c' _ _ hc hb
    have hc' := hb.planted hc
    rw [← hb.grows.items] at hc'
    exact hc'.perm List.perm_append_comm

/-! Storages of the code -/

namespace Code

mutual
/-- The storages of all variables that are read or written in the code. -/
def storages : Code → List Storage
  | value _ _ | defineData _ _ _ _ => []
  | read s _ => [s]
  | write s v _ => s :: v.storages
  | interpolation cs _ | block cs _ | array cs _ => storagesOfAll cs
  | defineFunction _ _ v _ | defineVariable _ v _ | declareLocal _ _ v _
  | function _ v _ | field v _ _ | unary _ v _ | test v _ _ => v.storages
  | index l r _ | binary _ l r _ | loop l r _ => l.storages ++ r.storages
  | writeIndex r i v _ => r.storages ++ (i.storages ++ v.storages)
  | call callee args _ => callee.storages ++ storagesOfAll args
  | branch c t e _ => c.storages ++ (t.storages ++ storagesOfOption e)
  | ret v _ => storagesOfOption v
def storagesOfAll : List Code → List Storage
  | [] => []
  | c :: cs => c.storages ++ storagesOfAll cs
def storagesOfOption : Option Code → List Storage
  | none => []
  | some c => c.storages
end

theorem storagesOfAll_eq (cs : List Code) : storagesOfAll cs = cs.flatMap storages := by
  induction cs with
  | nil => rfl
  | cons c cs ih => rw [storagesOfAll, ih, List.flatMap_cons]

/-- The storage of the code itself, and those of its parts. -/
theorem storages_eq (code : Code) :
    code.storages = code.storage?.toList ++ code.children.flatMap storages := by
  cases code with
  | branch c t e span => cases e <;> simp [storages, storagesOfOption, storage?, children]
  | ret v span => cases v <;> simp [storages, storagesOfOption, storage?, children]
  | _ => simp [storages, storagesOfAll_eq, storage?, children]

end Code

/-- The storages in the code of all items. -/
def LoweredProgram.storages (p : LoweredProgram) : List Storage := p.items.flatMap Code.storages

namespace Expr

variable {p : Program} {g : Nat → Code} {k : Access → Storage} {e : Expr} {code : Code}

theorem storages_of_lowerPart {q : ExprPart} {span : Span}
    (h : q.lower (fun i => .ok (g i)) span = .ok code) :
    code.storages = q.ids.flatMap fun i => (g i).storages := by
  cases q with
  | text s =>
    cases h
    rfl
  | expr i =>
    cases h
    simp [ExprPart.ids]

theorem storages_of_lowerParts {ps : List ExprPart} {span : Span} {codes : List Code}
    (h : ps.mapM (ExprPart.lower (fun i => .ok (g i)) span) = .ok codes) :
    codes.flatMap Code.storages = (ps.flatMap ExprPart.ids).flatMap fun i => (g i).storages := by
  induction ps generalizing codes with
  | nil =>
    cases h
    rfl
  | cons q ps ih =>
    rw [List.mapM_cons] at h
    obtain ⟨code, hcode, h⟩ := bind_eq_ok.mp h
    obtain ⟨codes, hcodes, h⟩ := bind_eq_ok.mp h
    cases h
    rw [List.flatMap_cons, List.flatMap_cons, List.flatMap_append, ih hcodes,
      storages_of_lowerPart hcode]

/-- The code of an expression has the storage of its own use of a variable, and those in its parts. -/
theorem storages_of_lower (hk : ∀ a, e.access? = some a → Storage.classify p.scopes a = .ok (k a))
    (h : e.lower p (fun i => .ok (g i)) = .ok code) :
    code.storages = e.access?.toList.map k ++ e.parts.flatMap fun i => (g i).storages := by
  rw [Code.storages_eq]
  cases e with
  | error s => cases h
  | read a =>
    rw [lower, hk a rfl] at h
    cases h
    rfl
  | assign a v s =>
    rw [lower, hk a rfl] at h
    cases h
    rfl
  | interpolation ps s =>
    obtain ⟨codes, hcodes, h⟩ := bind_eq_ok.mp h
    cases h
    exact storages_of_lowerParts hcodes
  | block scope ids s | array ids s =>
    rw [lower, mapM_ok] at h
    cases h
    simp [Code.storage?, Code.children, access?, parts, List.flatMap_map]
  | call callee args s =>
    rw [lower, mapM_ok] at h
    cases h
    simp [Code.storage?, Code.children, access?, parts, List.flatMap_map]
  | branch c t e s => cases e <;> cases h <;> simp [Code.storage?, Code.children, access?, parts]
  | ret v s => cases v <;> cases h <;> simp [Code.storage?, Code.children, access?, parts]
  | _ =>
    cases h
    simp [Code.storage?, Code.children, access?, parts]

end Expr

/-! Programs -/

namespace Program

variable {p : Program}

/-- What is collected from all expressions, by their numbers. -/
theorem flatMap_exprs {α : Type} (p : Program) (f : Expr → List α) :
    (p.exprs.toList.flatMap fun e => f e.expr) =
      (List.range p.exprs.size).flatMap fun i => (p.expr? i).elim [] f := by
  have hexprs : p.exprs.toList.map (fun e => f e.expr) =
      (List.range p.exprs.size).map fun i => (p.expr? i).elim [] f := by
    apply List.ext_getElem
    · simp
    · intro i hi _
      have hlt : i < p.exprs.size := by simpa using hi
      simp [expr?, hlt]
  rw [List.flatMap_def, List.flatMap_def, hexprs]

/-- The storage of a use of a variable, of those that have one. -/
def storageOf (p : Program) (a : Access) : Storage :=
  match Storage.classify p.scopes a with
  | .ok s => s
  | .error _ => .frame a.target.name

theorem accesses_eq (p : Program) :
    p.accesses = p.exprs.toList.flatMap fun e => e.expr.access?.toList := by
  rw [accesses, List.filterMap_eq_flatMap_toList]

theorem Sound.classify_eq (hp : p.Sound) {i : Nat} {e : Expr} {a : Access} (he : p.expr? i = some e)
    (ha : e.access? = some a) : Storage.classify p.scopes a = .ok (p.storageOf a) := by
  obtain ⟨s, hs⟩ := (hp.access i e a he ha).classify
  rw [storageOf, hs]

theorem Sound.storages_eq (hp : p.Sound) :
    p.storages = .ok (p.accesses.map fun a => (a.target.name, p.storageOf a)) := by
  have hall : ∀ a ∈ p.accesses, (Storage.classify p.scopes a).map (a.target.name, ·) =
      .ok (a.target.name, p.storageOf a) := by
    intro a ha
    obtain ⟨x, hx, hxa⟩ := List.mem_filterMap.mp ha
    obtain ⟨i, hi, rfl⟩ := List.getElem_of_mem hx
    have hlt : i < p.exprs.size := by simpa using hi
    rw [hp.classify_eq (i := i) (e := p.exprs[i].expr) (by simp [expr?, hlt]) (by simpa using hxa)]
    rfl
  rw [storages, mapM_congr hall]
  exact List.mapM_pure

/-- The storages of a forest are listed with the uses of variables, and are those in the code. -/
theorem Sound.storages_perm (hp : p.Sound) (herror : ∀ i span, p.expr? i ≠ some (.error span))
    (hforest : (p.uses ++ p.items).Perm (List.range p.exprs.size)) :
    ∃ ss lowered, p.storages = .ok ss ∧ p.lower = .ok lowered ∧
      (ss.map Prod.snd).Perm lowered.storages := by
  let inCode (i : Nat) : List Storage := (p.code i).storages
  let own (e : Expr) : List Storage := e.access?.toList.map p.storageOf
  refine ⟨_, _, hp.storages_eq, hp.lower_eq herror, ?_⟩
  have hcode : ∀ i ∈ List.range p.exprs.size,
      inCode i = (p.expr? i).elim [] own ++ ((p.expr? i).elim [] Expr.parts).flatMap inCode := by
    intro i hi
    obtain ⟨e, he⟩ := exists_expr? (List.mem_range.mp hi)
    rw [he]
    exact Expr.storages_of_lower (fun a ha => hp.classify_eq he ha) (hp.lower_code herror he)
  -- the code of all expressions, once by what each adds to its parts, and once by the forest
  have hadd : (p.accesses.map p.storageOf ++ p.uses.flatMap inCode).Perm
      ((List.range p.exprs.size).flatMap inCode) := by
    have hown : p.accesses.map p.storageOf =
        (List.range p.exprs.size).flatMap fun i => (p.expr? i).elim [] own := by
      rw [accesses_eq, List.map_flatMap]
      exact p.flatMap_exprs own
    have hparts : p.uses.flatMap inCode =
        (List.range p.exprs.size).flatMap fun i => ((p.expr? i).elim [] Expr.parts).flatMap inCode := by
      rw [uses, p.flatMap_exprs Expr.parts, List.flatMap_assoc]
    rw [hown, hparts, List.flatMap_congr hcode]
    exact List.flatMap_append_perm _ _ _
  have hsplit : (p.uses.flatMap inCode ++ p.items.flatMap inCode).Perm
      ((List.range p.exprs.size).flatMap inCode) := by
    rw [← List.flatMap_append]
    exact hforest.flatMap_right inCode
  have hlisted : (p.accesses.map fun a => (a.target.name, p.storageOf a)).map Prod.snd =
      p.accesses.map p.storageOf := by simp
  have hlowered : LoweredProgram.storages ⟨p.path, p.items.map p.code⟩ = p.items.flatMap inCode := by
    simp [LoweredProgram.storages, List.flatMap_map, inCode]
  rw [hlisted, hlowered]
  have hcancel := (List.perm_append_comm.trans hadd).trans hsplit.symm
  exact (List.perm_append_left_iff _).mp hcancel

/-- The first expression is a part of the second one. -/
def IsPart (p : Program) (j i : Nat) : Prop := ∃ e, p.expr? i = some e ∧ j ∈ e.parts

/-- From part to part, one comes to an end. -/
theorem Sound.wellFounded_isPart (hp : p.Sound) : WellFounded p.IsPart :=
  Subrelation.wf (fun ⟨e, he, hj⟩ => hp.parts _ e he _ hj) Nat.lt_wfRel.wf

end Program

/-- What a unit becomes is a forest: parts have smaller numbers, and no expression is used twice. So
lowering needs no bound. Without reports every expression is used, and the storages that are listed
are those that are read or written in the code. -/
theorem SourceUnit.forest_check (u : SourceUnit) (ns : Namespace) (default : PackagePath) :
    let p := (u.check ns default).2.program
    let reports := (u.check ns default).2.diagnostics
    (u.check ns default).1 = .ok () ∧
    (∀ i e, p.expr? i = some e → ∀ j ∈ e.parts, j < i) ∧
    (∀ i, (p.uses ++ p.items).count i ≤ if i < p.exprs.size then 1 else 0) ∧
    (reports = [] → ∀ i < p.exprs.size, (p.uses ++ p.items).count i = 1) ∧
    WellFounded p.IsPart ∧ (∀ i e, p.expr? i = some e → p.lowerExpr i = e.lower p p.lowerExpr) ∧
    (reports = [] → ∃ ss lowered, p.storages = .ok ss ∧ p.lower = .ok lowered ∧
      (ss.map Prod.snd).Perm lowered.storages) := by
  intro p reports
  obtain ⟨hok, hp, hreported⟩ := u.sound_check ns default
  obtain ⟨dropped, hperm, hdropped⟩ := u.planted_check ns default
  rw [← List.append_assoc] at hperm
  have hcount (i : Nat) : (p.uses ++ p.items).count i + dropped.count i =
      if i < p.exprs.size then 1 else 0 := by
    rw [← List.count_append, hperm.count_eq i, List.count_range]
  have hwhole (hnone : reports = []) : (p.uses ++ p.items).Perm (List.range p.exprs.size) := by
    rwa [hdropped hnone, List.append_nil] at hperm
  refine ⟨hok, hp.parts, fun i => ?_, fun hnone i hi => ?_, hp.wellFounded_isPart,
    fun i e he => hp.lowerExpr_eq he, fun hnone => ?_⟩
  · have := hcount i
    omega
  · rw [(hwhole hnone).count_eq i, List.count_range, if_pos hi]
  · exact hp.storages_perm (fun i span he => hreported i span he hnone) (hwhole hnone)

/-- The unit `var n = 1` with `n = n + n` on the next line. -/
def doubling : SourceUnit := (Parsed.ofSource "var n = 1\nn = n + n").unit

theorem forest_check_doubling :
    let c := (doubling.check .withPrelude ⟨"user", "default"⟩).2
    c.diagnostics = [] ∧ ∃ ss lowered, c.program.storages = .ok ss ∧ c.program.lower = .ok lowered ∧
      (ss.map Prod.snd).Perm lowered.storages := by
  have hnone : (doubling.check .withPrelude ⟨"user", "default"⟩).2.diagnostics = [] := by cbv
  obtain ⟨_, _, _, _, _, _, hstorages⟩ := doubling.forest_check .withPrelude ⟨"user", "default"⟩
  exact ⟨hnone, hstorages hnone⟩

end Tern
