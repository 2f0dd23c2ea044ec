import Tern.Proofs.Check.Unit
import Tern.Proofs.Lower

/-!
The expressions that checking makes. Every one of them comes after its parts, what failed to check is
reported, and a use of a variable stands inside the scope that declares it.
-/

set_option autoImplicit false

namespace Tern

/-- The tree has one more scope, inside the scope `parent`. -/
structure ScopeTree.Opens (t : ScopeTree) (parent : Nat) (t' : ScopeTree) : Prop where
  placed : parent < t.size
  older : t.Extends t'
  size : t'.size = t.size + 1
  scope : ∃ s, t'.scope? t.size = some s ∧ s.parent = some parent ∧
    ∀ x, s.Declares x → x ∈ s.parameters

theorem ScopeTree.Opens.ancestors_eq {t t' : ScopeTree} {parent : Nat} (h : t.Opens parent t') :
    t'.ancestors t.size = t.size :: t.ancestors parent := by
  obtain ⟨s, hs, hp, _⟩ := h.scope
  exact h.older.ancestors_new hs hp h.placed

namespace Context

variable {c c' : Context}

/-- The expression can be made here. -/
structure Admits (permit : Permit) (c : Context) (e : Expr) : Prop where
  parts : ∀ i ∈ e.parts, i < c.program.exprs.size
  reported : ∀ span, e = .error span → c.diagnostics ≠ []
  access : ∀ a, e.access? = some a → c.Sees a
  warrant : permit.Warrants c e

theorem opens_enter (h : c.scope < c.program.scopes.size) (kind : ScopeKind) :
    c.program.scopes.Opens c.scope (c.program.scopes.createChild c.scope kind) where
  placed := h
  older := ScopeTree.extends_createChild _ _ _
  size := rfl
  scope := ⟨_, ScopeTree.scope?_createChild_self _ _ _, rfl, by simp [Scope.Declares, Symbol.find?]⟩

theorem opens_enterFunction (h : c.scope < c.program.scopes.size) (ps : List TypedParam) :
    c.program.scopes.Opens c.scope ((c.program.scopes.createChild c.scope .function).addParameters
      c.program.scopes.size ps) where
  placed := h
  older := ScopeTree.extends_addParameters _ _ _ _
  size := ScopeTree.size_addParameters _ _ _
  scope := by
    obtain ⟨s, hs, hp, _, hparams, hdecl⟩ := ScopeTree.scope?_addParameters_self ps
      (c.program.scopes.scope?_createChild_self c.scope .function)
    refine ⟨s, hs, hp, fun x hx => ?_⟩
    simpa [hparams, Scope.Declares, Symbol.find?] using (hdecl x).mp hx

theorem inBlock_enter (c : Context) : (c.enter .block).InBlock where
  placed := Nat.lt_succ_self _
  kind := by
    have hs := c.program.scopes.scope?_createChild_self c.scope .block
    simp [enter, inside, ScopeTree.isFunction, ScopeTree.kind?, hs]

theorem accesses_alloc (c : Context) (e : Expr) (t : Ty) :
    (c.alloc e t).program.accesses = c.program.accesses ++ e.access?.toList := by
  cases h : e.access? <;> simp [alloc, Program.alloc, Program.accesses, h]

/-- The single changes keep the property. -/
structure Kept (permit : Permit) (J : Context → Prop) : Prop where
  later : ∀ {c : Context} {ns : Namespace} (ds : List Diagnostic), J c →
    c.ns.Grows c.path ns → J (c.later ns ds)
  alloc : ∀ {c : Context} {e : Expr} (t : Ty), J c → c.Admits permit e → J (c.alloc e t)
  declareLocal : ∀ {c : Context} (s : Symbol), J c → c.InBlock → J (c.declareLocal s)
  inside : ∀ {c : Context} {t : ScopeTree} (rs : List Ty), J c →
    c.program.scopes.Opens c.scope t → J (c.inside t rs)
  leave : ∀ {c c' : Context} {t : ScopeTree} (rs : List Ty), J c →
    c.program.scopes.Opens c.scope t → (c.inside t rs).Grows c' → J c' → J (c.leave c')
  generics : ∀ {c : Context} (names : List String), J c → J { c with generics := names }

end Context

namespace Built

variable {permit : Permit} {strict : Bool} {p : Place} {c c' : Context} {ids : List Nat}

theorem ids_lt (h : Built permit strict p c ids c') : ∀ i ∈ ids, i < c'.program.exprs.size := by
  induction h with
  | nil p c => simp
  | append _ k ih ik =>
    intro i hi
    rcases List.mem_append.mp hi with hi | hi
    · exact Nat.lt_of_lt_of_le (ih i hi) k.grows.size_le
    · exact ik i hi
  | later p hns hds => simp
  | generics names h ih => exact ih
  | statement h ih => exact ih
  | anywhere hs h ih => exact ih
  | _ => simp [Context.alloc, Program.alloc, Context.leave, Context.declareLocal]

/-- What the single changes keep is kept by all that is checked. -/
theorem keeps {J : Context → Prop} (hJ : Context.Kept permit J) (h : Built permit strict p c ids c')
    (hin : c.InBlock) (hc : J c) : J c' := by
  induction h with
  | nil p c => exact hc
  | append h k ih ik => exact ik (h.grows.inBlock hin) (ih hin hc)
  | later p hns hds => exact hJ.later _ hc hns.toGrows
  | node p t h he hp ha hw ih =>
    refine hJ.alloc t (ih hin hc) ⟨?_, ?_, ha, hw⟩
    · exact fun i hi => h.ids_lt i (hp.mem_iff.mp hi)
    · rintro span rfl
      exact he.elim
  | error p span h hd ih =>
    exact hJ.alloc .any (ih hin hc) ⟨by simp [Expr.parts], fun _ _ => hd, by simp [Expr.access?], trivial⟩
  | variableDecl s span h ih =>
    have hdecl := hJ.declareLocal s (ih hin hc) (h.grows.inBlock hin)
    exact hJ.alloc .unit hdecl ⟨h.ids_lt, by simp, by simp [Expr.access?], trivial⟩
  | localFunction s m span h ih =>
    have hdecl := ih ((Context.grows_declareLocal _ s).inBlock hin) (hJ.declareLocal s hc hin)
    exact hJ.alloc .unit hdecl ⟨h.ids_lt, by simp, by simp [Expr.access?], trivial⟩
  | block p span t h ih =>
    have ho := Context.opens_enter hin.placed .block
    have hbody := ih (Context.inBlock_enter _) (hJ.inside _ hc ho)
    exact hJ.alloc t (hJ.leave _ hc ho h.grows hbody)
      ⟨h.ids_lt, by simp, by simp [Expr.access?], trivial⟩
  | @function p c c₁ c₂ ids ps ret ret' bodySpan span bodyType t h k hr ih ik =>
    -- the scope of the function, and in it the scope of its body
    have ho := Context.opens_enterFunction hin.placed ps
    have hf := hJ.inside (ret :: c.returnTypes) hc ho
    have ho' := Context.opens_enter (c := c.enterFunction ps ret)
      (ho.size ▸ Nat.lt_succ_self _) .block
    have hbody := ih (Context.inBlock_enter _) (hJ.inside _ hf ho')
    let e : Expr := .block (c.program.scopes.size + 1) ids bodySpan
    have hblock := hJ.alloc (e := e) bodyType (hJ.leave _ hf ho' h.grows hbody)
      ⟨h.ids_lt, by simp [e], by simp [e, Expr.access?], trivial⟩
    have hgrows := h.grows.leaveBlock.trans (Context.grows_alloc _ e bodyType)
    have hleave := hJ.leave _ hc ho hgrows hblock
    have hout := ik ((h.grows.leaveFunction bodySpan bodyType).inBlock hin) hleave
    refine hJ.alloc t hout ⟨?_, by simp, by simp [Expr.access?], trivial⟩
    intro i hi
    obtain rfl := List.mem_singleton.mp hi
    refine Nat.lt_of_lt_of_le ?_ k.grows.size_le
    simp [Context.leaveFunction, Context.leave, Context.alloc, Program.alloc]
  | generics names h ih => exact hJ.generics _ (ih ⟨hin.placed, hin.kind⟩ (hJ.generics _ hc))
  | statement h ih => exact ih hin hc
  | anywhere hs h ih => exact ih hin hc

end Built

/-! Soundness -/

theorem Context.expr?_alloc {c : Context} {e e' : Expr} {t : Ty} {i : Nat}
    (h : (c.alloc e t).program.expr? i = some e') :
    (i = c.program.exprs.size ∧ e' = e) ∨ c.program.expr? i = some e' := by
  by_cases hi : i = c.program.exprs.size
  · left
    simpa [alloc, Program.expr?, Program.alloc, hi, eq_comm] using h
  · right
    simpa [alloc, Program.expr?, Program.alloc, Array.getElem?_push, hi] using h

/-- The program is sound, and every error in it is reported. -/
structure Context.Sound (c : Context) : Prop where
  program : c.program.Sound
  reported : ∀ i span, c.program.expr? i = some (.error span) → c.diagnostics ≠ []

theorem ScopeTree.Refines.inside {t t' : ScopeTree} {a : Access} (h : t.Refines t')
    (ha : a.Inside t) : a.Inside t' := by
  intro declaring name ht
  have hm := ha declaring name ht
  rw [h.ancestors_eq (lt_size_of_mem_ancestors hm)]
  exact hm

theorem Context.Sees.nested {c : Context} {a : Access} {d : Nat} {name : String} (h : c.Sees a)
    (ht : a.target = .nested d name) : c.program.scopes.Sees c.scope d name := by
  have hr := h.target
  rwa [ht] at hr

theorem Context.Sees.inside {c : Context} {a : Access} (h : c.Sees a) :
    a.Inside c.program.scopes := by
  intro declaring name ht
  rw [h.scope]
  exact (h.nested ht).mem

theorem Context.Sound.regrow {c : Context} {t : ScopeTree} (h : c.Sound)
    (ht : c.program.scopes.Refines t) :
    ({ c.program with scopes := t } : Program).Sound where
  parts := h.program.parts
  access := fun i e a he ha => ht.inside (h.program.access i e a he ha)
  items := h.program.items

theorem kept_sound {permit : Permit} : Context.Kept permit Context.Sound where
  later ds h _ := ⟨h.program, fun i span he => by simp [Context.later, h.reported i span he]⟩
  alloc t h ha := by
    refine ⟨⟨?_, ?_, ?_⟩, ?_⟩
    · intro i e hi
      rcases Context.expr?_alloc hi with ⟨rfl, rfl⟩ | hi
      · exact ha.parts
      · exact h.program.parts i e hi
    · intro i e a hi haccess
      rcases Context.expr?_alloc hi with ⟨rfl, rfl⟩ | hi
      · exact (ha.access a haccess).inside
      · exact h.program.access i e a hi haccess
    · intro i hi
      have := h.program.items i hi
      simp only [Context.alloc, Program.alloc, Array.size_push]
      omega
    · intro i span hi
      rcases Context.expr?_alloc hi with ⟨rfl, rfl⟩ | hi
      · exact ha.reported span rfl
      · exact h.reported i span hi
  declareLocal s h _ := ⟨h.regrow (ScopeTree.grows_addSymbol _ _ s).refines, h.reported⟩
  inside rs h ho := ⟨h.regrow ho.older.refines, h.reported⟩
  leave rs _ _ _ h := ⟨h.program, h.reported⟩
  generics names h := ⟨h.program, h.reported⟩

/-- Checking a unit never fails, and what it makes is sound. -/
theorem SourceUnit.sound_check (u : SourceUnit) (ns : Namespace) (default : PackagePath) :
    (u.check ns default).1 = .ok () ∧ (u.check ns default).2.Sound := by
  refine u.check_invariant false (by simp) ?_ ?_
  · intro c hc _
    refine ⟨⟨?_, ?_, ?_⟩, ?_⟩ <;> simp [hc.program, Program.init, Program.expr?]
  · intro c id c' _ hin hc hb
    have hc' := hb.keeps kept_sound hin hc
    refine ⟨⟨hc'.program.parts, hc'.program.access, ?_⟩, hc'.reported⟩
    intro i hi
    rcases List.mem_append.mp hi with hi | hi
    · exact hc'.program.items i hi
    · exact hb.ids_lt i hi

end Tern
