import Tern.Reference
import Tern.Proofs.Check.Remarks

/-!
Declarations that are made known to the package. They only add to it, and what is reported meanwhile
is not that a name is unrecognized.
-/

set_option autoImplicit false

namespace Tern

namespace Context

/-- There is more in the package, as far as permitted, and there are more reports, but none of a
name. -/
def Enlarged (permit : Permit) (c c' : Context) : Prop :=
  ∃ ns ds, c' = c.later ns ds ∧ c.ns.Alters c.path permit.declares permit.defines ns ∧
    ∀ d ∈ ds, d.problem.IsRemark

/-- The package has what an item declares apart from variables. -/
def Registered (c : Context) : Node → Prop
  | .function head _ _ => (c.ns.symbol? c.path head.name).isSome
  | .data decl _ =>
    (c.ns.definition? c.path decl.name).isSome ∧
      ∀ x ∈ decl.cases.map CaseDecl.name, (c.ns.symbol? c.path x).isSome
  | _ => True

variable {permit : Permit} {c c' c'' : Context}

theorem Enlarged.refl (c : Context) : c.Enlarged permit c :=
  ⟨c.ns, [], c.later_nil.symm, .refl _, by simp⟩

theorem Enlarged.trans (h : c.Enlarged permit c') (k : c'.Enlarged permit c'') :
    c.Enlarged permit c'' := by
  obtain ⟨ns, ds, rfl, hns, hds⟩ := h
  obtain ⟨ns', ds', rfl, hns', hds'⟩ := k
  refine ⟨ns', ds ++ ds', later_later c ns ns' ds ds', hns.trans hns', ?_⟩
  intro d hd
  rcases List.mem_append.mp hd with hd | hd
  · exact hds d hd
  · exact hds' d hd

theorem Enlarged.grows (h : c.Enlarged permit c') : c.Grows c' := by
  obtain ⟨ns, ds, rfl, hns, _⟩ := h
  exact grows_later hns.toGrows ds

theorem enlarged_ns {ns : Namespace} (h : c.ns.Alters c.path permit.declares permit.defines ns) :
    c.Enlarged permit { c with ns } :=
  ⟨ns, [], by simp [later], h, by simp⟩

/-- What is registered stays so. -/
theorem Grows.registered {n : Node} (h : c.Grows c') (hn : c.Registered n) : c'.Registered n := by
  cases n with
  | function head body span =>
    simp only [Registered] at hn ⊢
    rw [h.path]
    exact h.ns.symbol _ _ hn
  | data decl span =>
    simp only [Registered] at hn ⊢
    rw [h.path]
    exact ⟨h.ns.definition _ _ hn.1, fun x hx => h.ns.symbol _ _ (hn.2 x hx)⟩
  | _ => trivial

end Context

namespace Check

variable {permit : Permit} {c : Context}

theorem Remarks.enlarged {α : Type} {m : Check α} (hm : Remarks m) (permit : Permit) :
    m.Yields c fun _ c' => c.Enlarged permit c' :=
  (hm c).mono fun _ _ ⟨ds, hc, hds⟩ => ⟨c.ns, ds, hc, .refl _, hds⟩

/-- Steps that make something known, one after the other. -/
theorem yields_forM {α : Type} {f : α → Check Unit} {Q : α → Context → Prop} (as : List α)
    (hf : ∀ a ∈ as, ∀ c, Yields (f a) c fun _ c' => c.Enlarged permit c' ∧ Q a c')
    (hQ : ∀ a c c', c.Grows c' → Q a c → Q a c') :
    Yields (as.forM f) c fun _ c' => c.Enlarged permit c' ∧ ∀ a ∈ as, Q a c' := by
  induction as generalizing c with
  | nil => exact ⟨.refl c, by simp⟩
  | cons a as ih =>
    refine (hf a List.mem_cons_self c).bind fun _ c₁ ⟨h₁, ha⟩ => ?_
    refine (ih fun b hb => hf b (List.mem_cons_of_mem a hb)).mono fun _ c₂ ⟨h₂, has⟩ => ?_
    refine ⟨h₁.trans h₂, ?_⟩
    rintro b (_ | ⟨_, hb⟩)
    · exact hQ _ _ _ h₂.grows ha
    · exact has b hb

theorem yields_mapM {α β γ : Type} {f : α → Check β} {key : α → γ} {key' : β → γ}
    (h : ∀ a c, Yields (f a) c fun b _ => key' b = key a) (as : List α) :
    Yields (as.mapM f) c fun bs _ => bs.map key' = as.map key := by
  induction as generalizing c with
  | nil => exact rfl
  | cons a as ih =>
    rw [List.mapM_cons]
    refine (h a c).bind fun b c₁ hb => ih.bind fun bs c₂ hbs => ?_
    exact yields_pure (by simp [hb, hbs])

theorem yields_params (reports : Bool) (ps : List Param) :
    Yields (params reports ps) c fun ts _ => ts.map TypedParam.name = ps.map Param.name := by
  have hparam (p : Param) (c : Context) :
      Yields (do return (⟨p.name, ← resolveType reports p.type⟩ : TypedParam)) c fun t _ =>
        t.name = p.name := rfl
  exact yields_mapM hparam ps

theorem yields_withGenerics {α : Type} {names : List String} {step : Check α}
    {Q : α → Context → Prop}
    (h : Yields step { c with generics := c.generics ++ names } fun a c' =>
      Q a { c' with generics := c.generics }) : Yields (withGenerics names step) c Q := h

theorem yields_signature (reports : Bool) (head : FunctionHead) :
    Yields (signature reports head) c fun sig _ =>
      sig.1.map TypedParam.name = head.params.map Param.name :=
  yields_withGenerics ((yields_params reports head.params).bind fun _ _ h => h)

/-- A definition has the name and the cases that are written. -/
theorem yields_definition (decl : DataDecl) :
    Yields (definition decl) c fun d _ =>
      d.name = decl.name ∧ d.cases.map Case.name = decl.cases.map CaseDecl.name := by
  unfold definition
  refine Yields.bind (P := fun cs _ => cs.map Case.name = decl.cases.map CaseDecl.name) ?_
    fun cs c₁ hcs => ⟨rfl, hcs⟩
  refine yields_withGenerics ?_
  have hcase (k : CaseDecl) (c : Context) :
      Yields (do return (⟨k.name, ← fields decl.isPublic k.fields, k.isPublic || decl.isPublic⟩ : Case))
        c fun b _ => b.name = k.name := rfl
  exact yields_mapM hcase decl.cases

theorem yields_declare (s : Symbol) (hs : permit.declares s.name) :
    Yields (declare s) c fun _ c' => c.Enlarged permit c' ∧ (c'.ns.symbol? c'.path s.name).isSome :=
  ⟨Context.enlarged_ns (Namespace.alters_addSymbol _ s hs),
    (Namespace.symbol?_addSymbol_iff _ _ _ _ _).mpr (Or.inl ⟨rfl, rfl⟩)⟩

/-- With a definition its constructors are declared. -/
theorem yields_define (d : Definition) (hd : permit.defines d.name)
    (hcs : ∀ x ∈ d.cases.map Case.name, permit.declares x) :
    Yields (define d) c fun _ c' => c.Enlarged permit c' ∧ (c'.ns.definition? c'.path d.name).isSome ∧
      ∀ x ∈ d.cases.map Case.name, (c'.ns.symbol? c'.path x).isSome := by
  unfold define
  have hcase (k : Case) (hk : k ∈ d.cases) (c : Context) := yields_declare (c := c)
    ⟨k.name, d.constructorType k, k.isPublic, false⟩ (hcs k.name (List.mem_map_of_mem hk))
  refine (yields_forM d.cases hcase fun k c c' h hk => ?_).bind fun _ c₁ ⟨h₁, hsome⟩ => ?_
  · rw [h.path]
    exact h.ns.symbol _ _ hk
  · refine ⟨h₁.trans (Context.enlarged_ns (Namespace.alters_define _ d hd)), ?_, ?_⟩
    · exact (Namespace.definition?_define_iff _ _ _ _ _).mpr (Or.inl ⟨rfl, rfl⟩)
    · intro x hx
      obtain ⟨k, hk, rfl⟩ := List.mem_map.mp hx
      change ((c₁.ns.define c₁.path d).symbol? c₁.path k.name).isSome
      rw [Namespace.symbol?_define]
      exact hsome k hk

/-- The definition of a declaration, made known. -/
theorem yields_define_of {decl : DataDecl} {d : Definition} {span : Span}
    (h : d.name = decl.name ∧ d.cases.map Case.name = decl.cases.map CaseDecl.name)
    (hn : permit.Covers (.data decl span)) :
    Yields (define d) c fun _ c' => c.Enlarged permit c' ∧ c'.Registered (.data decl span) :=
  (yields_define d (h.1 ▸ hn.1) (h.2 ▸ hn.2)).mono fun _ _ ⟨hc, hd, hcs⟩ => ⟨hc, h.1 ▸ hd, h.2 ▸ hcs⟩

theorem yields_shellOf {n : Node} (hn : permit.Covers n) :
    Yields (shellOf n) c fun _ c' => c.Enlarged permit c' := by
  cases n with
  | data decl span => exact Context.enlarged_ns (Namespace.alters_define _ _ hn.1)
  | _ => exact .refl c

theorem yields_definitionOf {n : Node} (hn : permit.Covers n) :
    Yields (definitionOf n) c fun _ c' =>
      c.Enlarged permit c' ∧ (n.isFunction = false → c'.Registered n) := by
  cases n with
  | data decl span =>
    refine (((remarks_definition decl).enlarged permit).and (yields_definition decl)).bind
      fun d c₁ ⟨h₁, hd⟩ => ?_
    exact (yields_define_of hd hn).mono fun _ c₂ ⟨h₂, hr⟩ => ⟨h₁.trans h₂, fun _ => hr⟩
  | function head body span => exact ⟨.refl c, by simp [Node.isFunction]⟩
  | _ => exact ⟨.refl c, fun _ => trivial⟩

theorem yields_functionOf {n : Node} (hn : ∀ x ∈ n.declaredNames, permit.declares x) :
    Yields (functionOf n) c fun _ c' =>
      c.Enlarged permit c' ∧ (n.isFunction = true → c'.Registered n) := by
  cases n with
  | function head body span =>
    refine ((remarks_signature true head).enlarged permit).bind fun sig c₁ h₁ => ?_
    refine (yields_declare _ (hn _ List.mem_cons_self)).mono fun _ c₂ ⟨h₂, hs⟩ => ?_
    exact ⟨h₁.trans h₂, fun _ => hs⟩
  | _ => exact ⟨.refl c, by simp [Node.isFunction]⟩

/-- Types come first, then their cases. -/
def registerTypes (items : List Node) : Check Unit := do
  items.forM shellOf
  items.forM definitionOf

theorem register_eq (items : List Node) :
    register items = (do registerTypes items; items.forM functionOf) := by
  simp only [register, registerTypes, bind_assoc]

theorem yields_registerTypes {items : List Node} (hitems : ∀ n ∈ items, permit.Covers n) :
    Yields (registerTypes items) c fun _ c' =>
      c.Enlarged permit c' ∧ ∀ n ∈ items, n.isFunction = false → c'.Registered n := by
  have hshell (n : Node) (hn : n ∈ items) (c : Context) :
      Yields (shellOf n) c fun _ c' => c.Enlarged permit c' ∧ True :=
    (yields_shellOf (hitems n hn)).mono fun _ _ h => ⟨h, trivial⟩
  refine (yields_forM items hshell fun _ _ _ _ h => h).bind fun _ c₁ ⟨h₁, _⟩ => ?_
  refine (yields_forM items (fun n hn _ => yields_definitionOf (hitems n hn))
    fun n c c' h hn hi => h.registered (hn hi)).mono fun _ c₂ ⟨h₂, hdata⟩ => ?_
  exact ⟨h₁.trans h₂, hdata⟩

theorem yields_functions {items : List Node}
    (hitems : ∀ n ∈ items, ∀ x ∈ n.declaredNames, permit.declares x) :
    Yields (items.forM functionOf) c fun _ c' =>
      c.Enlarged permit c' ∧ ∀ n ∈ items, n.isFunction = true → c'.Registered n :=
  yields_forM items (fun n hn _ => yields_functionOf (hitems n hn))
    fun _ _ _ h hn hi => h.registered (hn hi)

end Check

end Tern
