import Tern.Proofs.Horizon.Expr
import Tern.Proofs.Check.Unit

/-!
A whole unit stays within a horizon in which all packages are seen that it imports or names by their
paths.
-/

set_option autoImplicit false

namespace Tern

/-- Every package that the unit mentions is seen. -/
structure Horizon.AdmitsUnit (h : Horizon) (u : SourceUnit) : Prop where
  imports : ∀ decl ∈ u.imports, h.sees decl.path
  items : ∀ n ∈ u.items, ∀ m ∈ n.nodes, h.Admits m

/-- Imports depend on nothing but the packages that they name. -/
theorem Imports.ofDecls_congr {ns e : Namespace} (module : String) {decls : List ImportDecl}
    (h : ∀ decl ∈ decls, e.package? decl.path = ns.package? decl.path) :
    ofDecls e module decls = ofDecls ns module decls := by
  have hdecl : ∀ o, ∀ decl ∈ decls, addDecl e module o decl = addDecl ns module o decl := by
    intro o decl hmem
    rw [addDecl, addDecl, h decl hmem]
  rw [ofDecls, ofDecls]
  generalize (({}, []) : Outcome) = o
  induction decls generalizing o with
  | nil => rfl
  | cons decl decls ih =>
    rw [List.forall_mem_cons] at h
    rw [List.foldl_cons, List.foldl_cons, hdecl o decl List.mem_cons_self]
    exact ih h.2 (fun o d hd => hdecl o d (List.mem_cons_of_mem decl hd)) _

namespace Check

variable {h : Horizon} {c : Context} {e : Namespace}

theorem stays_setImports (hc : h.Covers c e) {decls : List ImportDecl}
    (hd : ∀ decl ∈ decls, h.sees decl.path) : Stays h Any (setImports decls) c e := by
  have himports : Imports.ofDecls e c.path.module decls = Imports.ofDecls c.ns c.path.module decls :=
    Imports.ofDecls_congr _ fun decl hmem => hc.same _ (hd decl hmem)
  refine ⟨e, ?_, ⟨⟨{ hc.within with names := ?_, packages := ?_ }, hc.same⟩, .refl c.ns, rfl⟩, trivial⟩
  · change ((), (c.moved e).importing decls) = ((), (c.importing decls).moved e)
    simp only [Context.importing, Context.moved, himports]
  · intro x i hx
    obtain ⟨decl, hmem, hpath, _⟩ := Imports.exists_of_name?_ofDecls hx
    exact hpath ▸ hd decl hmem
  · intro x path hx
    obtain ⟨decl, hmem, hpath⟩ := Imports.exists_of_package?_ofDecls hx
    exact hpath ▸ hd decl hmem

/-! Registration -/

theorem stays_shellOf (hc : h.Covers c e) (n : Node) : Stays h Any (shellOf n) c e := by
  cases n with
  | data decl span =>
    let d : Definition := ⟨c.path, decl.name, decl.typeParams, decl.isPublic, []⟩
    have hd : d.Obeys (h.rule c.ns) := by simp [Definition.Obeys, d]
    exact ⟨_, rfl, hc.leads_introduce (d := d) rfl hd, trivial⟩
  | _ => exact stays_pure hc trivial

theorem stays_definitionOf (hc : h.Covers c e) (n : Node) : Stays h Any (definitionOf n) c e := by
  cases n with
  | data decl span =>
    refine (stays_definition hc decl).bind fun d c' e' hl hd => ?_
    exact stays_define hl.covers (hd.1.trans hl.path.symm) hd.2
  | _ => exact stays_pure hc trivial

theorem stays_functionOf (hc : h.Covers c e) (n : Node) : Stays h Any (functionOf n) c e := by
  cases n with
  | function head body span =>
    refine (stays_signature hc true head).bind fun sig c' e' hl hsig => ?_
    exact stays_declare hl.covers (founds_functionType hsig)
  | _ => exact stays_pure hc trivial

theorem stays_register (hc : h.Covers c e) (nodes : List Node) :
    Stays h Any (register nodes) c e := by
  refine (stays_forM (fun n _ _ _ hl => stays_shellOf hl.covers n) hc).bind fun _ c₁ e₁ h₁ _ => ?_
  refine (stays_forM (fun n _ _ _ hl => stays_definitionOf hl.covers n) h₁.covers).bind
    fun _ c₂ e₂ h₂ _ => ?_
  exact stays_forM (fun n _ _ _ hl => stays_functionOf hl.covers n) h₂.covers

/-! Items -/

theorem stays_packageFunction (hc : h.Covers c e) (head : FunctionHead) {body : List Node}
    (ha : ∀ m ∈ Node.allNodes body, h.Admits m) (span : Span) :
    Stays h Any (packageFunction head body span) c e := by
  unfold packageFunction
  have hsymbol : (c.moved e).ns.symbol? (c.moved e).path head.name = c.ns.symbol? c.path head.name :=
    hc.same.symbol?_eq hc.within.path head.name
  refine stays_get_bind ?_ (stays_ite (fun _ => stays_pure hc trivial) fun _ => ?_)
  · rw [hsymbol]
    rfl
  · refine (stays_signature hc false head).bind fun sig c₁ e₁ h₁ hsig => ?_
    obtain ⟨ps, ret⟩ := sig
    refine (stays_declare (s := ⟨head.name, functionType ps ret, head.isPublic, false⟩) h₁.covers
      (founds_functionType hsig)).bind fun _ c₂ e₂ h₂ _ => ?_
    refine (stays_declaredFunction h₂.covers head.typeParams (h₂.foundsSignature hsig)
      (local_exprs body ha) _ span).bind fun i c₃ e₃ h₃ _ => ?_
    refine (stays_alloc h₃.covers _ (Ty.obeys_primitive _) ?_).bind fun j _ _ h₄ _ => ?_
    · trivial
    exact stays_pure h₄.covers trivial

theorem stays_packageData (hc : h.Covers c e) (decl : DataDecl) (span : Span) :
    Stays h Any (packageData decl span) c e := by
  unfold packageData
  have hdefinition : (c.moved e).ns.definition? (c.moved e).path decl.name =
      c.ns.definition? c.path decl.name := hc.same.definition?_eq hc.within.path decl.name
  refine stays_get_bind ?_ ?_
  · rw [hdefinition]
    rfl
  · cases hd : c.ns.definition? c.path decl.name with
    | none => exact stays_pure hc trivial
    | some d =>
      have hobeys : d.Obeys (h.rule c.ns) := (hc.within.ns.of_definition? hc.within.path hd).2
      refine (stays_alloc hc (.defineData d span) (Ty.obeys_primitive _) hobeys).bind
        fun i _ _ hl _ => ?_
      exact stays_pure hl.covers trivial

theorem stays_item (hc : h.Covers c e) {n : Node} (ha : ∀ m ∈ n.nodes, h.Admits m) :
    Stays h Any (item n) c e := by
  have hother : Stays h Any (do return Except.ok (← expr n) : Check (Except CheckFault Nat)) c e :=
    (local_expr n ha c e hc).bind fun i _ _ hl _ => stays_pure hl.covers trivial
  cases n with
  | function head body span =>
    simp only [Node.nodes, List.forall_mem_cons] at ha
    exact stays_packageFunction hc head ha.2 span
  | data decl span => exact stays_packageData hc decl span
  | _ => exact hother

theorem stays_items (hc : h.Covers c e) {nodes : List Node}
    (ha : ∀ n ∈ nodes, ∀ m ∈ n.nodes, h.Admits m) : Stays h Any (items nodes) c e := by
  induction nodes generalizing c e with
  | nil => exact stays_pure hc trivial
  | cons n nodes ih =>
    rw [List.forall_mem_cons] at ha
    refine (stays_item hc ha.1).bind fun r c₁ e₁ h₁ _ => ?_
    cases r with
    | error fault => exact stays_pure h₁.covers trivial
    | ok id =>
      have hadded : Stays h Any (modify fun c : Context => c.addItem id : Check Unit) c₁ e₁ :=
        ⟨e₁, rfl, ⟨⟨{ h₁.covers.within with }, h₁.covers.same⟩, .refl c₁.ns, rfl⟩, trivial⟩
      exact hadded.bind fun _ c₂ e₂ h₂ _ => ih h₂.covers ha.2

theorem stays_unit (hc : h.Covers c e) {u : SourceUnit} (hu : h.AdmitsUnit u) :
    Stays h Any (unit u) c e := by
  refine (stays_setImports hc hu.imports).bind fun _ c₁ e₁ h₁ _ => ?_
  refine (stays_forM (fun cycle _ _ _ hl => stays_report hl.covers _ _) h₁.covers).bind
    fun _ c₂ e₂ h₂ _ => ?_
  refine (stays_register h₂.covers u.items).bind fun _ c₃ e₃ h₃ _ => ?_
  exact stays_items h₃.covers fun n hn => hu.items n (mem_of_mem_ordered hn)

end Check

/-- Within the horizon there is only one way to check the unit. -/
theorem SourceUnit.stays_check {h : Horizon} {u : SourceUnit} (hu : h.AdmitsUnit u)
    {ns e : Namespace} (default : PackagePath) (hown : h.sees (u.path default))
    (hprelude : h.sees Namespace.preludePath) (hns : ns.Obeys h.sees (h.rule ns)) (hs : h.Same ns e) :
    ∃ f, u.check e default = ((u.check ns default).1, (u.check ns default).2.moved f) ∧
      (u.check ns default).2.Within h ∧ h.Same (u.check ns default).2.ns f := by
  have hkeeps := (ns.grows_ensurePackage (u.path default)).keeps
  have hobeys : (ns.ensurePackage (u.path default)).Obeys h.sees
      (h.rule (ns.ensurePackage (u.path default))) :=
    (hns.mono fun _ => Horizon.obeys_of_keeps hkeeps).ensurePackage (u.path default)
  have hwithin : (Context.init ns (u.path default)).Within h :=
    { path := hown
      prelude := hprelude
      names := by simp [Context.init, Imports.name?]
      packages := by simp [Context.init, Imports.package?]
      ns := hobeys
      types := fun i => by simp [Context.init, Program.init, Program.type, Ty.any]
      exprs := by simp [Context.init, Program.init]
      scopes := ScopeTree.obeys_init }
  obtain ⟨f, hrun, hl, _⟩ := Check.stays_unit
    ⟨hwithin, hs.modifyPackage (u.path default) (f := id) fun _ => rfl⟩ hu
  exact ⟨f, hrun, hl.covers.within, hl.covers.same⟩

end Tern
