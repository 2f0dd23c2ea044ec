import Tern.Proofs.Horizon
import Tern.Proofs.Check.Rules

/-!
Steps that stay within a horizon. Started in another namespace that looks the same from there, such a
step gives the same value and leads to the same context, but for what the namespaces have out of sight.
-/

set_option autoImplicit false

namespace Tern

namespace Namespace

variable {a b c : Namespace}

theorem Keeps.refl (ns : Namespace) : ns.Keeps ns := fun _ _ h => h

theorem Keeps.trans (h : a.Keeps b) (k : b.Keeps c) : a.Keeps c :=
  fun path x hx => k path x (h path x hx)

theorem Grows.keeps {path : PackagePath} (h : a.Grows path b) : a.Keeps b := h.definition

/-- A definition is made known with its constructors. -/
def introduce (ns : Namespace) (path : PackagePath) (d : Definition) : Namespace :=
  (d.constructors.foldl (fun ns s => ns.addSymbol path s) ns).define path d

theorem grows_addSymbols (ns : Namespace) (path : PackagePath) (symbols : List Symbol) :
    ns.Grows path (symbols.foldl (fun ns s => ns.addSymbol path s) ns) := by
  induction symbols generalizing ns with
  | nil => exact .refl ns path
  | cons s symbols ih => exact (ns.grows_addSymbol path s).trans (ih _)

theorem grows_introduce (ns : Namespace) (path : PackagePath) (d : Definition) :
    ns.Grows path (ns.introduce path d) :=
  (ns.grows_addSymbols path d.constructors).trans (grows_define _ path d)

end Namespace

theorem Namespace.Obeys.addSymbols {rule : TypeRule} {sees : PackagePath → Prop} {ns : Namespace}
    (hr : rule.Stable) (h : ns.Obeys sees rule) (path : PackagePath) {symbols : List Symbol}
    (hs : ∀ s ∈ symbols, s.type.Obeys rule) :
    (symbols.foldl (fun ns s => ns.addSymbol path s) ns).Obeys sees rule := by
  induction symbols generalizing ns with
  | nil => exact h
  | cons s symbols ih =>
    rw [List.forall_mem_cons] at hs
    exact ih (h.addSymbol hr path hs.1) hs.2

theorem Horizon.Same.introduce {h : Horizon} {ns e : Namespace} (hs : h.Same ns e)
    (path : PackagePath) (d : Definition) : h.Same (ns.introduce path d) (e.introduce path d) := by
  refine Same.modifyPackage ?_ path fun _ => rfl
  generalize d.constructors = symbols
  induction symbols generalizing ns e with
  | nil => exact hs
  | cons s symbols ih => exact ih (hs.modifyPackage path fun _ => rfl)

/-- Nothing leads out of the horizon, and the other namespace looks the same from here. -/
structure Horizon.Covers (h : Horizon) (c : Context) (e : Namespace) : Prop where
  within : c.Within h
  same : h.Same c.ns e

/-- What a step leads to: it is covered again, and no definition is lost. -/
structure Horizon.Leads (h : Horizon) (c d : Context) (f : Namespace) : Prop where
  covers : h.Covers d f
  keeps : c.ns.Keeps d.ns
  path : d.path = c.path

/-- The type is founded in the namespace. -/
abbrev Horizon.Founds (h : Horizon) (ns : Namespace) (t : Ty) : Prop := t.Obeys (h.rule ns)

/-- The types of a signature are founded. -/
def Horizon.FoundsSignature (h : Horizon) (ns : Namespace) (sig : List TypedParam × Ty) : Prop :=
  (∀ p ∈ sig.1, h.Founds ns p.type) ∧ h.Founds ns sig.2

namespace Horizon

variable {h : Horizon} {a c d : Context} {e f : Namespace} {s : Symbol} {t : Ty}

theorem Leads.refl (hc : h.Covers c e) : h.Leads c c e := ⟨hc, .refl c.ns, rfl⟩

theorem Leads.trans (hl : h.Leads a c e) (hl' : h.Leads c d f) : h.Leads a d f :=
  ⟨hl'.covers, hl.keeps.trans hl'.keeps, hl'.path.trans hl.path⟩

theorem Leads.founds (hl : h.Leads c d f) (ht : h.Founds c.ns t) : h.Founds d.ns t :=
  obeys_of_keeps hl.keeps ht

theorem Leads.foundsSignature (hl : h.Leads c d f) {sig : List TypedParam × Ty}
    (hsig : h.FoundsSignature c.ns sig) : h.FoundsSignature d.ns sig :=
  ⟨fun p hp => hl.founds (hsig.1 p hp), hl.founds hsig.2⟩

/-! Single changes of a context -/

theorem Covers.alloc (hc : h.Covers c e) {x : Expr} (hx : x.Obeys (h.rule c.ns))
    (ht : h.Founds c.ns t) : h.Covers (c.alloc x t) e := by
  have hexprs : ∀ y ∈ (c.alloc x t).program.exprs, y.expr.Obeys (h.rule c.ns) := by
    intro y hy
    rcases Array.mem_push.mp hy with hy | rfl
    · exact hc.within.exprs y hy
    · exact hx
  refine ⟨{ hc.within with types := ?_, exprs := hexprs }, hc.same⟩
  intro i
  have htype : (c.alloc x t).program.type i =
      if i = c.program.exprs.size then t else c.program.type i := by
    simp only [Context.alloc, Program.alloc, Program.type, Array.getElem?_push]
    split <;> rfl
  rw [htype]
  split
  · exact ht
  · exact hc.within.types i

theorem Covers.scopes (hc : h.Covers c e) {scopes : ScopeTree} (hs : scopes.Obeys (h.rule c.ns)) :
    h.Covers { c with program := { c.program with scopes } } e :=
  ⟨{ hc.within with scopes := hs }, hc.same⟩

theorem Covers.declareLocal (hc : h.Covers c e) (hs : h.Founds c.ns s.type) :
    h.Covers (c.declareLocal s) e :=
  hc.scopes (hc.within.scopes.addSymbol (h.stable_rule c.ns) c.scope hs)

/-- Nothing is said of the surroundings of the current expression. -/
theorem Covers.surroundings (hc : h.Covers c e) (scope : Nat) (returnTypes : List Ty)
    (generics : List String) : h.Covers { c with scope, returnTypes, generics } e :=
  ⟨{ hc.within with }, hc.same⟩

theorem Covers.enter (hc : h.Covers c e) (kind : ScopeKind) : h.Covers (c.enter kind) e :=
  (hc.scopes (hc.within.scopes.createChild c.scope kind)).surroundings _ _ _

theorem Covers.enterFunction (hc : h.Covers c e) {ps : List TypedParam} (ret : Ty)
    (hps : ∀ p ∈ ps, h.Founds c.ns p.type) : h.Covers (c.enterFunction ps ret) e :=
  have hscopes := (hc.within.scopes.createChild c.scope .function).addParameters
    (h.stable_rule c.ns) c.program.scopes.size hps
  (hc.scopes hscopes).surroundings _ _ _

/-- The namespaces change alike. -/
theorem Covers.leads_moved (hc : h.Covers c e) {ns : Namespace} (hk : c.ns.Keeps ns)
    (ho : ns.Obeys h.sees (h.rule ns)) (hs : h.Same ns f) : h.Leads c (c.moved ns) f := by
  have hw : ∀ t : Ty, t.Obeys (h.rule c.ns) → t.Obeys (h.rule ns) := fun t => obeys_of_keeps hk
  exact
    ⟨⟨{ hc.within with
          ns := ho
          types := fun i => hw _ (hc.within.types i)
          exprs := fun x hx => (hc.within.exprs x hx).mono hw
          scopes := hc.within.scopes.mono hw }, hs⟩, hk, rfl⟩

theorem Covers.leads_addSymbol (hc : h.Covers c e) (hs : h.Founds c.ns s.type) :
    h.Leads c (c.moved (c.ns.addSymbol c.path s)) (e.addSymbol c.path s) := by
  have hkeeps := (c.ns.grows_addSymbol c.path s).keeps
  refine hc.leads_moved hkeeps ?_ (hc.same.modifyPackage c.path fun _ => rfl)
  have hns := hc.within.ns.mono fun _ => obeys_of_keeps hkeeps
  exact hns.addSymbol (h.stable_rule _) c.path (obeys_of_keeps hkeeps hs)

/-- The type of a definition is founded once the definition is there; its constructors come before. -/
theorem Covers.leads_introduce (hc : h.Covers c e) {d : Definition} (hpath : d.path = c.path)
    (hd : d.Obeys (h.rule c.ns)) :
    h.Leads c (c.moved (c.ns.introduce c.path d)) (e.introduce c.path d) := by
  have hgrows := c.ns.grows_introduce c.path d
  have hd' : d.Obeys (h.rule (c.ns.introduce c.path d)) := hd.mono fun _ => obeys_of_keeps hgrows.keeps
  have hfound : (c.ns.introduce c.path d).definition? c.path d.name = some d := by
    rw [Namespace.introduce, Namespace.definition?_define, if_pos ⟨rfl, rfl⟩]
  have htype := obeys_type hc.within.path hfound hpath
  have hconstructors : ∀ s ∈ d.constructors, h.Founds (c.ns.introduce c.path d) s.type := by
    intro s hs
    obtain ⟨k, hk, rfl⟩ := List.mem_map.mp hs
    rw [Definition.constructorType, Founds, Ty.obeys_function, Signature.obeys_iff]
    exact ⟨List.forall_mem_map.mpr fun x hx => hd' k hk x hx, htype⟩
  refine hc.leads_moved hgrows.keeps ?_ (hc.same.introduce c.path d)
  have hns := hc.within.ns.mono fun _ => obeys_of_keeps hgrows.keeps
  exact (hns.addSymbols (h.stable_rule _) c.path hconstructors).define hpath hd'

end Horizon

namespace Check

/-- The step stays within the horizon. In the other namespace it gives the same value, of which `Q`
holds, and the same context. -/
def Stays (h : Horizon) {α : Type} (Q : Namespace → α → Prop) (m : Check α) (c : Context)
    (e : Namespace) : Prop :=
  ∃ f, m.run (c.moved e) = ((m.run c).1, (m.run c).2.moved f) ∧ h.Leads c (m.run c).2 f ∧
    Q (m.run c).2.ns (m.run c).1

/-- Nothing is said of the value. -/
def Any {α : Type} (_ : Namespace) (_ : α) : Prop := True

variable {α β : Type} {h : Horizon} {Q : Namespace → α → Prop} {R : Namespace → β → Prop}
  {c : Context} {e : Namespace}

theorem stays_pure (hc : h.Covers c e) {a : α} (ha : Q c.ns a) : Stays h Q (pure a) c e :=
  ⟨e, rfl, .refl hc, ha⟩

theorem Stays.bind {m : Check α} {k : α → Check β} (hm : Stays h Q m c e)
    (hk : ∀ a d f, h.Leads c d f → Q d.ns a → Stays h R (k a) d f) : Stays h R (m >>= k) c e := by
  obtain ⟨f, hrun, hleads, hq⟩ := hm
  obtain ⟨g, hrun', hleads', hr⟩ := hk _ _ _ hleads hq
  refine ⟨g, ?_, hleads.trans hleads', hr⟩
  rw [StateT.run_bind, hrun]
  exact hrun'

theorem stays_ite {p : Prop} [Decidable p] {m n : Check α} (hm : p → Stays h Q m c e)
    (hn : ¬ p → Stays h Q n c e) : Stays h Q (if p then m else n) c e := by
  split
  · exact hm ‹p›
  · exact hn ‹¬ p›

/-- What is read of the context is not out of sight. -/
theorem stays_get_bind {k : Context → Check α} (hk : k (c.moved e) = k c)
    (hc : Stays h Q (k c) c e) : Stays h Q (get >>= k) c e := by
  obtain ⟨f, hrun, hc⟩ := hc
  rw [← hk] at hrun
  refine ⟨f, ?_, hc⟩
  change (k (c.moved e)).run (c.moved e) = ((k c).run c).map id (Context.moved · f)
  rw [hrun, hk]
  rfl

theorem stays_typeOf_bind {k : Ty → Check α} {i : Nat} (hc : Stays h Q (k (c.program.type i)) c e) :
    Stays h Q (typeOf i >>= k) c e := hc

theorem stays_spanOf_bind {k : Span → Check α} {i : Nat}
    (hc : Stays h Q (k (c.program.span i)) c e) : Stays h Q (spanOf i >>= k) c e := hc

theorem stays_report (hc : h.Covers c e) (problem : Problem) (span : Span) :
    Stays h Any (report problem span) c e :=
  ⟨e, rfl, ⟨⟨{ hc.within with }, hc.same⟩, .refl c.ns, rfl⟩, trivial⟩

theorem stays_alloc (hc : h.Covers c e) (x : Expr) {t : Ty} (ht : h.Founds c.ns t)
    (hx : x.Obeys (h.rule c.ns)) : Stays h Any (alloc x t) c e :=
  ⟨e, rfl, ⟨hc.alloc hx ht, .refl c.ns, rfl⟩, trivial⟩

theorem stays_error (hc : h.Covers c e) (span : Span) : Stays h Any (error span) c e :=
  stays_alloc hc _ (Ty.obeys_primitive _) trivial

/-- What failed is reported and left out. -/
theorem stays_failure (hc : h.Covers c e) (problem : Problem) (reportSpan span : Span) :
    Stays h Any (do report problem reportSpan; error span) c e :=
  (stays_report hc problem reportSpan).bind fun _ _ _ hl _ => stays_error hl.covers span

theorem stays_report_return (hc : h.Covers c e) (problem : Problem) (span : Span) {a : α}
    (ha : ∀ ns, Q ns a) : Stays h Q (do report problem span; return a) c e :=
  (stays_report hc problem span).bind fun _ _ _ hl _ => stays_pure hl.covers (ha _)

theorem stays_read (hc : h.Covers c e) {r : Resolved} (hr : h.Founds c.ns r.symbol.type)
    (span : Span) : Stays h Any (read r span) c e := by
  unfold read
  exact stays_get_bind rfl (stays_alloc hc _ hr trivial)

theorem stays_declare (hc : h.Covers c e) {s : Symbol} (hs : h.Founds c.ns s.type) :
    Stays h Any (declare s) c e := ⟨_, rfl, hc.leads_addSymbol hs, trivial⟩

theorem stays_forM {f : α → Check Unit} {as : List α}
    (hf : ∀ a ∈ as, ∀ d g, h.Leads c d g → Stays h Any (f a) d g) (hc : h.Covers c e) :
    Stays h Any (as.forM f) c e := by
  induction as generalizing c e with
  | nil => exact stays_pure hc trivial
  | cons a as ih =>
    refine (hf a List.mem_cons_self c e (.refl hc)).bind fun _ d g hl _ => ?_
    refine ih (fun b hb d' g' hl' => ?_) hl.covers
    exact hf b (List.mem_cons_of_mem a hb) d' g' (hl.trans hl')

theorem run_define (d : Definition) (c : Context) :
    (define d).run c = ((), c.moved (c.ns.introduce c.path d)) := by
  have hdeclared : ∀ (ks : List Case) (c : Context),
      (ks.forM fun k => declare ⟨k.name, d.constructorType k, k.isPublic, false⟩).run c =
        ((), c.moved ((ks.map fun k => ⟨k.name, d.constructorType k, k.isPublic, false⟩).foldl
          (fun ns s => ns.addSymbol c.path s) c.ns)) := by
    intro ks
    induction ks with
    | nil => exact fun _ => rfl
    | cons k ks ih =>
      intro c
      exact ih (c.moved (c.ns.addSymbol c.path ⟨k.name, d.constructorType k, k.isPublic, false⟩))
  rw [define, StateT.run_bind, hdeclared]
  rfl

theorem stays_define (hc : h.Covers c e) {d : Definition} (hpath : d.path = c.path)
    (hd : d.Obeys (h.rule c.ns)) : Stays h Any (define d) c e := by
  refine ⟨e.introduce c.path d, ?_, ?_, trivial⟩
  · rw [run_define, run_define]
    rfl
  · rw [run_define]
    exact hc.leads_introduce hpath hd

/-! Written types -/

theorem stays_mapM {f : α → Check β} {as : List α}
    (hstable : ∀ ns ns' b, ns.Keeps ns' → R ns b → R ns' b)
    (hf : ∀ a ∈ as, ∀ d g, h.Covers d g → Stays h R (f a) d g) (hc : h.Covers c e) :
    Stays h (fun ns bs => ∀ b ∈ bs, R ns b) (as.mapM f) c e := by
  induction as generalizing c e with
  | nil => exact stays_pure hc (by simp)
  | cons a as ih =>
    rw [List.forall_mem_cons] at hf
    rw [List.mapM_cons]
    refine (hf.1 c e hc).bind fun b d g hl hb => ?_
    refine (ih hf.2 hl.covers).bind fun bs d' g' hl' hbs => ?_
    exact stays_pure hl'.covers (List.forall_mem_cons.mpr ⟨hstable _ _ b hl'.keeps hb, hbs⟩)

theorem resolve_moved (hc : h.Covers c e) (r : TypeRef) :
    (c.moved e).typeScope.resolve r = c.typeScope.resolve r := by
  refine TypeScope.Agrees.resolve_eq r ⟨rfl, ?_, ?_⟩
  · exact fun x _ => hc.within.lookup_moved hc.same x
  · intro _ x _ head args hx case y
    have hseen : h.sees { head with case }.path :=
      (Ty.obeys_variant.mp (hc.within.obeys_lookup hx)).1.1
    exact Context.hasCase_moved hc.same hseen y

theorem stays_resolveType (hc : h.Covers c e) (reports : Bool) (r : TypeRef) :
    Stays h h.Founds (resolveType reports r) c e := by
  unfold resolveType
  refine stays_get_bind ?_ ?_
  · dsimp only
    rw [resolve_moved hc]
  · cases hr : c.typeScope.resolve r with
    | ok t =>
      refine stays_pure hc ?_
      exact TypeScope.obeys_of_resolve (h.stable_rule c.ns) (fun _ _ => hc.within.obeys_lookup) r hr
    | error fault =>
      have hany (ns : Namespace) : h.Founds ns .any := Ty.obeys_primitive _
      cases reports with
      | true => exact stays_report_return hc _ _ hany
      | false => exact stays_pure hc (hany _)

/-- A step in other surroundings, which are left at the end. -/
theorem Stays.around {m n : Check α} {inner : Context} (hm : Stays h Q m inner e)
    (leave : Context → Context) (hmoved : ∀ d f, leave (d.moved f) = (leave d).moved f)
    (hns : ∀ d, (leave d).ns = d.ns) (hl : ∀ d f, h.Leads inner d f → h.Leads c (leave d) f)
    (hrun : n.run c = (m.run inner).map id leave)
    (hrun' : n.run (c.moved e) = (m.run (inner.moved e)).map id leave) : Stays h Q n c e := by
  obtain ⟨f, hsame, hleads, hq⟩ := hm
  refine ⟨f, ?_, ?_, ?_⟩
  · rw [hrun, hrun', hsame, Prod.map_apply, hmoved]
    rfl
  · rw [hrun]
    exact hl _ f hleads
  · rw [hrun]
    exact (hns _).symm ▸ hq

theorem stays_withGenerics (hc : h.Covers c e) {m : Check α} (names : List String)
    (hm : h.Covers { c with generics := c.generics ++ names } e →
      Stays h Q m { c with generics := c.generics ++ names } e) :
    Stays h Q (withGenerics names m) c e := by
  refine (hm (hc.surroundings _ _ _)).around (fun d => { d with generics := c.generics })
    (fun _ _ => rfl) (fun _ => rfl) ?_ rfl rfl
  exact fun _ _ hl => ⟨hl.covers.surroundings _ _ _, hl.keeps, hl.path⟩

theorem stays_params (hc : h.Covers c e) (reports : Bool) (ps : List Param) :
    Stays h (fun ns ts => ∀ t ∈ ts, h.Founds ns t.type) (params reports ps) c e := by
  refine stays_mapM (R := fun ns t => h.Founds ns (TypedParam.type t))
    (fun _ _ _ hk => Horizon.obeys_of_keeps hk) ?_ hc
  intro p _ d g hd
  exact (stays_resolveType hd reports p.type).bind fun t _ _ hl ht => stays_pure hl.covers ht

theorem stays_optionalType (hc : h.Covers c e) (reports : Bool) (r : Option TypeRef) :
    Stays h (fun ns t? => ∀ t ∈ t?, h.Founds ns t) (optionalType reports r) c e := by
  cases r with
  | none => exact stays_pure hc (by simp)
  | some r =>
    refine (stays_resolveType hc reports r).bind fun t _ _ hl ht => stays_pure hl.covers ?_
    rintro _ ⟨⟩
    exact ht

theorem stays_signature (hc : h.Covers c e) (reports : Bool) (head : FunctionHead) :
    Stays h h.FoundsSignature (signature reports head) c e := by
  unfold signature
  refine stays_withGenerics hc head.typeParams fun hc => ?_
  refine (stays_params hc reports head.params).bind fun ps d f hl hps => ?_
  refine (stays_optionalType hl.covers reports head.returnType).bind fun ret d' f' hl' hret => ?_
  refine stays_pure hl'.covers ⟨fun p hp => hl'.founds (hps p hp), ?_⟩
  cases ret with
  | none => exact Ty.obeys_primitive _
  | some t => exact hret t rfl

theorem founds_functionType {ns : Namespace} {ps : List TypedParam} {ret : Ty}
    (hsig : h.FoundsSignature ns (ps, ret)) : h.Founds ns (functionType ps ret) := by
  rw [functionType, Horizon.Founds, Ty.obeys_function, Signature.obeys_iff]
  exact ⟨List.forall_mem_map.mpr hsig.1, hsig.2⟩

theorem stays_cases (hc : h.Covers c e) (isPublic : Bool) (ks : List CaseDecl) :
    Stays h (fun ns cs => ∀ k ∈ cs, ∀ f ∈ k.fields, h.Founds ns f.type) (cases isPublic ks) c e := by
  refine stays_mapM (R := fun ns k => ∀ f ∈ Case.fields k, h.Founds ns f.type)
    (fun _ _ _ hk hfs f hf => Horizon.obeys_of_keeps hk (hfs f hf)) ?_ hc
  intro k _ d g hd
  have hfields : Stays h (fun ns fs => ∀ f ∈ fs, h.Founds ns f.type) (fields isPublic k.fields) d g := by
    refine stays_mapM (R := fun ns f => h.Founds ns (Field.type f))
      (fun _ _ _ hk => Horizon.obeys_of_keeps hk) ?_ hd
    intro f _ d' g' hd'
    exact (stays_resolveType hd' true f.type).bind fun t _ _ hl ht => stays_pure hl.covers ht
  exact hfields.bind fun fs _ _ hl hfs => stays_pure hl.covers hfs

theorem stays_definition (hc : h.Covers c e) (decl : DataDecl) :
    Stays h (fun ns d => d.path = c.path ∧ d.Obeys (h.rule ns)) (definition decl) c e := by
  unfold definition
  refine (stays_withGenerics hc decl.typeParams fun hc =>
    stays_cases hc decl.isPublic decl.cases).bind fun cs d f hl hcs => ?_
  exact stays_get_bind rfl (stays_pure hl.covers ⟨hl.path, hcs⟩)

end Check

end Tern
