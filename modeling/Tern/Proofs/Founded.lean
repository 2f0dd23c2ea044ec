import Tern.Proofs.Compile
import Tern.Proofs.Check.Outcome
import Tern.Proofs.Horizon.Unit

/-!
Types over a whole session. Wherever a variant type is mentioned, in a package or in a program, its
definition is there, and stays there, however often the type is declared again later.
-/

set_option autoImplicit false

namespace Tern

namespace Namespace

/-- Asked of every reference to a variant type: it has a definition under its own path and name, and
one argument for each of its parameters. -/
def foundation (ns : Namespace) : TypeRule where
  variant head args :=
    (ns.definition? head.path head.name).isSome ∧ args.length = head.typeParams.length
  set _ := True

/-- The namespace after some sources are compiled, each with options of its own. -/
def after (ns : Namespace) (sources : List (Options × String)) : Namespace :=
  sources.foldl (fun ns s => (compile s.1 s.2 ns).2) ns

theorem after_append (ns : Namespace) (earlier later : List (Options × String)) :
    ns.after (earlier ++ later) = (ns.after earlier).after later := List.foldl_append

end Namespace

theorem Options.obeys_freshNamespace {rule : TypeRule} (hr : rule.Stable) (sees : PackagePath → Prop)
    (o : Options) : o.freshNamespace.Obeys sees rule := by
  rw [freshNamespace]
  split
  · exact Namespace.obeys_empty.loadPrelude hr
  · exact Namespace.obeys_empty

/-- All types of a program obey the rule: those of its expressions, those that are written into them,
and those of its variables. -/
structure Program.Obeys (rule : TypeRule) (p : Program) : Prop where
  types : ∀ e ∈ p.exprs, e.type.Obeys rule
  exprs : ∀ e ∈ p.exprs, e.expr.Obeys rule
  scopes : p.scopes.Obeys rule

theorem Program.Obeys.mono {rule weak : TypeRule} (hw : ∀ t : Ty, t.Obeys rule → t.Obeys weak)
    {p : Program} (h : p.Obeys rule) : p.Obeys weak where
  types := fun e he => hw e.type (h.types e he)
  exprs := fun e he => (h.exprs e he).mono hw
  scopes := h.scopes.mono hw

theorem Context.Within.program {h : Horizon} {c : Context} (hw : c.Within h) :
    c.program.Obeys (h.rule c.ns) := by
  refine ⟨?_, hw.exprs, hw.scopes⟩
  intro e he
  obtain ⟨i, hi, rfl⟩ := Array.getElem_of_mem he
  have htype := hw.types i
  rw [Program.type, Array.getElem?_eq_getElem hi] at htype
  exact htype

namespace Horizon

/-! All packages are seen -/

section

variable {h : Horizon} (hall : ∀ path, h.sees path) {ns : Namespace}
include hall

theorem admitsUnit_of_sees (u : SourceUnit) : h.AdmitsUnit u := by
  refine ⟨fun decl _ => hall decl.path, ?_⟩
  intro n _ m _
  cases m with
  | qualified path x nameSpan span => exact hall path
  | _ => trivial

/-- A source leaves a namespace in which everything is founded, and nothing that was founded before
is without a definition then. -/
theorem obeys_compile (hns : ns.Obeys h.sees (h.rule ns)) (options : Options) (source : String) :
    (compile options source ns).2.Obeys h.sees (h.rule (compile options source ns).2) ∧
      ns.Keeps (compile options source ns).2 ∧
      ∀ result, (compile options source ns).1 = .ok result →
        result.program.Obeys (h.rule (compile options source ns).2) := by
  rw [compile_eq]
  split
  · let u := (Parsed.ofSource source).unit
    obtain ⟨_, _, hw, _⟩ := u.stays_check (admitsUnit_of_sees hall u) options.defaultPath (hall _)
      (hall _) hns fun _ _ => rfl
    refine ⟨hw.ns, (u.grows_check ns options.defaultPath).keeps, ?_⟩
    rintro _ ⟨⟩
    exact hw.program
  · exact ⟨hns, .refl ns, fun _ hr => by cases hr⟩

theorem obeys_after (hns : ns.Obeys h.sees (h.rule ns)) (sources : List (Options × String)) :
    (ns.after sources).Obeys h.sees (h.rule (ns.after sources)) ∧ ns.Keeps (ns.after sources) := by
  induction sources generalizing ns with
  | nil => exact ⟨hns, .refl ns⟩
  | cons s sources ih =>
    obtain ⟨hnext, hkeeps, _⟩ := obeys_compile hall hns s.1 s.2
    obtain ⟨hlast, hkeeps'⟩ := ih hnext
    exact ⟨hlast, hkeeps.trans hkeeps'⟩

/-- The types of a program are founded in every namespace from then on. -/
theorem founds_program (hns : ns.Obeys h.sees (h.rule ns)) {earlier later : List (Options × String)}
    {s : Options × String} {result : Compilation}
    (hr : (compile s.1 s.2 (ns.after earlier)).1 = .ok result) {e : TypedExpr}
    (he : e ∈ result.program.exprs) : h.Founds (ns.after (earlier ++ s :: later)) e.type := by
  obtain ⟨hbefore, _⟩ := obeys_after hall hns earlier
  obtain ⟨hthen, _, htypes⟩ := obeys_compile hall hbefore s.1 s.2
  rw [Namespace.after_append]
  exact obeys_of_keeps (obeys_after hall hthen later).2 ((htypes result hr).types e he)

end

/-- The horizon that leaves out nothing and asks nothing of sets. -/
def everything : Horizon where
  sees _ := True
  set _ := True
  empty := trivial
  insert := fun _ _ _ _ _ => trivial

theorem obeys_foundation {ns : Namespace} {t : Ty} (ht : everything.Founds ns t) :
    t.Obeys ns.foundation := by
  refine Ty.Obeys.mono ?_ ?_ ht
  · exact fun _ _ hv => hv.2
  · exact fun _ _ => trivial

end Horizon

/-- No variant type dangles, whatever is compiled after each other into a new namespace. Everywhere in
a package and in all programs made so far, a variant type has a definition and the right number of
arguments, and every definition belongs to the package that it is in. -/
theorem nothing_dangles (options : Options) (sources : List (Options × String)) :
    (∀ path p, (options.freshNamespace.after sources).package? path = some p →
      p.Obeys (options.freshNamespace.after sources).foundation path) ∧
    ∀ earlier s later, sources = earlier ++ s :: later →
      ∀ result, (compile s.1 s.2 (options.freshNamespace.after earlier)).1 = .ok result →
        ∀ e ∈ result.program.exprs, e.type.Obeys (options.freshNamespace.after sources).foundation := by
  have hall : ∀ path, Horizon.everything.sees path := fun _ => trivial
  have hns := options.obeys_freshNamespace (Horizon.everything.stable_rule options.freshNamespace)
    Horizon.everything.sees
  refine ⟨?_, ?_⟩
  · intro path p hp
    have hobeys := (Horizon.obeys_after hall hns sources).1
    exact (hobeys.mono fun _ => Horizon.obeys_foundation) path p trivial hp
  · rintro earlier s later rfl result hr e he
    exact Horizon.obeys_foundation (Horizon.founds_program hall hns hr he)

/-- The type of the box is declared again in the end, without a parameter. -/
def boxSources : List (Options × String) :=
  ["data Box[T] = Full(x: T)", "val box = Full(1)", "data Box = Empty"].map (.default, ·)

theorem nothing_dangles_declared_again :
    ((Options.default.freshNamespace.after boxSources).definition? ⟨"user", "default"⟩ "Box").map
        Definition.typeParams = some [] ∧
      ∃ result e, (compile .default "val box = Full(1)"
          (Options.default.freshNamespace.after (boxSources.take 1))).1 = .ok result ∧
        e ∈ result.program.exprs ∧
        e.type = .variant ⟨⟨"user", "default"⟩, "Box", ["T"], none⟩ [.int] ∧
        e.type.Obeys (Options.default.freshNamespace.after boxSources).foundation := by
  have hcall : ((compile .default "val box = Full(1)"
      (Options.default.freshNamespace.after (boxSources.take 1))).1.toOption.bind
        fun r => r.program.exprs[2]?.map TypedExpr.type) =
          some (.variant ⟨⟨"user", "default"⟩, "Box", ["T"], none⟩ [.int]) := by cbv
  cases hr : (compile .default "val box = Full(1)"
      (Options.default.freshNamespace.after (boxSources.take 1))).1 with
  | error fault =>
    rw [hr] at hcall
    cases hcall
  | ok result =>
    rw [hr] at hcall
    obtain ⟨e, he, htype⟩ := Option.map_eq_some_iff.mp hcall
    have hmem := Array.mem_of_getElem? he
    refine ⟨by cbv, result, e, rfl, hmem, htype, ?_⟩
    exact (nothing_dangles .default boxSources).2 (boxSources.take 1) _ _ rfl result hr e hmem

end Tern
