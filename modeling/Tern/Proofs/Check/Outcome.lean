import Tern.Proofs.Check.Unit

/-!
What checking a unit leaves behind, whether or not something is wrong with it: what is in the
namespace afterwards, and which types the reports name.
-/

set_option autoImplicit false

namespace Tern

namespace SourceUnit

variable (u : SourceUnit) (ns : Namespace) (default : PackagePath)

/-- From the first import to the last item, only the unit's own package is changed, and nothing is
taken away from it. -/
theorem grows_check : ns.Grows (u.path default) (u.check ns default).2.ns :=
  (ns.grows_ensurePackage (u.path default)).trans (u.prepares_check ns default).2.ns

/-- A unit is checked to its end and leaves all packages but its own as they were. Its own package
is there afterwards, with every symbol and every type that it had. -/
theorem others_unchanged_own_kept :
    (u.check ns default).1 = .ok () ∧
      (∀ other, other ≠ u.path default →
        (u.check ns default).2.ns.package? other = ns.package? other) ∧
      ((u.check ns default).2.ns.package? (u.path default)).isSome ∧
      (∀ x, (ns.symbol? (u.path default) x).isSome →
        ((u.check ns default).2.ns.symbol? (u.path default) x).isSome) ∧
      ∀ x, (ns.definition? (u.path default) x).isSome →
        ((u.check ns default).2.ns.definition? (u.path default) x).isSome := by
  have hg := u.grows_check ns default
  obtain ⟨hok, hp⟩ := u.prepares_check ns default
  refine ⟨hok, hg.others, ?_, hg.symbol _, hg.definition _⟩
  -- the package is created before anything is done
  exact hp.ns.package _ (by simp [Namespace.package?_isSome_ensurePackage])

/-- No report blames the type `any`, which stands for what was reported before. -/
theorem reports_spare_any : ∀ d ∈ (u.check ns default).2.diagnostics, d.problem.SparesAny :=
  (u.prepares_check ns default).2.reports

end SourceUnit

/-- The items

    fn pair[T](x: T, y: T): T { x }
    val a = [pair(missing, 1), pair(1, true)]
-/
def pairing : SourceUnit where
  package := none
  imports := []
  items :=
    [.function ⟨"pair", false, ["T"],
      [⟨"x", .named "T" ⟨14, 15⟩, ⟨11, 15⟩⟩, ⟨"y", .named "T" ⟨20, 21⟩, ⟨17, 21⟩⟩],
      some (.named "T" ⟨24, 25⟩)⟩ [.name "x" ⟨28, 29⟩] ⟨0, 31⟩,
     .define ⟨"a", false, false, none⟩
      (.array
        [.call (.name "pair" ⟨41, 45⟩) [.name "missing" ⟨46, 53⟩, .literal (.int 1) ⟨55, 56⟩] ⟨41, 57⟩,
         .call (.name "pair" ⟨59, 63⟩)
          [.literal (.int 1) ⟨64, 65⟩, .literal (.bool true) ⟨67, 71⟩] ⟨59, 72⟩] ⟨40, 73⟩) ⟨32, 73⟩]

/-- The missing name is reported once and fits the parameter; where the parameter stands for `int`, a
`bool` does not. -/
theorem pairing_spares_any :
    (pairing.check .withPrelude ⟨"user", "default"⟩).2.diagnostics =
        [⟨.unrecognizedName "missing", ⟨46, 53⟩⟩, ⟨.typeMismatch .int .bool, ⟨67, 71⟩⟩] ∧
      (Problem.typeMismatch .int .bool).SparesAny := by
  have hreports : (pairing.check .withPrelude ⟨"user", "default"⟩).2.diagnostics =
      [⟨.unrecognizedName "missing", ⟨46, 53⟩⟩, ⟨.typeMismatch .int .bool, ⟨67, 71⟩⟩] := by cbv
  refine ⟨hreports, pairing.reports_spare_any .withPrelude ⟨"user", "default"⟩
    ⟨.typeMismatch .int .bool, ⟨67, 71⟩⟩ ?_⟩
  rw [hreports]
  exact List.mem_cons_of_mem _ List.mem_cons_self

end Tern
