import Tern.Compile
import Tern.Proofs.Check.Arena

/-!
What compiling can end with. The only way to fail is a text that does not parse, and then nothing is
changed.
-/

set_option autoImplicit false

namespace Tern

/-- What is reported and what is lowered exclude each other. -/
def Context.compilation (c : Context) : Compilation where
  program := c.program
  lowered :=
    if c.diagnostics.isEmpty then some ⟨c.program.path, c.program.items.map c.program.code⟩ else none
  diagnostics := c.diagnostics

theorem Compilation.ofContext_eq {c : Context} (h : c.Sound) :
    Compilation.ofContext c = .ok c.compilation := by
  unfold Compilation.ofContext Context.compilation
  by_cases hd : c.diagnostics = []
  · have herror (i : Nat) (span : Span) : c.program.expr? i ≠ some (.error span) :=
      fun he => h.reported i span he hd
    simp [hd, h.program.lower_eq herror]
  · simp [hd]

theorem compile_eq (options : Options) (source : String) (ns : Namespace) :
    compile options source ns =
      if (Parsed.ofSource source).isOk then
        let c := ((Parsed.ofSource source).unit.check ns options.defaultPath).2
        (.ok c.compilation, c.ns)
      else (.error (.parse (Parsed.ofSource source).errors), ns) := by
  obtain ⟨hok, hs⟩ := (Parsed.ofSource source).unit.sound_check ns options.defaultPath
  unfold compile
  simp only
  generalize (Parsed.ofSource source).unit.check ns options.defaultPath = checked at hok hs
  obtain ⟨result, c⟩ := checked
  simp only at hok hs
  subst hok
  simp only [Compilation.ofContext_eq hs]

/-- What is lowered is the program. -/
theorem lower_of_compile {options : Options} {source : String} {ns : Namespace} {c : Compilation}
    (h : (compile options source ns).1 = .ok c) {lowered : LoweredProgram}
    (hl : c.lowered = some lowered) : c.program.lower = .ok lowered := by
  rw [compile_eq] at h
  split at h
  · have hs := ((Parsed.ofSource source).unit.sound_check ns options.defaultPath).2
    cases h
    dsimp only [Context.compilation] at hl ⊢
    split at hl
    · rename_i hd
      cases hl
      refine hs.program.lower_eq fun i span he => hs.reported i span he ?_
      exact List.isEmpty_iff.mp hd
    · cases hl
  · cases h

/-- Compiling has no internal failures: it ends with a compilation, which is lowered exactly if
nothing is reported, unless the text does not parse; then the namespace stays as it was. -/
theorem compile_faultless (options : Options) (source : String) (ns : Namespace) :
    match compile options source ns with
    | (.ok c, _) => (Parsed.ofSource source).isOk ∧ (c.lowered.isSome ↔ c.diagnostics = [])
    | (.error (.parse errors), ns') =>
      errors = (Parsed.ofSource source).errors ∧ errors ≠ [] ∧ ns' = ns
    | (.error (.check _), _) => False
    | (.error (.lower _), _) => False := by
  rw [compile_eq]
  by_cases hp : (Parsed.ofSource source).isOk
  · simp [hp, Context.compilation]
  · have hne : (Parsed.ofSource source).errors ≠ [] := by simpa [Parsed.isOk] using hp
    simp [hp, hne]

end Tern
