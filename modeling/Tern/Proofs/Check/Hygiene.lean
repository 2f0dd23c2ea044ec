import Mathlib
import Tern.Check.Rules
import Tern.Proofs.Unifier.Renaming

/-!
Calls of a function whose type parameters get other names. Parameters of the callee and those around
the call are told apart by nothing but their names. So the names make no difference as long as they
are different: main statement is that a call ends as before if the parameters that are renamed are
none of those in the types of the arguments, and if none that is left in the result has the name of
one in scope. Otherwise it does make a difference: what is left of a parameter of the callee is then
taken for the one in scope.

The whole of Mathlib is imported for the equations of `StateT`, by which `cbv` evaluates single calls.
-/

set_option autoImplicit false

namespace Tern

theorem exists_longer (taken : List String) :
    ∃ front : String, ∀ y ∈ taken, y.length < front.length := by
  induction taken with
  | nil => exact ⟨"", by simp⟩
  | cons y taken ih =>
    obtain ⟨front, hfront⟩ := ih
    refine ⟨y ++ front ++ "_", fun z hz => ?_⟩
    have hlength : (y ++ front ++ "_").length = y.length + front.length + 1 := by
      rw [String.length_append, String.length_append]
      rfl
    rcases List.mem_cons.mp hz with rfl | hz
    · omega
    · have hz := hfront z hz
      omega

/-- A renaming that keeps some names apart is, on these, one that keeps all names apart and gives no
other name one that is to be avoided. -/
theorem exists_injective_extension {σ : String → String} (names avoid : List String)
    (hσ : ∀ x ∈ names, ∀ y ∈ names, σ x = σ y → x = y) :
    ∃ π : String → String, π.Injective ∧ (∀ x ∈ names, π x = σ x) ∧ ∀ x ∉ names, π x ∉ avoid := by
  -- all other names become longer than the ones to be met or avoided
  obtain ⟨front, hlonger⟩ := exists_longer (names.map σ ++ avoid)
  have hfront (x : String) : front ++ x ∉ names.map σ ++ avoid := by
    intro hmem
    have hlt := hlonger _ hmem
    rw [String.length_append] at hlt
    omega
  have hmet {x y : String} (hy : y ∈ names) : front ++ x ≠ σ y :=
    fun h => hfront x (h ▸ List.mem_append_left avoid (List.mem_map_of_mem hy))
  refine ⟨fun x => if x ∈ names then σ x else front ++ x, ?_, fun x hx => if_pos hx, ?_⟩
  · intro x y h
    dsimp only at h
    by_cases hx : x ∈ names
    · by_cases hy : y ∈ names
      · rw [if_pos hx, if_pos hy] at h
        exact hσ x hx y hy h
      · rw [if_pos hx, if_neg hy] at h
        exact absurd h.symm (hmet hx)
    · by_cases hy : y ∈ names
      · rw [if_neg hx, if_pos hy] at h
        exact absurd h (hmet hy)
      · rw [if_neg hx, if_neg hy] at h
        exact (String.append_right_inj front).mp h
  · intro x hx
    dsimp only
    rw [if_neg hx]
    exact fun h => hfront x (List.mem_append_right _ h)

namespace Unifier

/-- Unifies pairs one after the other, whether or not they fit; for those that do not, the type that
would have fitted. -/
def fitAll (u : Unifier) : List (Ty × Ty) → Unifier × List (Option Ty)
  | [] => (u, [])
  | (expected, found) :: rest =>
    let r := u.unify expected found
    let next := r.1.fitAll rest
    (next.1, (r.2.map fun _ => r.1.apply expected) :: next.2)

theorem length_fitAll (u : Unifier) (pairs : List (Ty × Ty)) :
    (u.fitAll pairs).2.length = pairs.length := by
  induction pairs generalizing u with
  | nil => rfl
  | cons pair pairs ih => rw [fitAll, List.length_cons, List.length_cons, ih]

theorem fitAll_rename {π : String → String} (hπ : π.Injective) (u : Unifier)
    (pairs : List (Ty × Ty)) :
    (u.rename π).fitAll (pairs.map (Prod.map (Ty.rename π) (Ty.rename π))) =
      ((u.fitAll pairs).1.rename π, (u.fitAll pairs).2.map (Option.map (Ty.rename π))) := by
  induction pairs generalizing u with
  | nil => rfl
  | cons pair pairs ih =>
    have hunify := unify_rename hπ u pair.1 pair.2
    rw [List.map_cons, Prod.map, fitAll, hunify]
    dsimp only [Attempt.rename]
    rw [ih, fitAll, List.map_cons, apply_rename hπ]
    cases (u.unify pair.1 pair.2).2 <;> rfl

end Unifier

namespace Context

/-- With a report on each argument for which there is a type that it does not fit. -/
def misfits (c : Context) (args : List Nat) (expected : List (Option Ty)) : Context :=
  { c with
    diagnostics := c.diagnostics ++ (args.zip expected).filterMap fun p =>
      p.2.map fun t => ⟨.typeMismatch t (c.program.type p.1), c.program.span p.1⟩ }

theorem misfits_none (c : Context) (arg : Nat) (args : List Nat) (expected : List (Option Ty)) :
    c.misfits (arg :: args) (none :: expected) = c.misfits args expected := by
  simp [misfits]

theorem misfits_some (c : Context) (arg : Nat) (args : List Nat) (t : Ty)
    (expected : List (Option Ty)) :
    c.misfits (arg :: args) (some t :: expected) =
      (c.misfits [arg] [some t]).misfits args expected := by
  simp [misfits]

end Context

namespace Check

theorem run_arguments (u : Unifier) (pairs : List (Ty × Nat)) (c : Context) :
    (arguments u pairs).run c =
      let r := u.fitAll (pairs.map fun p => (p.1, c.program.type p.2))
      (r.1, c.misfits (pairs.map Prod.snd) r.2) := by
  induction pairs generalizing u c with
  | nil =>
    rw [arguments, List.map_nil, List.map_nil, Unifier.fitAll]
    simp [Context.misfits]
    rfl
  | cons pair pairs ih =>
    obtain ⟨param, arg⟩ := pair
    have htype : (typeOf arg).run c = pure (c.program.type arg, c) := rfl
    rw [arguments, List.map_cons, List.map_cons, Unifier.fitAll, StateT.run_bind, htype, pure_bind]
    dsimp only
    rcases u.unify param (c.program.type arg) with ⟨u', _ | e⟩
    · rw [Option.map_none, Context.misfits_none]
      exact ih u' c
    · rw [Option.map_some, Context.misfits_some]
      exact ih u' (c.misfits [arg] [some (u'.apply param)])

/-- A call with as many arguments as there are parameters. -/
theorem run_signatureCall {s : Signature} {args : List Nat} (span : Span) (c : Context)
    (h : s.params.length = args.length) :
    (signatureCall s args span).run c =
      let r := Unifier.fitAll {} (s.params.zip (args.map c.program.type))
      (r.1.apply s.ret, c.misfits args r.2) := by
  have hpairs : (s.params.zip args).map (fun p => (p.1, c.program.type p.2)) =
      s.params.zip (args.map c.program.type) := by
    rw [List.zip_map_right]
    rfl
  rw [signatureCall, if_pos h, StateT.run_bind, run_arguments, hpairs,
    List.map_snd_zip (Nat.le_of_eq h.symm)]
  rfl

theorem run_signatureCall_arity {s : Signature} {args : List Nat} (span : Span) (c : Context)
    (h : s.params.length ≠ args.length) :
    (signatureCall s args span).run c =
      (if s.ret.hasParams then .any else s.ret,
        ((report (.functionArity s.params.length args.length) span).run c).2) := by
  rw [signatureCall, if_neg h]
  rfl

/-- A renaming of all names that does nothing to the types of the arguments renames the result, and
the types that arguments should have fitted. -/
theorem run_signatureCall_rename {π : String → String} (hπ : π.Injective) {s : Signature}
    {args : List Nat} (span : Span) {c : Context}
    (htypes : ∀ t ∈ args.map c.program.type, t.rename π = t) (h : s.params.length = args.length) :
    ∃ t, ∃ expected : List (Option Ty), expected.length = args.length ∧
      (signatureCall s args span).run c = (t, c.misfits args expected) ∧
      (signatureCall (s.rename π) args span).run c =
        (t.rename π, c.misfits args (expected.map (Option.map (Ty.rename π)))) := by
  have hlength : (s.rename π).params.length = args.length := by
    rw [Signature.params_rename, List.length_map, h]
  have hpairs : (s.rename π).params.zip (args.map c.program.type) =
      (s.params.zip (args.map c.program.type)).map (Prod.map (Ty.rename π) (Ty.rename π)) := by
    have hsame : (args.map c.program.type).map (Ty.rename π) = args.map c.program.type :=
      (List.map_congr_left htypes).trans (List.map_id _)
    rw [← List.zip_map, hsame, Signature.params_rename]
  have hfit := Unifier.fitAll_rename hπ {} (s.params.zip (args.map c.program.type))
  rw [show Unifier.rename π {} = {} from rfl] at hfit
  refine ⟨_, _, ?_, run_signatureCall span c h, ?_⟩
  · rw [Unifier.length_fitAll, List.length_zip, List.length_map, h, Nat.min_self]
  · rw [run_signatureCall span c hlength, hpairs, hfit, Signature.ret_rename]
    dsimp only
    rw [Unifier.apply_rename hπ]

end Check

/-- Other names for parameters of the signature, where these types are and these names in scope: no
two of its parameters get the same name, and the new names are new there. -/
structure Signature.Renews (s : Signature) (σ : String → String) (types : List Ty)
    (inScope : List String) : Prop where
  apart : ∀ x ∈ s.names, ∀ y ∈ s.names, σ x = σ y → x = y
  unused : ∀ x ∈ s.names, σ x ≠ x → ∀ t ∈ types, t.mentions (σ x) = false
  unscoped : ∀ x ∈ s.names, σ x ≠ x → σ x ∉ inScope

/-- The new name of a parameter that the signature mentions; other names are left alone. -/
def Signature.newName (s : Signature) (σ : String → String) (x : String) : String :=
  if x ∈ s.names then σ x else x

namespace Signature.Renews

variable {s : Signature} {σ : String → String} {types : List Ty} {inScope : List String}
variable (h : s.Renews σ types inScope)
include h

/-- A new name is none of those that were there. -/
theorem ne_of_not_mem {x y : String} (hx : x ∈ s.names) (hy : y ∉ s.names)
    (hthere : y ∈ Ty.namesAll types ++ inScope) : σ x ≠ y := by
  rintro rfl
  have hne : σ x ≠ x := fun heq => hy (heq.symm ▸ hx)
  rcases List.mem_append.mp hthere with hmem | hmem
  · obtain ⟨t, ht, hmentions⟩ := Ty.anyMentions_iff.mp ((Ty.mem_namesAll types).mp hmem)
    exact Bool.eq_false_iff.mp (h.unused x hx hne t ht) hmentions
  · exact h.unscoped x hx hne hmem

theorem newName_apart : ∀ x ∈ s.names ++ (Ty.namesAll types ++ inScope),
    ∀ y ∈ s.names ++ (Ty.namesAll types ++ inScope), s.newName σ x = s.newName σ y → x = y := by
  intro x hx y hy heq
  by_cases hxs : x ∈ s.names
  · by_cases hys : y ∈ s.names
    · rw [newName, newName, if_pos hxs, if_pos hys] at heq
      exact h.apart x hxs y hys heq
    · rw [newName, newName, if_pos hxs, if_neg hys] at heq
      exact absurd heq (h.ne_of_not_mem hxs hys ((List.mem_append.mp hy).resolve_left hys))
  · by_cases hys : y ∈ s.names
    · rw [newName, newName, if_neg hxs, if_pos hys] at heq
      exact absurd heq.symm (h.ne_of_not_mem hys hxs ((List.mem_append.mp hx).resolve_left hxs))
    · rwa [newName, newName, if_neg hxs, if_neg hys] at heq

/-- Such a renaming is one of all names, if the types mention none of the parameters that it
renames. The types keep their names, and names that are not in scope get none that is. -/
theorem exists_injective
    (hown : ∀ x ∈ s.names, σ x ≠ x → ∀ t ∈ types, t.mentions x = false) :
    ∃ π : String → String, π.Injective ∧ (∀ x ∈ s.names, π x = σ x) ∧
      (∀ t ∈ types, t.rename π = t) ∧
      ∀ x, π x = x ∨ x ∈ s.names ∧ π x ∉ inScope ∨ x ∉ inScope ∧ π x ∉ inScope := by
  obtain ⟨π, hπ, hmet, havoid⟩ := exists_injective_extension _ inScope h.newName_apart
  have hin : ∀ x ∈ s.names, π x = σ x := by
    intro x hx
    rw [hmet x (List.mem_append_left _ hx), newName, if_pos hx]
  have hout : ∀ x ∈ Ty.namesAll types ++ inScope, x ∉ s.names → π x = x := by
    intro x hx hxs
    rw [hmet x (List.mem_append_right _ hx), newName, if_neg hxs]
  refine ⟨π, hπ, hin, fun t ht => Ty.rename_eq_self fun x hx => ?_, fun x => ?_⟩
  · have hmentions := t.mem_names.mp hx
    have hmem : x ∈ Ty.namesAll types :=
      (Ty.mem_namesAll types).mpr (Ty.anyMentions_iff.mpr ⟨t, ht, hmentions⟩)
    by_cases hxs : x ∈ s.names
    · rw [hin x hxs]
      by_contra hne
      exact Bool.eq_false_iff.mp (hown x hxs hne t ht) hmentions
    · exact hout x (List.mem_append_left _ hmem) hxs
  · by_cases hxs : x ∈ s.names
    · rw [hin x hxs]
      by_cases hne : σ x = x
      · exact Or.inl hne
      · exact Or.inr (Or.inl ⟨hxs, h.unscoped x hxs hne⟩)
    · by_cases hx : x ∈ Ty.namesAll types ++ inScope
      · exact Or.inl (hout x hx hxs)
      · refine Or.inr (Or.inr ⟨fun hscope => hx (List.mem_append_right _ hscope), havoid x ?_⟩)
        exact fun hmem => (List.mem_append.mp hmem).elim hxs hx

end Signature.Renews

namespace Check

/-- A call of a function whose parameters are renamed ends as before. The arguments that do not fit
are the same, and so is the result, after what is not in scope is erased: if no parameter that is
renamed is mentioned in the type of an argument, nor is in scope and left in the result. -/
theorem renamed_call_same {c : Context} {s : Signature} {args : List Nat} {σ : String → String}
    (span : Span) (h : s.Renews σ (args.map c.program.type) c.generics)
    (hown : ∀ x ∈ s.names, σ x ≠ x → ∀ t ∈ args.map c.program.type, t.mentions x = false)
    (hleft : ∀ x ∈ s.names, σ x ≠ x → x ∈ c.generics →
      ((signatureCall s args span).run c).1.mentions x = false) :
    ((signatureCall (s.rename σ) args span).run c).1.erase c.generics =
        ((signatureCall s args span).run c).1.erase c.generics ∧
      (s.params.length ≠ args.length → ((signatureCall (s.rename σ) args span).run c).2 =
        ((signatureCall s args span).run c).2) ∧
      (s.params.length = args.length → ∃ expected expected' : List (Option Ty),
        expected.length = args.length ∧ expected'.map Option.isSome = expected.map Option.isSome ∧
          ((signatureCall s args span).run c).2 = c.misfits args expected ∧
          ((signatureCall (s.rename σ) args span).run c).2 = c.misfits args expected') := by
  obtain ⟨π, hπ, hmet, htypes, hscope⟩ := h.exists_injective hown
  rw [s.rename_congr (fun x hx => (hmet x hx).symm)]
  by_cases harity : s.params.length = args.length
  · -- the result is the renamed one, so what is left to see is that erasure does not tell
    obtain ⟨t, expected, hlength, hrun, hrun'⟩ := run_signatureCall_rename hπ span htypes harity
    rw [hrun] at hleft ⊢
    rw [hrun']
    refine ⟨Ty.erase_rename t fun x hx => ?_, fun hne => absurd harity hne, fun _ => ?_⟩
    · by_cases heq : π x = x
      · exact Or.inl heq
      rcases hscope x with heq' | ⟨hxs, hnew⟩ | hboth
      · exact absurd heq' heq
      · refine Or.inr ⟨fun hin => ?_, hnew⟩
        have hfalse := hleft x hxs (hmet x hxs ▸ heq) hin
        exact Bool.eq_false_iff.mp hfalse (t.mem_names.mp hx)
      · exact Or.inr hboth
    · refine ⟨expected, _, hlength, ?_, rfl, rfl⟩
      rw [List.map_map]
      exact List.map_congr_left fun t _ => Option.isSome_map
  · have hlength : (s.rename π).params.length = s.params.length := by
      rw [Signature.params_rename, List.length_map]
    rw [run_signatureCall_arity span c harity,
      run_signatureCall_arity span c (hlength.trans_ne harity), hlength, Signature.ret_rename,
      Ty.any_if_hasParams_rename]
    exact ⟨rfl, fun _ => rfl, fun heq => absurd heq harity⟩

/-- Two parameters with new names, one of which had the name of a parameter in scope; it is bound by
the last argument, and the second one does not fit. -/
theorem renamed_call_same_bound :
    let program := (Program.init ⟨"user", "default"⟩).alloc (.literal (.int 1) ⟨2, 3⟩) .int
    let program := program.alloc (.literal (.bool true) ⟨5, 9⟩) .bool
    let program := program.alloc (.error ⟨11, 12⟩) (.function (.mk [.int] (.array (.param "V"))))
    let c : Context := { Context.init .withPrelude ⟨"user", "default"⟩ with
      program, generics := ["U", "V"] }
    let s : Signature := .mk [.param "T", .param "T", .function (.mk [.param "T"] (.param "U"))]
      (.param "U")
    let σ (x : String) : String := if x = "T" then "A" else if x = "U" then "T" else x
    ((signatureCall s [0, 1, 2] ⟨0, 13⟩).run c).1 = .array (.param "V") ∧
      ((signatureCall s [0, 1, 2] ⟨0, 13⟩).run c).2.diagnostics =
        [⟨.typeMismatch .int .bool, ⟨5, 9⟩⟩] ∧
      ((signatureCall (s.rename σ) [0, 1, 2] ⟨0, 13⟩).run c).1.erase ["U", "V"] =
        ((signatureCall s [0, 1, 2] ⟨0, 13⟩).run c).1.erase ["U", "V"] ∧
      ∃ expected expected' : List (Option Ty),
        expected.length = 3 ∧ expected'.map Option.isSome = expected.map Option.isSome ∧
          ((signatureCall s [0, 1, 2] ⟨0, 13⟩).run c).2 = c.misfits [0, 1, 2] expected ∧
          ((signatureCall (s.rename σ) [0, 1, 2] ⟨0, 13⟩).run c).2 =
            c.misfits [0, 1, 2] expected' := by
  intro program₀ program₁ program c s σ
  have hresult : ((signatureCall s [0, 1, 2] ⟨0, 13⟩).run c).1 = .array (.param "V") := by cbv
  have hreports : ((signatureCall s [0, 1, 2] ⟨0, 13⟩).run c).2.diagnostics =
      [⟨.typeMismatch .int .bool, ⟨5, 9⟩⟩] := by cbv
  have htypes : [0, 1, 2].map c.program.type =
      [.int, .bool, .function (.mk [.int] (.array (.param "V")))] := by cbv
  have hrenews : s.Renews σ ([0, 1, 2].map c.program.type) c.generics := by
    rw [htypes]
    exact ⟨by decide +kernel, by decide +kernel, by decide +kernel⟩
  have hown : ∀ x ∈ s.names, σ x ≠ x →
      ∀ t ∈ [0, 1, 2].map c.program.type, t.mentions x = false := by
    rw [htypes]
    decide +kernel
  have hleft : ∀ x ∈ s.names, σ x ≠ x → x ∈ c.generics →
      ((signatureCall s [0, 1, 2] ⟨0, 13⟩).run c).1.mentions x = false := by
    rw [hresult]
    decide +kernel
  obtain ⟨herase, -, hfit⟩ := renamed_call_same ⟨0, 13⟩ hrenews hown hleft
  exact ⟨hresult, hreports, herase, hfit rfl⟩

/-- A parameter of the callee and one in scope that have the same name are taken for each other. If
no argument binds it, it stays in the result and is not erased; and an argument whose type is built
from the one in scope does not fit it. With another name, neither happens. -/
theorem shared_name_confused :
    let σ (x : String) : String := if x = "T" then "U" else x
    let program : Program := (Program.init ⟨"user", "default"⟩).alloc (.error ⟨7, 8⟩)
      (.array (.param "T"))
    let c : Context := { Context.init .withPrelude ⟨"user", "default"⟩ with
      program, generics := ["T"] }
    let empty : Signature := .mk [] (.array (.param "T"))
    let single : Signature := .mk [.param "T"] (.array (.param "T"))
    (empty.Renews σ ([].map c.program.type) c.generics ∧
      ((signatureCall empty [] ⟨0, 7⟩).run c).1.erase c.generics = .array (.param "T") ∧
      ((signatureCall (empty.rename σ) [] ⟨0, 7⟩).run c).1.erase c.generics = .array .any) ∧
    single.Renews σ ([0].map c.program.type) c.generics ∧
      ((signatureCall single [0] ⟨0, 9⟩).run c).2.diagnostics =
        [⟨.typeMismatch (.param "T") (.array (.param "T")), ⟨7, 8⟩⟩] ∧
      ((signatureCall (single.rename σ) [0] ⟨0, 9⟩).run c).2.diagnostics = [] := by
  intro σ program c empty single
  have htypes : [0].map c.program.type = [.array (.param "T")] := by cbv
  refine ⟨⟨⟨by decide +kernel, by decide +kernel, by decide +kernel⟩, by cbv, by cbv⟩, ?_, by cbv,
    by cbv⟩
  rw [htypes]
  exact ⟨by decide +kernel, by decide +kernel, by decide +kernel⟩

end Check

end Tern
