import Mathlib
import Tern.Proofs.Check.Walk
import Tern.Proofs.Order
import Tern.Proofs.Ty.Erasure

/-!
The types of calls. A call is erased to the type parameters that are in scope when it is made, and
these are the parameters of the functions around it in the source. So the calls of a program belong to
calls of its source, one by one and in the order of checking, and the type of each mentions parameters
of the functions around it only.

The whole of Mathlib is imported for the equations of `StateT` alone, by which `cbv` evaluates the run
of a unit.
-/

set_option autoImplicit false

namespace Tern

/-- The places and types of all calls, in the order in which they were made. -/
def Program.calls (p : Program) : List (Span × Ty) := p.exprs.toList.filterMap TypedExpr.call?

theorem Program.calls_alloc (p : Program) (e : Expr) (t : Ty) :
    (p.alloc e t).calls = p.calls ++ (TypedExpr.call? ⟨e, t⟩).toList := by
  cases h : TypedExpr.call? ⟨e, t⟩ <;> simp [calls, alloc, h]

/-- The call is made for the site: it has its place, and its type mentions only type parameters of the
functions around. -/
def CallSite.Confines (site : CallSite) (call : Span × Ty) : Prop :=
  call.1 = site.span ∧ ∀ x, call.2.mentions x = true → x ∈ site.generics

/-- The calls are made for some of the sites, in their order. -/
def CallSite.ConfineAll (sites : List CallSite) (calls : List (Span × Ty)) : Prop :=
  ∃ called, called.Sublist sites ∧ List.Forall₂ CallSite.Confines called calls

namespace CallSite.ConfineAll

variable {sites more : List CallSite} {calls new : List (Span × Ty)}

theorem nil (sites : List CallSite) : ConfineAll sites [] := ⟨[], List.nil_sublist sites, .nil⟩

theorem append (h : ConfineAll sites calls) (k : ConfineAll more new) :
    ConfineAll (sites ++ more) (calls ++ new) := by
  obtain ⟨called, hsub, hall⟩ := h
  obtain ⟨called', hsub', hall'⟩ := k
  exact ⟨called ++ called', hsub.append hsub', List.rel_append hall hall'⟩

theorem mono (h : ConfineAll sites calls) (hs : sites.Sublist more) : ConfineAll more calls := by
  obtain ⟨called, hsub, hall⟩ := h
  exact ⟨called, hsub.trans hs, hall⟩

end CallSite.ConfineAll

namespace Check

variable {α : Type} {around : List FunctionHead} {sites : List CallSite}

/-- Inside the given functions, the step makes calls for some of the sites, in their order. -/
def Calls (around : List FunctionHead) (sites : List CallSite) (m : Check α) : Prop :=
  ∀ c, c.generics = around.flatMap FunctionHead.typeParams → (m.run c).2.generics = c.generics ∧
    ∃ new, (m.run c).2.program.calls = c.program.calls ++ new ∧ CallSite.ConfineAll sites new

theorem calls_of_unchanged {m : Check α} (hgenerics : ∀ c, (m.run c).2.generics = c.generics)
    (hcalls : ∀ c, (m.run c).2.program.calls = c.program.calls) : Calls around sites m :=
  fun c _ => ⟨hgenerics c, [], by rw [hcalls, List.append_nil], .nil sites⟩

/-- Calls are made where the source has them. -/
def callsRule : StepRule where
  fits _ := True
  relates around sites _ m _ := Calls around sites m
  join _ _ := trivial
  done _ := calls_of_unchanged (fun _ => rfl) fun _ => rfl
  bind hm hf c hc := by
    obtain ⟨hgenerics, new, hcalls, hall⟩ := hm c hc
    obtain ⟨hgenerics', new', hcalls', hall'⟩ := hf _ _ (hgenerics.trans hc)
    refine ⟨hgenerics'.trans hgenerics, new ++ new', ?_, hall.append hall'⟩
    exact hcalls'.trans (by rw [hcalls, List.append_assoc])
  mono h hs c hc := by
    obtain ⟨hgenerics, new, hcalls, hall⟩ := h c hc
    exact ⟨hgenerics, new, hcalls, hall.mono hs⟩
  look h c hc := h c c hc
  spanOf id h c hc := h (c.program.span id) trivial c hc
  report _ _ := calls_of_unchanged (fun _ => rfl) fun _ => rfl
  alloc t _ hcall := by
    refine calls_of_unchanged (fun _ => rfl) fun c => ?_
    change (c.program.alloc _ t).calls = _
    rw [Program.calls_alloc, hcall, Option.toList_none, List.append_nil]
  call _ _ t _ c hc := by
    refine ⟨rfl, [(_, t.erase c.generics)], Program.calls_alloc _ _ _, _, .refl _, ?_⟩
    refine .cons ⟨rfl, fun x hx => ?_⟩ .nil
    rw [CallSite.generics, ← hc]
    exact (Ty.mentions_of_mentions_erase hx).1
  imports _ := calls_of_unchanged (fun _ => rfl) fun _ => rfl
  known _ := calls_of_unchanged (fun _ => rfl) fun _ => rfl
  symbol _ _ := calls_of_unchanged (fun _ => rfl) fun _ => rfl
  parameter _ _ _ := calls_of_unchanged (fun _ => rfl) fun _ => rfl
  item _ := calls_of_unchanged (fun _ => rfl) fun _ => rfl
  scope kind h c hc := h c.program.scopes.size (c.enter kind) hc
  result t h c hc := h { c with returnTypes := t :: c.returnTypes } hc
  generics {around _ _ _ _ head} h c hc := by
    have hin : c.generics ++ head.typeParams =
        (around ++ [head]).flatMap FunctionHead.typeParams := by
      rw [List.flatMap_append, List.flatMap_singleton, hc]
    obtain ⟨_, hnew⟩ := h { c with generics := c.generics ++ head.typeParams } hin
    exact ⟨rfl, hnew⟩

end Check

/-- Every call of a checked unit is made for a call of its own in the source. -/
theorem SourceUnit.calls_check (u : SourceUnit) (ns : Namespace) (default : PackagePath) :
    ∃ called, called.Subperm u.callSites ∧
      List.Forall₂ CallSite.Confines called (u.check ns default).2.program.calls := by
  obtain ⟨_, new, hnew, called, hsub, hconfined⟩ := Check.relates_unit Check.callsRule
    (fun _ _ _ _ => trivial) (fun _ _ _ _ _ _ => trivial) (.init ns (u.path default)) rfl
  refine ⟨called, hsub.subperm.trans ?_, ?_⟩
  · exact ((Order.perm_ordered u.items).flatMap_right (Node.callSites [])).subperm
  · change List.Forall₂ _ called ((Check.unit u).run _).2.program.calls
    rw [hnew]
    exact hconfined

/-- Where no set has a repetition, erasing a type is substituting `any` for the parameters that it
mentions out of scope. What is left of any type mentions parameters in scope only, and a type has
parameters exactly if it mentions one. So the calls of a checked unit can be matched with different
calls of its source, each at the same place, and what the type of a call mentions are parameters of
the functions around it. -/
theorem erased_to_any :
    (∀ (t : Ty) (inScope : List String), t.Proper →
      t.erase inScope = t.substitute (t.anyOutside inScope)) ∧
    (∀ (t : Ty) (inScope : List String) (x : String),
      (t.anyOutside inScope).lookup x =
        if t.mentions x = true ∧ x ∉ inScope then some .any else none) ∧
    (∀ (t : Ty) (inScope : List String) (x : String), (t.erase inScope).mentions x = true →
      x ∈ inScope ∧ t.mentions x = true) ∧
    (∀ t : Ty, t.hasParams = true ↔ ∃ x, t.mentions x = true) ∧
    ∀ (u : SourceUnit) (ns : Namespace) (default : PackagePath),
      ∃ called, called.Subperm u.callSites ∧
        List.Forall₂ CallSite.Confines called (u.check ns default).2.program.calls := by
  refine ⟨fun t inScope ht => ht.erase_eq_substitute inScope, fun t inScope x => ?_,
    fun t inScope x => Ty.mentions_of_mentions_erase, Ty.hasParams_iff_mentions,
    SourceUnit.calls_check⟩
  exact t.lookup_anyOutside x

/-- A set of signatures of which two take the same when `U` is `any`. -/
def choices : Ty :=
  .overloaded [.mk [.param "T"] (.param "U"), .mk [.param "U"] .int, .mk [.any] (.array (.param "T"))]

/-- The unit

    fn none[S](): array[S] { [] }
    fn outer[T](x: T) {
      fn inner[U](y: U): U { inner(y) }
      inner(none())
    }
-/
def nestedCalls : SourceUnit where
  package := none
  imports := []
  items :=
    [.function ⟨"none", false, ["S"], [],
        some (.applied (.named "array" ⟨14, 19⟩) [.named "S" ⟨20, 21⟩] ⟨14, 22⟩)⟩
      [.array [] ⟨25, 27⟩] ⟨0, 29⟩,
     .function ⟨"outer", false, ["T"], [⟨"x", .named "T" ⟨45, 46⟩, ⟨42, 46⟩⟩], none⟩
      [.function ⟨"inner", false, ["U"], [⟨"y", .named "U" ⟨67, 68⟩, ⟨64, 68⟩⟩],
          some (.named "U" ⟨71, 72⟩)⟩
        [.call (.name "inner" ⟨75, 80⟩) [.name "y" ⟨81, 82⟩] ⟨75, 83⟩] ⟨52, 85⟩,
       .call (.name "inner" ⟨88, 93⟩) [.call (.name "none" ⟨94, 98⟩) [] ⟨94, 100⟩] ⟨88, 101⟩]
      ⟨30, 103⟩]

/-- The set loses a signature when it is erased. In the unit, `none()` leaves `S` open, which is then
erased, while both `T` and `U` are in scope where `inner(y)` stands. -/
theorem erased_to_any_nested :
    choices.Proper ∧
    choices.substitute (choices.anyOutside ["T"]) =
      .overloaded [.mk [.param "T"] .any, .mk [.any] (.array (.param "T"))] ∧
    nestedCalls.callSites.map (fun site => (site.span, site.generics)) =
      [(⟨75, 83⟩, ["T", "U"]), (⟨94, 100⟩, ["T"]), (⟨88, 101⟩, ["T"])] ∧
    ∃ called, called.Subperm nestedCalls.callSites ∧ List.Forall₂ CallSite.Confines called
      [(⟨75, 83⟩, .param "U"), (⟨94, 100⟩, .array .any), (⟨88, 101⟩, .array .any)] := by
  obtain ⟨hsubstitute, _, _, _, hcalls⟩ := erased_to_any
  have hproper : choices.Proper := by
    simp [choices, Ty.Proper, Ty.obeys_overloaded, Ty.obeys_array, Signature.obeys_iff,
      Signature.params, Signature.ret, TypeRule.distinct, Overload.Distinct]
    decide
  have hmade : (nestedCalls.check .empty ⟨"user", "default"⟩).2.program.calls =
      [(⟨75, 83⟩, .param "U"), (⟨94, 100⟩, .array .any), (⟨88, 101⟩, .array .any)] := by cbv
  refine ⟨hproper, ?_, rfl, hmade ▸ hcalls nestedCalls .empty ⟨"user", "default"⟩⟩
  rw [← hsubstitute choices ["T"] hproper]
  rfl

end Tern
