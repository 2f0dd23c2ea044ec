import Tern.Proofs.Check.Unit
import Tern.Proofs.Order

/-!
Names that are used before they are written. Where items do not need each other in a circle, all that
an item needs is declared when its turn comes, so that a name which is not recognized is declared by
no other item.
-/

set_option autoImplicit false

namespace Tern

open Relation

/-- There are more reports, and those of a name are of one that may be unknown. -/
def Context.Reports (unknown : String → Prop) (c c' : Context) : Prop :=
  ∃ ds, c'.diagnostics = c.diagnostics ++ ds ∧
    ∀ d ∈ ds, ∀ x, d.problem = .unrecognizedName x → unknown x

theorem Built.reports {permit : Permit} {strict : Bool} {p : Place} {c c' : Context}
    {ids : List Nat} (h : Built permit strict p c ids c') : c.Reports permit.unknown c' := by
  obtain ⟨ds, heq, hds⟩ := h.allows
  exact ⟨ds, heq, fun d hd => (hds d hd).2⟩

namespace Check

/-- The reports made while items are checked, each with the place of the item. -/
def reportsOf (nodes : List Node) : List Nat → Context → List (Nat × Diagnostic)
  | [], _ => []
  | i :: is, c =>
    match nodes[i]? with
    | none => reportsOf nodes is c
    | some n =>
      let (r, c') := (item n).run c
      let made := (c'.diagnostics.drop c.diagnostics.length).map (Prod.mk i)
      match r with
      | .error _ => made
      | .ok id => made ++ reportsOf nodes is (c'.addItem id)

end Check

namespace SourceUnit

/-- The imports of the unit are all that is known. -/
def imported (u : SourceUnit) (ns : Namespace) (default : PackagePath) : Context :=
  (Context.init ns (u.path default)).importing u.imports

/-- The context in which the first item is checked. -/
def prepared (u : SourceUnit) (ns : Namespace) (default : PackagePath) : Context :=
  ((Check.prologue u).run (.init ns (u.path default))).2

def itemReports (u : SourceUnit) (ns : Namespace) (default : PackagePath) : List (Nat × Diagnostic) :=
  Check.reportsOf u.items (Order.ofItems u.items).order (u.prepared ns default)

end SourceUnit

namespace Check

theorem run_items_cons {n : Node} {ns : List Node} {c c' : Context} {id : Nat}
    (h : (item n).run c = (.ok id, c')) :
    (items (n :: ns)).run c = (items ns).run (c'.addItem id) := by
  rw [items, StateT.run_bind, h]
  rfl

/-- What is reported about items one after the other: `J` says what holds when the items before are
done. -/
theorem reports_items {nodes : List Node} {J : List Nat → Context → Prop}
    {P : Nat → Diagnostic → Prop} (is before : List Nat) {c : Context}
    (hlt : ∀ i ∈ is, i < nodes.length) (hc : J before c)
    (hstep : ∀ done i rest n c, before ++ is = done ++ i :: rest → nodes[i]? = some n → J done c →
      Yields (item n) c fun r c' => ∃ id, r = .ok id ∧ J (done ++ [i]) (c'.addItem id) ∧
        ∃ ds, c'.diagnostics = c.diagnostics ++ ds ∧ ∀ d ∈ ds, P i d) :
    ((items (is.filterMap fun i => nodes[i]?)).run c).2.diagnostics =
        c.diagnostics ++ (reportsOf nodes is c).map Prod.snd ∧
      ∀ r ∈ reportsOf nodes is c, P r.1 r.2 := by
  induction is generalizing before c with
  | nil => exact ⟨(List.append_nil _).symm, by simp [reportsOf]⟩
  | cons i is ih =>
    obtain ⟨n, hn⟩ : ∃ n, nodes[i]? = some n :=
      ⟨_, List.getElem?_eq_getElem (hlt i List.mem_cons_self)⟩
    have hs := hstep before i is n c rfl hn hc
    rcases hrun : (item n).run c with ⟨r, c'⟩
    simp only [Yields, hrun] at hs
    obtain ⟨id, rfl, hJ, ds, hds, hP⟩ := hs
    obtain ⟨heq, hrest⟩ := ih (before ++ [i]) (fun j hj => hlt j (List.mem_cons_of_mem i hj)) hJ
      (by simpa using hstep)
    have hmade : reportsOf nodes (i :: is) c =
        ds.map (Prod.mk i) ++ reportsOf nodes is (c'.addItem id) := by
      simp [reportsOf, hn, hrun, hds]
    rw [hmade, List.filterMap_cons_some hn, run_items_cons hrun, heq]
    constructor
    · simp [Context.addItem, hds, Function.comp_def]
    · intro r hr
      rcases List.mem_append.mp hr with hr | hr
      · obtain ⟨d, hd, rfl⟩ := List.mem_map.mp hr
        exact hP d hd
      · exact hrest r hr

end Check

/-- The items at certain places are done: their names are declared. -/
structure Context.Advanced (u : SourceUnit) (done : List Nat) (c : Context) : Prop where
  root : c.scope = ScopeTree.root
  inBlock : c.InBlock
  registered : ∀ n ∈ u.items, c.Registered n
  declared : ∀ j ∈ done, ∀ n, u.items[j]? = some n → ∀ x ∈ n.declaredNames,
    (c.ns.symbol? c.path x).isSome

/-- One more item takes nothing away. -/
theorem Context.Advanced.addItem {u : SourceUnit} {done : List Nat} {c c' : Context}
    (hc : c.Advanced u done) (hg : c.Grows c') (id : Nat) : (c'.addItem id).Advanced u done := by
  have hin := hg.inBlock hc.inBlock
  refine ⟨hg.scope.trans hc.root, ⟨hin.placed, hin.kind⟩, ?_, ?_⟩
  · exact fun m hm => hg.registered (hc.registered m hm)
  · intro j hj m hm x hx
    have hs := hg.ns.symbol _ _ (hc.declared j hj m hm x hx)
    exact hg.path ▸ hs

namespace SourceUnit

variable {u : SourceUnit} {ns : Namespace} {default : PackagePath}

theorem advanced_prepared : (u.prepared ns default).Advanced u [] := by
  have hall : ∀ n ∈ u.items, Permit.all.Covers n ∧ ∀ x ∈ n.declaredNames, Permit.all.declares x :=
    fun n _ => ⟨Permit.covers_all n, fun _ _ => trivial⟩
  obtain ⟨⟨ns', ds', heq, _, _⟩, hreg⟩ :=
    Check.yields_prologue (c := .init ns (u.path default)) hall
  rw [prepared]
  rw [heq] at hreg ⊢
  exact ⟨rfl, Context.Starts.inBlock ⟨rfl, rfl⟩, hreg, by simp⟩

/-- The name has a point, or no item other than the one at `i` declares it first. -/
def Missing (u : SourceUnit) (i : Nat) (x : String) : Prop :=
  '.' ∈ x.toList ∨ ∀ j, Order.producer? u.items x = some j → j = i

theorem advanced_item (hacyclic : Order.Acyclic u.items) {done rest : List Nat} {i : Nat} {n : Node}
    {c : Context} (ho : (Order.ofItems u.items).order = done ++ i :: rest)
    (hn : u.items[i]? = some n) (hc : c.Advanced u done) :
    Check.Yields (Check.item n) c fun r c' => ∃ id, r = .ok id ∧
      (c'.addItem id).Advanced u (done ++ [i]) ∧ c.Reports (u.Missing i) c' := by
  -- the names that the item uses and other items declare
  let known (x : String) : Prop :=
    ∃ r ∈ Reference.ofItem n, r.name = x ∧ ∃ j, Order.producer? u.items x = some j ∧ j ≠ i
  have hready : c.Ready known := by
    refine ⟨hc.inBlock.placed, ?_⟩
    rintro _ ⟨r, hr, rfl, j, hp, hne⟩
    have hj : j ∈ done := hacyclic.mem_before ho ⟨n, hn, r, hr, hp, hne⟩
    obtain ⟨m, hm, hx⟩ := Order.exists_of_producer? hp
    exact Context.resolves_of_symbol? (hc.declared j hj m hm r.name hx)
  let permit : Permit := { Permit.all with unknown := u.Missing i }
  have hforeseen : Check.Foreseen permit known (Reference.ofItem n) := by
    intro r hr
    by_cases h : ∃ j, Order.producer? u.items r.name = some j ∧ j ≠ i
    · exact Or.inl ⟨r, hr, rfl, h⟩
    · refine Or.inr (Or.inr fun j hp => ?_)
      exact Decidable.not_not.mp fun hne => h ⟨j, hp, hne⟩
  have hpaths : Check.MayReportPaths permit := fun package name => Or.inl (by simp)
  have hcovers : permit.CoversItem n :=
    Permit.coversItem_of (fun _ _ => trivial) fun m _ => Permit.covers_all m
  have hfit : false = true → n.FitsIn .statement := by simp
  refine (Check.yields_item hpaths (fun _ _ => trivial) (hc.registered n (List.mem_of_getElem? hn))
    hc.root hfit hcovers hforeseen hready).mono ?_
  rintro r c' ⟨id, hid, hb, hdecl⟩
  have hc' := hc.addItem hb.grows id
  refine ⟨id, hid, { hc' with declared := ?_ }, hb.reports⟩
  intro j hj m hm x hx
  rcases List.mem_append.mp hj with hj | hj
  · exact hc'.declared j hj m hm x hx
  · obtain rfl := List.mem_singleton.mp hj
    obtain rfl : n = m := Option.some.inj (hn.symm.trans hm)
    exact hdecl x hx

/-- Where no items need each other in a circle, a plain name that is not recognized while an item is
checked is first declared by no other item, however early the item uses it. All reports but those of
imports, cycles and declarations are made while some item is checked. -/
theorem unrecognized_first_declared_by_none_else (u : SourceUnit) (ns : Namespace)
    (default : PackagePath) (hacyclic : Order.Acyclic u.items) :
    (u.check ns default).2.diagnostics =
        (u.prepared ns default).diagnostics ++ (u.itemReports ns default).map Prod.snd ∧
      ∀ i d x, (i, d) ∈ u.itemReports ns default → d.problem = .unrecognizedName x →
        '.' ∉ x.toList → ∀ j, Order.producer? u.items x = some j → j = i := by
  have hlt : ∀ i ∈ (Order.ofItems u.items).order, i < u.items.length := by
    intro i hi
    simpa using (Order.ordered_ofItems u.items).1.mem_iff.mp hi
  obtain ⟨heq, hreports⟩ := Check.reports_items (J := Context.Advanced u)
    (P := fun i d => ∀ x, d.problem = .unrecognizedName x → u.Missing i x)
    (Order.ofItems u.items).order [] hlt advanced_prepared fun done i rest n c ho hn hc =>
      advanced_item hacyclic ho hn hc
  refine ⟨heq, ?_⟩
  intro i d x hmem hx hplain
  exact (hreports (i, d) hmem x hx).resolve_left hplain

end SourceUnit

/-- The items

    val a = b + c
    val b = 1
-/
def early : SourceUnit where
  package := none
  imports := []
  items :=
    [.define ⟨"a", false, false, none⟩
      (.binary .add (.name "b" ⟨8, 9⟩) (.name "c" ⟨12, 13⟩) ⟨8, 13⟩) ⟨0, 13⟩,
     .define ⟨"b", false, false, none⟩ (.literal (.int 1) ⟨22, 23⟩) ⟨14, 23⟩]

theorem edgesAt_early (i : Nat) :
    Order.edgesAt early.items i = if i = 0 then [⟨1, true⟩] else [] := by
  match i with
  | 0 => cbv
  | 1 => cbv
  | i + 2 => rfl

theorem acyclic_early : Order.Acyclic early.items := by
  have hneeds {i j : Nat} (h : Order.Needs early.items i j) : i = 0 ∧ j = 1 := by
    obtain ⟨e, he, rfl⟩ := Order.needs_iff.mp h
    rw [edgesAt_early] at he
    split at he
    · rename_i hi
      exact ⟨hi, by simp [List.mem_singleton.mp he]⟩
    · simp at he
  have hpath {i j : Nat} (h : TransGen (Order.Needs early.items) i j) : i = 0 ∧ j = 1 := by
    induction h with
    | single h => exact hneeds h
    | tail _ h ih => exact ⟨ih.1, (hneeds h).2⟩
  intro i hi
  have := hpath hi
  omega

/-- Only `c` is not recognized, and `b` is although it is declared later. -/
theorem early_use_recognized :
    early.itemReports .withPrelude ⟨"user", "default"⟩ =
        [(0, ⟨.unrecognizedName "c", ⟨12, 13⟩⟩)] ∧
      ∀ j, Order.producer? early.items "c" = some j → j = 0 := by
  have hreports : early.itemReports .withPrelude ⟨"user", "default"⟩ =
      [(0, ⟨.unrecognizedName "c", ⟨12, 13⟩⟩)] := by cbv
  obtain ⟨_, h⟩ := early.unrecognized_first_declared_by_none_else .withPrelude ⟨"user", "default"⟩
    acyclic_early
  exact ⟨hreports, h 0 _ "c" (by rw [hreports]; exact List.mem_singleton.mpr rfl) rfl (by decide)⟩

end Tern
