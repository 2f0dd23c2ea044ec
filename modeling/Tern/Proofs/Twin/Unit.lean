import Tern.Proofs.Twin.Items
import Tern.Proofs.Check.Forward

/-!
A whole unit in two namespaces. If the contexts after the imports are twins, so are those at the end,
and what is reported from the imports on is the same.
-/

set_option autoImplicit false

namespace Tern

section

variable {o : Outlook} {c c' d d' e e' : Context}

/-- The contexts are twins, and both have the same reports after those of `c` and `c'`. -/
structure Abreast (o : Outlook) (c c' d d' : Context) : Prop where
  twin : d.Twin o d'
  reports : ∃ ds, d.diagnostics = c.diagnostics ++ ds ∧ d'.diagnostics = c'.diagnostics ++ ds

theorem Onward.abreast (h : Onward o c c' d d') : Abreast o c c' d d' := ⟨h.twin, h.reports⟩

theorem Abreast.trans (h : Abreast o c c' d d') (k : Abreast o d d' e e') : Abreast o c c' e e' := by
  obtain ⟨ds, hd, hd'⟩ := h.reports
  obtain ⟨es, he, he'⟩ := k.reports
  refine ⟨k.twin, ds ++ es, ?_, ?_⟩
  · rw [he, hd, List.append_assoc]
  · rw [he', hd', List.append_assoc]

theorem Abreast.addItem (h : Abreast o c c' d d') {i i' : Nat} (hi : SameValue o d d' i i') :
    Abreast o c c' (d.addItem i) (d'.addItem i') where
  twin :=
    { h.twin with
      program := fun hexact => by
        obtain ⟨hprogram, hscope⟩ := h.twin.program hexact
        refine ⟨?_, hscope⟩
        simp only [Context.addItem, hprogram, hi.number hexact] }
  reports := h.reports

end

namespace Check

open Reference

/-- Items go alike, one after the other, where all of them are registered. -/
theorem abreast_items {o : Outlook} (nodes : List Node)
    (ha : ∀ n ∈ nodes, o.AdmitsItem n ∧ AllRead o (ofItem n)) {c c' : Context} (ht : c.Twin o c')
    (hn : ∀ n ∈ nodes, c.Registered n ∧ c'.Registered n) :
    Abreast o c c' ((items nodes).run c).2 ((items nodes).run c').2 := by
  induction nodes generalizing c c' with
  | nil => exact (Onward.refl ht).abreast
  | cons n nodes ih =>
    obtain ⟨hadmits, hreads⟩ := ha n List.mem_cons_self
    obtain ⟨hreg, hreg'⟩ := hn n List.mem_cons_self
    obtain ⟨hon, i, i', hr, hr', hi⟩ := pairs_item ht hreg hreg' hadmits hreads
    rw [run_items_cons (Prod.ext hr rfl), run_items_cons (Prod.ext hr' rfl)]
    have hstep := hon.abreast.addItem hi
    refine hstep.trans (ih (fun m hm => ha m (List.mem_cons_of_mem n hm)) hstep.twin fun m hm => ?_)
    obtain ⟨hm, hm'⟩ := hn m (List.mem_cons_of_mem n hm)
    exact ⟨hon.grows.registered hm, hon.grows'.registered hm'⟩

end Check

namespace SourceUnit

open Reference

variable {o : Outlook} {u : SourceUnit} {ns ns' : Namespace} {default : PackagePath}

/-- Cycles are reported and items are registered alike. -/
theorem onward_prepared (ht : (u.imported ns default).Twin o (u.imported ns' default)) :
    Onward o (u.imported ns default) (u.imported ns' default) (u.prepared ns default)
      (u.prepared ns' default) := by
  have h : Check.Pairs o Check.Equal
      (do (Order.ofItems u.items).cycles.forM Check.reportCycle; Check.register u.items)
      (do (Order.ofItems u.items).cycles.forM Check.reportCycle; Check.register u.items)
      (u.imported ns default) (u.imported ns' default) :=
    (Check.pairs_forM_same (fun _ _ _ ht => Check.pairs_report ht _ _) ht _).bind_equal
      fun _ _ _ hon => Check.pairs_register hon.twin u.items
  exact h.1

theorem abreast_check (ht : (u.imported ns default).Twin o (u.imported ns' default))
    (ha : ∀ n ∈ u.items, o.AdmitsItem n ∧ Check.AllRead o (ofItem n)) :
    Abreast o (u.imported ns default) (u.imported ns' default) (u.check ns default).2
      (u.check ns' default).2 := by
  have hon := onward_prepared ht
  refine hon.abreast.trans ?_
  refine Check.abreast_items (Check.ordered u) (fun n hn => ha n (Check.mem_of_mem_ordered hn))
    hon.twin fun n hn => ?_
  have hmem := Check.mem_of_mem_ordered hn
  exact ⟨advanced_prepared.registered n hmem, advanced_prepared.registered n hmem⟩

end SourceUnit

end Tern
