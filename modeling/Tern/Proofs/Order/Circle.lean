import Mathlib.Data.List.Chain
import Tern.Proofs.Order.Search

/-!
Circles of items that need each other's values, and which of them are reported. What is reported is
always such a circle. A circle is found if the first way to its last item ends in it; where an item
names another one inside a function before it needs the value, the search can go past the circle.
-/

set_option autoImplicit false

namespace Tern.Order

open Relation

/-- The item at `i` uses, outside of all functions, a name that the item at `j`, another one and no
function, declares first. -/
def NeedsValue (items : List Node) (i j : Nat) : Prop :=
  ∃ n, items[i]? = some n ∧ ∃ r ∈ Reference.ofItem n, r.eager = true ∧
    producer? items r.name = some j ∧ j ≠ i ∧ ∃ m, items[j]? = some m ∧ m.isFunction = false

theorem needsValue_iff {items : List Node} {i j : Nat} :
    NeedsValue items i j ↔ ⟨j, true⟩ ∈ edgesAt items i := by
  rw [mem_edgesAt]
  refine exists_congr fun n => and_congr_right fun _ => ?_
  rw [mem_edges]
  refine exists_congr fun r => and_congr_right fun _ => ?_
  constructor
  · rintro ⟨heager, hp, hne, m, hm, hfun⟩
    exact ⟨hp, hne, by simp [heager, hm, hfun]⟩
  · rintro ⟨hp, hne, hvalue⟩
    obtain ⟨m, hm, _⟩ := exists_of_producer? hp
    rw [hm, Option.any_some] at hvalue
    obtain ⟨heager, hfun⟩ := (Bool.and_eq_true_iff ..).mp hvalue.symm
    exact ⟨heager, hp, hne, m, hm, by simpa using hfun⟩

theorem NeedsValue.needs {items : List Node} {i j : Nat} (h : NeedsValue items i j) :
    Needs items i j :=
  needs_iff.mpr ⟨_, needsValue_iff.mp h, rfl⟩

/-- Items that need each other's values, each one the next and the last one the first. -/
structure Circle (items : List Node) (first : Nat) (rest : List Nat) : Prop where
  several : rest ≠ []
  distinct : (first :: rest).Nodup
  chained : (first :: rest ++ [first]).IsChain (NeedsValue items)

/-- What there is to report of a circle: the names that its items declare, at its first item. -/
def circleReport? (items : List Node) (first : Nat) (rest : List Nat) : Option Cycle :=
  items[first]?.map fun n =>
    ⟨((first :: rest).filterMap fun i => items[i]?).flatMap Node.declaredNames, n.span⟩

/-- The first way to the last item of the circle ends with the circle, and takes its items for their
values. -/
def OnFirstWay (items : List Node) (first : Nat) (rest : List Nat) : Prop :=
  ∃ k above s below, FirstWay items k.item (k :: above ++ s :: below) ∧
    (∀ t ∈ k :: above, t.eager = true) ∧
    s.item = first ∧ ((k :: above).map Step.item).reverse = rest

/-- Along a first way each item leads to all that come after it. -/
theorem FirstWay.leads {items : List Node} {i : Nat} {way : List Step} (h : FirstWay items i way) :
    way.Pairwise fun t p => TransGen (Needs items) p.item t.item := by
  have hchain : way.IsChain fun t p => TransGen (Needs items) p.item t.item :=
    h.linked.imp fun t p hfirst =>
      .single (needs_iff.mpr ⟨_, List.mem_of_find?_eq_some hfirst, rfl⟩)
  have : IsTrans Step fun t p => TransGen (Needs items) p.item t.item :=
    ⟨fun _ _ _ htp hpq => hpq.trans htp⟩
  exact hchain.pairwise

theorem circleReport?_eq {items : List Node} {first : Nat} (h : first < items.length)
    (rest : List Nat) :
    circleReport? items first rest = some
      { names := (first :: rest).flatMap fun i => (items[i]?.map Node.declaredNames).getD []
        span := (items[first]?.map Node.span).getD ⟨0, 0⟩ } := by
  have hnames (is : List Nat) : (is.filterMap fun i => items[i]?).flatMap Node.declaredNames =
      is.flatMap fun i => (items[i]?.map Node.declaredNames).getD [] := by
    induction is with
    | nil => rfl
    | cons i is ih =>
      cases hi : items[i]? with
      | none => simp [hi, ih]
      | some n => simp [hi, ih]
  rw [circleReport?, hnames, List.getElem?_eq_getElem h]
  rfl

section Path

variable {items : List Node} {above below : List Step} {s : Step}
  (hlinked : (above ++ s :: below).IsChain fun t p =>
    firstUse? items p.item t.item = some ⟨t.item, t.eager⟩)
include hlinked

/-- Along a path all of whose steps are for values, each item needs the value of the next. -/
theorem chain_of_linked (heager : ∀ t ∈ above, t.eager = true) :
    ((above ++ [s]).map Step.item).IsChain fun i j => NeedsValue items j i := by
  induction above with
  | nil => exact .singleton _
  | cons t above ih =>
    obtain ⟨ht, heager⟩ := List.forall_mem_cons.mp heager
    have hvalue {p : Step} (hp : firstUse? items p.item t.item = some ⟨t.item, t.eager⟩) :
        NeedsValue items p.item t.item :=
      needsValue_iff.mpr (ht ▸ List.mem_of_find?_eq_some hp)
    cases above with
    | nil =>
      have hfirst := (List.isChain_cons_cons.mp hlinked).1
      exact List.isChain_cons_cons.mpr ⟨hvalue hfirst, .singleton _⟩
    | cons u above =>
      obtain ⟨hfirst, hrest⟩ := List.isChain_cons_cons.mp hlinked
      exact List.isChain_cons_cons.mpr ⟨hvalue hfirst, ih hrest heager⟩

/-- The steps are for values where all first uses between the items are. -/
theorem eager_of_linked
    (hvalue : ∀ p ∈ above ++ [s], ∀ t ∈ above, Needs items p.item t.item →
      firstUse? items p.item t.item = some ⟨t.item, true⟩) : ∀ t ∈ above, t.eager = true := by
  induction above with
  | nil => simp
  | cons t above ih =>
    have heager {p : Step} (hp : p ∈ above ++ [s])
        (hfirst : firstUse? items p.item t.item = some ⟨t.item, t.eager⟩) : t.eager = true := by
      have hneeds : Needs items p.item t.item :=
        needs_iff.mpr ⟨_, List.mem_of_find?_eq_some hfirst, rfl⟩
      have hsame := hvalue p (List.mem_cons_of_mem t hp) t List.mem_cons_self hneeds
      simpa using hfirst.symm.trans hsame
    have hrest : ∀ p ∈ above ++ [s], ∀ u ∈ above, Needs items p.item u.item →
        firstUse? items p.item u.item = some ⟨u.item, true⟩ :=
      fun p hp u hu => hvalue p (List.mem_cons_of_mem t hp) u (List.mem_cons_of_mem t hu)
    cases above with
    | nil => simpa using heager (by simp) (List.isChain_cons_cons.mp hlinked).1
    | cons u above =>
      obtain ⟨hfirst, hlater⟩ := List.isChain_cons_cons.mp hlinked
      exact List.forall_mem_cons.mpr ⟨heager (by simp) hfirst, ih hlater hrest⟩

end Path

/-- A use in the last item of a first way, for the value of an item on it, makes a circle. -/
theorem circle_of_firstWay {items : List Node} {k s : Step} {above below : List Step}
    (h : FirstWay items k.item (k :: above ++ s :: below))
    (heager : ∀ t ∈ k :: above, t.eager = true) (hvalue : NeedsValue items k.item s.item) :
    Circle items s.item ((k :: above).map Step.item).reverse where
  several := by simp
  distinct := by
    have hnodup := h.nodup
    rw [List.append_cons, List.map_append] at hnodup
    have hfront := (List.nodup_append.mp hnodup).1
    rw [← List.nodup_reverse]
    simpa using hfront
  chained := by
    have hchain : (s.item :: ((k :: above) ++ [s]).map Step.item).IsChain
        fun i j => NeedsValue items j i :=
      List.isChain_cons_cons.mpr ⟨hvalue, chain_of_linked h.linked heager⟩
    rw [← List.isChain_reverse]
    simpa [flip] using hchain

theorem Circle.closes {items : List Node} {first k : Nat} {is : List Nat}
    (h : Circle items first (k :: is).reverse) : NeedsValue items k first := by
  have hchain : (first :: k :: (is ++ [first])).IsChain fun i j => NeedsValue items j i := by
    simpa using List.isChain_reverse.mpr h.chained
  exact (List.isChain_cons_cons.mp hchain).1

theorem cycle?_of_firstWay {items : List Node} {k s : Step} {above below : List Step}
    (h : FirstWay items k.item (k :: above ++ s :: below))
    (heager : ∀ t ∈ k :: above, t.eager = true) (hvalue : NeedsValue items k.item s.item) :
    cycle? items (k :: above ++ s :: below) ⟨s.item, true⟩ =
      circleReport? items s.item ((k :: above).map Step.item).reverse := by
  have hapart : ∀ t ∈ k :: above, t.item ≠ s.item := by
    have hnodup := h.nodup
    rw [List.map_append] at hnodup
    intro t ht
    exact (List.nodup_append.mp hnodup).2.2 t.item (List.mem_map_of_mem ht) s.item (by simp)
  have hcircle : eagerCycle? s.item (k :: above ++ s :: below) =
      some (s.item :: ((k :: above).map Step.item).reverse) :=
    eagerCycle?_eq_some.mpr
      ⟨k :: above, s, below, rfl, rfl, fun t ht => ⟨hapart t ht, heager t ht⟩, rfl⟩
  rw [circleReport?_eq hvalue.needs.lt, cycle?, if_pos rfl, hcircle]
  rfl

/-- What is reported are the circles that the first ways end with. -/
theorem mem_cycles_iff_circle (items : List Node) {c : Cycle} :
    c ∈ (ofItems items).cycles ↔ ∃ first rest, Circle items first rest ∧
      OnFirstWay items first rest ∧ circleReport? items first rest = some c := by
  rw [mem_cycles_iff]
  constructor
  · rintro ⟨k, path, e, hway, he, hc⟩
    obtain ⟨heager, circle, hcircle⟩ := eagerCycle?_of_cycle? hc
    obtain ⟨above, s, below, hpath, hs, habove, _⟩ := eagerCycle?_eq_some.mp hcircle
    obtain rfl : e = ⟨s.item, true⟩ := by rw [hs, ← heager]
    have hvalue : NeedsValue items k.item s.item := needsValue_iff.mpr he
    cases above with
    | nil =>
      obtain rfl : k = s := (List.cons.inj hpath).1
      exact absurd rfl hvalue.needs.ne
    | cons t above =>
      obtain ⟨rfl, rfl⟩ := List.cons.inj hpath
      have hall : ∀ t ∈ k :: above, t.eager = true := fun t ht => (habove t ht).2
      rw [List.append_eq, ← List.cons_append] at hway hc
      have hlast : OnFirstWay items s.item ((k :: above).map Step.item).reverse :=
        ⟨k, above, s, below, hway, hall, rfl, rfl⟩
      refine ⟨s.item, _, circle_of_firstWay hway hall hvalue, hlast, ?_⟩
      exact (cycle?_of_firstWay hway hall hvalue).symm.trans hc
  · rintro ⟨first, rest, hcircle, ⟨k, above, s, below, hway, heager, rfl, rfl⟩, hc⟩
    have hvalue : NeedsValue items k.item s.item := hcircle.closes
    refine ⟨k, above ++ s :: below, ⟨s.item, true⟩, hway, needsValue_iff.mp hvalue, ?_⟩
    exact (cycle?_of_firstWay hway heager hvalue).trans hc

theorem Acyclic.cycles_eq_nil {items : List Node} (h : Acyclic items) :
    (ofItems items).cycles = [] := by
  refine List.eq_nil_iff_forall_not_mem.mpr fun c hc => ?_
  obtain ⟨_, _, hcircle, ⟨k, above, s, below, hway, _, rfl, rfl⟩, _⟩ :=
    (mem_cycles_iff_circle items).mp hc
  have hleads : TransGen (Needs items) s.item k.item :=
    (List.pairwise_append.mp hway.leads).2.2 k List.mem_cons_self s List.mem_cons_self
  exact h k.item (.head hcircle.closes.needs hleads)

/-- Every cycle that is reported is a circle of at least two items that need each other's values;
its names are those that they declare, in turn, and its place is that of the first one. -/
theorem cycle_of_values (items : List Node) :
    ∀ c ∈ (ofItems items).cycles, ∃ first rest, Circle items first rest ∧
      circleReport? items first rest = some c := by
  intro c hc
  obtain ⟨first, rest, hcircle, _, hreport⟩ := (mem_cycles_iff_circle items).mp hc
  exact ⟨first, rest, hcircle, hreport⟩

/-- The items

    val a = b
    val b = a
-/
def crossed : List Node :=
  [.define ⟨"a", false, false, none⟩ (.name "b" ⟨8, 9⟩) ⟨0, 9⟩,
   .define ⟨"b", false, false, none⟩ (.name "a" ⟨18, 19⟩) ⟨10, 19⟩]

theorem cycle_of_values_crossed :
    (⟨["a", "b"], ⟨0, 9⟩⟩ : Cycle) ∈ (ofItems crossed).cycles ∧
    ∃ first rest, Circle crossed first rest ∧
      circleReport? crossed first rest = some ⟨["a", "b"], ⟨0, 9⟩⟩ := by
  have hmem : (⟨["a", "b"], ⟨0, 9⟩⟩ : Cycle) ∈ (ofItems crossed).cycles := by
    have hcycles : (ofItems crossed).cycles = [⟨["a", "b"], ⟨0, 9⟩⟩] := by cbv
    rw [hcycles]
    exact List.mem_singleton.mpr rfl
  exact ⟨hmem, cycle_of_values crossed _ hmem⟩

/-! Which circles are found -/

/-- The items at `i` and `j` need each other, over whatever others. -/
def Entangled (items : List Node) (i j : Nat) : Prop :=
  ReflTransGen (Needs items) i j ∧ ReflTransGen (Needs items) j i

/-- Of the items for which something holds, the last one in a list. -/
theorem exists_last {α : Type} {P : α → Prop} {l : List α} {a : α} (ha : a ∈ l) (hP : P a) :
    ∃ before w after, l = before ++ w :: after ∧ P w ∧ ∀ b ∈ after, ¬ P b := by
  induction l generalizing a with
  | nil => cases ha
  | cons b l ih =>
    by_cases hl : ∃ c ∈ l, P c
    · obtain ⟨c, hc, hPc⟩ := hl
      obtain ⟨before, w, after, rfl, hw, hafter⟩ := ih hc hPc
      exact ⟨b :: before, w, after, rfl, hw, hafter⟩
    · have hnone : ∀ c ∈ l, ¬ P c := fun c hc hPc => hl ⟨c, hc, hPc⟩
      obtain rfl : a = b := (List.mem_cons.mp ha).resolve_right fun hmem => hnone a hmem hP
      exact ⟨[], a, l, rfl, hP, hnone⟩

/-- Among items that need each other, an item and one that it needs come onto one first way, the
needed one first. -/
theorem exists_firstWay_of_entangled {items : List Node} {v : Nat}
    (h : TransGen (Needs items) v v) :
    ∃ k s above below, FirstWay items k.item (k :: above ++ s :: below) ∧
      Needs items k.item s.item ∧ ∀ t ∈ k :: above ++ [s], Entangled items v t.item := by
  obtain ⟨_, hneeds, _⟩ := TransGen.head'_iff.mp h
  -- the one that is put into the order last; when one that needs it is left, it is on the path
  obtain ⟨before, w, after, ho, hw, hlast⟩ :=
    exists_last (P := Entangled items v) hneeds.mem_order ⟨.refl, .refl⟩
  obtain ⟨u, hvu, huw⟩ := TransGen.tail'_iff.mp (h.trans_left hw.1)
  have hu : Entangled items v u := ⟨hvu, .head huw hw.2⟩
  have hbefore : u ∈ before := by
    refine (List.mem_append.mp (ho ▸ huw.mem_order)).resolve_right fun hback => ?_
    rcases List.mem_cons.mp hback with heq | hback
    · exact huw.ne heq.symm
    · exact hlast u hback hu
  obtain ⟨front, middle, rfl⟩ := List.append_of_mem hbefore
  have hsplit : (ofItems items).order = front ++ u :: (middle ++ w :: after) := by simp [ho]
  obtain ⟨k, rest, rfl, hway, hneeds, _⟩ := firstWay_ofItems items hsplit
  have hpath : w ∈ rest.map Step.item := by
    refine (hneeds w huw).resolve_left fun hfront => ?_
    have hnodup := nodup_order items
    rw [ho] at hnodup
    exact (List.nodup_append.mp hnodup).2.2 w (List.mem_append_left _ hfront) w
      List.mem_cons_self rfl
  obtain ⟨s, hs, rfl⟩ := List.mem_map.mp hpath
  obtain ⟨above, below, rfl⟩ := List.append_of_mem hs
  rw [← List.cons_append] at hway
  refine ⟨k, s, above, below, hway, huw, fun t ht => ?_⟩
  -- what lies between the two is led to by the one, and leads to the other
  obtain ⟨hfront, _, hacross⟩ := List.pairwise_append.mp hway.leads
  rcases List.mem_append.mp ht with ht | ht
  · have hdown : TransGen (Needs items) s.item t.item := hacross t ht s List.mem_cons_self
    have hup : ReflTransGen (Needs items) t.item k.item := by
      rcases List.mem_cons.mp ht with rfl | ht
      · exact .refl
      · exact ((List.pairwise_cons.mp hfront).1 t ht).to_reflTransGen
    exact ⟨hw.1.trans hdown.to_reflTransGen, hup.trans hu.2⟩
  · rw [List.mem_singleton.mp ht]
    exact hw

/-- A cycle is reported exactly if some circle is the end of the first way to its last item. So it
is, among items that need each other, if some need each other's values in a circle and each one's
first use of another is for its value. -/
theorem value_circle_reported (items : List Node) :
    ((ofItems items).cycles ≠ [] ↔
      ∃ first rest, Circle items first rest ∧ OnFirstWay items first rest) ∧
    ∀ v, TransGen (NeedsValue items) v v →
      (∀ i j, Entangled items v i → Entangled items v j → Needs items i j →
        firstUse? items i j = some ⟨j, true⟩) →
      ∃ first rest c, (∀ i ∈ first :: rest, Entangled items v i) ∧ Circle items first rest ∧
        circleReport? items first rest = some c ∧ c ∈ (ofItems items).cycles := by
  have hreported {first : Nat} {rest : List Nat} (hcircle : Circle items first rest)
      (hway : OnFirstWay items first rest) :
      ∃ c, circleReport? items first rest = some c ∧ c ∈ (ofItems items).cycles := by
    have hlt : first < items.length := by
      obtain ⟨k, above, s, below, _, _, rfl, rfl⟩ := hway
      exact hcircle.closes.needs.lt
    have hreport := circleReport?_eq hlt rest
    exact ⟨_, hreport, (mem_cycles_iff_circle items).mpr ⟨first, rest, hcircle, hway, hreport⟩⟩
  refine ⟨⟨fun hsome => ?_, ?_⟩, ?_⟩
  · obtain ⟨c, hc⟩ := List.exists_mem_of_ne_nil _ hsome
    obtain ⟨first, rest, hcircle, hway, _⟩ := (mem_cycles_iff_circle items).mp hc
    exact ⟨first, rest, hcircle, hway⟩
  · rintro ⟨first, rest, hcircle, hway⟩
    obtain ⟨c, _, hc⟩ := hreported hcircle hway
    exact List.ne_nil_of_mem hc
  · intro v hv hfirst
    have hneeds : TransGen (Needs items) v v := TransGen.mono (fun _ _ => NeedsValue.needs) _ _ hv
    obtain ⟨k, s, above, below, hway, hks, hall⟩ := exists_firstWay_of_entangled hneeds
    have heager : ∀ t ∈ k :: above, t.eager = true :=
      eager_of_linked hway.linked fun p hp t ht =>
        hfirst p.item t.item (hall p hp) (hall t (List.mem_append_left _ ht))
    have hvalue : NeedsValue items k.item s.item :=
      needsValue_iff.mpr
        (List.mem_of_find?_eq_some (hfirst _ _ (hall k (by simp)) (hall s (by simp)) hks))
    have hcircle := circle_of_firstWay hway heager hvalue
    obtain ⟨c, hreport, hc⟩ := hreported hcircle ⟨k, above, s, below, hway, heager, rfl, rfl⟩
    refine ⟨_, _, c, ?_, hcircle, hreport, hc⟩
    intro i hi
    have hmem : i ∈ (k :: above ++ [s]).map Step.item := by
      simpa [or_comm, or_left_comm, or_assoc] using hi
    obtain ⟨t, ht, rfl⟩ := List.mem_map.mp hmem
    exact hall t ht

/-- The items

    val a = {
      val c = b
      val f = fn() { b }
      c
    }
    val b = a

the first of which names `b` inside a function only after it has used its value.
-/
def opened : List Node :=
  [.define ⟨"a", false, false, none⟩
     (.block
       [.define ⟨"c", false, false, none⟩ (.name "b" ⟨20, 21⟩) ⟨12, 21⟩,
        .define ⟨"f", false, false, none⟩ (.lambda [] none [.name "b" ⟨39, 40⟩] ⟨32, 42⟩) ⟨24, 42⟩,
        .name "c" ⟨45, 46⟩] ⟨8, 48⟩) ⟨0, 48⟩,
   .define ⟨"b", false, false, none⟩ (.name "a" ⟨57, 58⟩) ⟨49, 58⟩]

theorem edgesAt_opened_zero : edgesAt opened 0 = [⟨1, true⟩, ⟨1, false⟩] := by cbv

theorem edgesAt_opened_one : edgesAt opened 1 = [⟨0, true⟩] := by cbv

theorem firstUse?_opened {i j : Nat} (h : Needs opened i j) :
    firstUse? opened i j = some ⟨j, true⟩ := by
  obtain ⟨e, he, rfl⟩ := needs_iff.mp h
  match i with
  | 0 =>
    rw [edgesAt_opened_zero] at he
    rw [firstUse?, edgesAt_opened_zero]
    rcases List.mem_cons.mp he with rfl | he
    · rfl
    · rw [List.mem_singleton.mp he]
      rfl
  | 1 =>
    rw [edgesAt_opened_one] at he
    rw [firstUse?, edgesAt_opened_one, List.mem_singleton.mp he]
    rfl
  | i + 2 => cases he

theorem value_circle_reported_opened :
    TransGen (NeedsValue opened) 0 0 ∧
    (∀ i j, Entangled opened 0 i → Entangled opened 0 j → Needs opened i j →
      firstUse? opened i j = some ⟨j, true⟩) ∧
    ∃ first rest c, (∀ i ∈ first :: rest, Entangled opened 0 i) ∧ Circle opened first rest ∧
      circleReport? opened first rest = some c ∧ c ∈ (ofItems opened).cycles := by
  have hab : NeedsValue opened 0 1 := needsValue_iff.mpr (by simp [edgesAt_opened_zero])
  have hba : NeedsValue opened 1 0 := needsValue_iff.mpr (by simp [edgesAt_opened_one])
  have hcircle : TransGen (NeedsValue opened) 0 0 := .tail (.single hab) hba
  have hfirst : ∀ i j, Entangled opened 0 i → Entangled opened 0 j → Needs opened i j →
      firstUse? opened i j = some ⟨j, true⟩ := fun i j _ _ => firstUse?_opened
  exact ⟨hcircle, hfirst, (value_circle_reported opened).2 0 hcircle hfirst⟩

/-- The items

    val a = {
      val f = fn() { b }
      b
    }
    val b = a
-/
def veiled : List Node :=
  [.define ⟨"a", false, false, none⟩
     (.block
       [.define ⟨"f", false, false, none⟩ (.lambda [] none [.name "b" ⟨27, 28⟩] ⟨20, 30⟩) ⟨12, 30⟩,
        .name "b" ⟨33, 34⟩] ⟨8, 36⟩) ⟨0, 36⟩,
   .define ⟨"b", false, false, none⟩ (.name "a" ⟨45, 46⟩) ⟨37, 46⟩]

/-- The search goes from `a` to `b` by the use inside the function, finds that `b` leads back to
`a`, but not for values alone, and passes over the use of the value, since `b` has been visited. -/
theorem value_circle_missed :
    TransGen (NeedsValue veiled) 0 0 ∧ (ofItems veiled).cycles = [] := by
  have hzero : edgesAt veiled 0 = [⟨1, false⟩, ⟨1, true⟩] := by cbv
  have hone : edgesAt veiled 1 = [⟨0, true⟩] := by cbv
  have hab : NeedsValue veiled 0 1 := needsValue_iff.mpr (by simp [hzero])
  have hba : NeedsValue veiled 1 0 := needsValue_iff.mpr (by simp [hone])
  have hcycles : (ofItems veiled).cycles = [] := by cbv
  exact ⟨.tail (.single hab) hba, hcycles⟩

end Tern.Order
