import Mathlib.Data.List.Nodup
import Mathlib.Data.List.Perm.Basic
import Mathlib.Logic.Relation
import Tern.Order

/-!
The order of the items, seen as a run of a machine that makes one move at a time: it enters an item,
meets one again, or leaves one for which nothing is left to do. What is true of the order is an
invariant of these moves.
-/

set_option autoImplicit false

namespace Tern.Order

open Relation

/-- The item at `i` uses a name that the item at `j`, another one, declares first. -/
def Needs (items : List Node) (i j : Nat) : Prop :=
  ∃ n, items[i]? = some n ∧ ∃ r ∈ Reference.ofItem n, producer? items r.name = some j ∧ j ≠ i

/-- The edges of the item at `i`. -/
def edgesAt (items : List Node) (i : Nat) : List Edge := (graph items)[i]?.getD []

theorem mem_edges {items : List Node} {i : Nat} {n : Node} {e : Edge} :
    e ∈ edges items i n ↔ ∃ r ∈ Reference.ofItem n, producer? items r.name = some e.producer ∧
      e.producer ≠ i ∧ e.eager = (r.eager && !(items[e.producer]?.any Node.isFunction)) := by
  simp only [edges, List.mem_filterMap]
  refine exists_congr fun r => and_congr_right fun _ => ?_
  cases producer? items r.name with
  | none => simp
  | some p =>
    by_cases hp : p = i
    · simp only [hp, if_true, Option.some.injEq, reduceCtorEq, false_iff]
      rintro ⟨rfl, hne, _⟩
      exact hne rfl
    · simp only [if_neg hp, Option.some.injEq]
      constructor
      · rintro rfl
        exact ⟨rfl, hp, rfl⟩
      · rintro ⟨rfl, _, he⟩
        rw [← he]

theorem mem_edgesAt {items : List Node} {i : Nat} {e : Edge} :
    e ∈ edgesAt items i ↔ ∃ n, items[i]? = some n ∧ e ∈ edges items i n := by
  have hg : (graph items)[i]? = items[i]?.map (edges items i) := by
    simp [graph, List.getElem?_zipIdx, Option.map_map, Function.comp_def]
  rw [edgesAt, hg]
  cases items[i]? with
  | none => simp
  | some n => simp

theorem needs_iff {items : List Node} {i j : Nat} :
    Needs items i j ↔ ∃ e ∈ edgesAt items i, e.producer = j := by
  constructor
  · rintro ⟨n, hn, r, hr, hp, hne⟩
    refine ⟨⟨j, r.eager && !(items[j]?.any Node.isFunction)⟩, ?_, rfl⟩
    exact mem_edgesAt.mpr ⟨n, hn, mem_edges.mpr ⟨r, hr, hp, hne, rfl⟩⟩
  · rintro ⟨e, he, rfl⟩
    obtain ⟨n, hn, he⟩ := mem_edgesAt.mp he
    obtain ⟨r, hr, hp, hne, _⟩ := mem_edges.mp he
    exact ⟨n, hn, r, hr, hp, hne⟩

theorem Needs.ne {items : List Node} {i j : Nat} (h : Needs items i j) : j ≠ i := by
  obtain ⟨_, _, _, _, _, hne⟩ := h
  exact hne

theorem exists_of_producer? {items : List Node} {x : String} {j : Nat}
    (h : producer? items x = some j) : ∃ n, items[j]? = some n ∧ x ∈ n.declaredNames := by
  obtain ⟨hj, hx, _⟩ := List.findIdx?_eq_some_iff_getElem.mp h
  exact ⟨items[j], List.getElem?_eq_getElem hj, by simpa using hx⟩

theorem Needs.lt {items : List Node} {i j : Nat} (h : Needs items i j) : j < items.length := by
  obtain ⟨_, _, _, _, hp, _⟩ := h
  obtain ⟨n, hn, _⟩ := exists_of_producer? hp
  exact (List.getElem?_eq_some_iff.mp hn).1

/-! The machine -/

/-- An item on the path, and its edges that are still to be followed. -/
structure Visit where
  step : Step
  todo : List Edge

/-- The path, from its end, and what is known. -/
structure Config where
  path : List Visit
  state : State

def State.met (s : State) (n : Nat) : State := { s with fresh := s.fresh.erase n }

def State.leave (s : State) (n : Nat) : State := { s with order := s.order ++ [n] }

def State.close (s : State) (cycle : Option Cycle) : State :=
  { s with cycles := s.cycles ++ cycle.toList }

/-- What happens next; the first item not yet met is next where the path is empty. -/
inductive Move (items : List Node) : Config → Config → Prop
  | start {s : State} {n : Nat} (h : n ∈ s.fresh) (hmin : ∀ m ∈ s.fresh, n ≤ m) :
      Move items ⟨[], s⟩ ⟨[⟨⟨n, false⟩, edgesAt items n⟩], s.met n⟩
  | enter {s : State} {k : Step} {e : Edge} {es : List Edge} {rest : List Visit}
      (h : e.producer ∈ s.fresh) :
      Move items ⟨⟨k, e :: es⟩ :: rest, s⟩
        ⟨⟨⟨e.producer, e.eager⟩, edgesAt items e.producer⟩ :: ⟨k, es⟩ :: rest, s.met e.producer⟩
  | meet {s : State} {k : Step} {e : Edge} {es : List Edge} {rest : List Visit}
      (h : e.producer ∉ s.fresh) :
      Move items ⟨⟨k, e :: es⟩ :: rest, s⟩
        ⟨⟨k, es⟩ :: rest, s.close (cycle? items (k :: rest.map Visit.step) e)⟩
  | leave {s : State} {k : Step} {rest : List Visit} :
      Move items ⟨⟨k, []⟩ :: rest, s⟩ ⟨rest, s.leave k.item⟩

/-- Several moves. -/
abbrev Runs (items : List Node) : Config → Config → Prop := ReflTransGen (Move items)

mutual

theorem runs_visit (items : List Node) {n : Nat} (eager : Bool) (rest : List Visit) (s : State)
    (h : n ∈ s.fresh) :
    Runs items ⟨⟨⟨n, eager⟩, edgesAt items n⟩ :: rest, s.met n⟩
      ⟨rest, (visit items (graph items) (⟨n, eager⟩ :: rest.map Visit.step) s n h).val⟩ := by
  rw [visit]
  have hlt : (s.met n).fresh.length < s.fresh.length := length_erase_lt h
  exact (runs_follow items ⟨n, eager⟩ rest (s.met n) (edgesAt items n)).tail .leave
termination_by (s.fresh.length, 0)

theorem runs_follow (items : List Node) (k : Step) (rest : List Visit) (s : State)
    (es : List Edge) :
    Runs items ⟨⟨k, es⟩ :: rest, s⟩
      ⟨⟨k, []⟩ :: rest, (follow items (graph items) (k :: rest.map Visit.step) s es).val⟩ := by
  cases es with
  | nil =>
    rw [follow]
  | cons e es =>
    rw [follow]
    split
    · rename_i h
      have hv := runs_visit items e.eager (⟨k, es⟩ :: rest) s h
      have hlt := (visit items (graph items)
        (⟨e.producer, e.eager⟩ :: k :: rest.map Visit.step) s e.producer h).property
      exact (hv.head (.enter h)).trans (runs_follow items k rest _ es)
    · rename_i h
      exact (runs_follow items k rest _ es).head (.meet h)
termination_by (s.fresh.length, es.length + 1)

end

theorem Move.fresh_sublist {items : List Node} {c c' : Config} (h : Move items c c') :
    c'.state.fresh.Sublist c.state.fresh := by
  cases h with
  | start => exact List.erase_sublist
  | enter => exact List.erase_sublist
  | meet => exact .refl _
  | leave => exact .refl _

theorem Runs.fresh_sublist {items : List Node} {c c' : Config} (h : Runs items c c') :
    c'.state.fresh.Sublist c.state.fresh := by
  induction h with
  | refl => exact .refl _
  | tail _ hm ih => exact hm.fresh_sublist.trans ih

/-- All items are visited. -/
theorem runs_visitAll (items : List Node) (ns : List Nat) (s : State) (hs : s.fresh.Nodup)
    (hns : ns.Pairwise (· < ·)) (hf : ∀ m ∈ s.fresh, m ∈ ns) :
    Runs items ⟨[], s⟩ ⟨[], visitAll items (graph items) ns s⟩ ∧
      (visitAll items (graph items) ns s).fresh = [] := by
  induction ns generalizing s with
  | nil => exact ⟨.refl, List.eq_nil_iff_forall_not_mem.mpr fun m hm => by simpa using hf m hm⟩
  | cons n ns ih =>
    obtain ⟨hlt, hns⟩ := List.pairwise_cons.mp hns
    rw [visitAll]
    split
    · rename_i h
      have hmin : ∀ m ∈ s.fresh, n ≤ m := by
        intro m hm
        rcases List.mem_cons.mp (hf m hm) with rfl | hm
        · exact Nat.le_refl _
        · exact Nat.le_of_lt (hlt m hm)
      have hv := runs_visit items false [] s h
      have hsub := hv.fresh_sublist
      obtain ⟨hrun, hnil⟩ := ih _ ((hs.erase n).sublist hsub) hns (by
        intro m hm
        obtain ⟨hne, hm⟩ := hs.mem_erase_iff.mp (hsub.subset hm)
        exact (List.mem_cons.mp (hf m hm)).resolve_left hne)
      exact ⟨(hv.head (.start h hmin)).trans hrun, hnil⟩
    · rename_i h
      refine ih s hs hns fun m hm => ?_
      refine (List.mem_cons.mp (hf m hm)).resolve_left ?_
      rintro rfl
      exact h hm

theorem runs_ofItems (items : List Node) :
    ∃ s : State, Runs items ⟨[], ⟨List.range items.length, [], []⟩⟩ ⟨[], s⟩ ∧ s.fresh = [] ∧
      ofItems items = ⟨s.order, s.cycles⟩ := by
  obtain ⟨hrun, hnil⟩ := runs_visitAll items (List.range items.length)
    ⟨List.range items.length, [], []⟩ List.nodup_range List.pairwise_lt_range (fun _ h => h)
  exact ⟨_, hrun, hnil, rfl⟩

/-! Every item once, and after what it needs -/

/-- The items on the path, from its end. -/
def Config.onPath (c : Config) : List Nat := c.path.map fun v => v.step.item

/-- What holds while the items are put in order. -/
structure Config.Ordered (items : List Node) (c : Config) : Prop where
  once : (c.state.fresh ++ c.onPath ++ c.state.order).Perm (List.range items.length)
  /-- An item on the path is there because of those before it. -/
  reached : c.onPath.Pairwise fun i j => TransGen (Needs items) j i
  followed : ∀ v ∈ c.path, v.todo ⊆ edgesAt items v.step.item ∧
    ∀ e ∈ edgesAt items v.step.item, e ∈ v.todo ∨ e.producer ∉ c.state.fresh
  before : ∀ before i after, c.state.order = before ++ i :: after →
    ∀ j, Needs items i j → j ∈ before ∨ TransGen (Needs items) j i

namespace Config.Ordered

variable {items : List Node} {path : List Visit} {s : State}

theorem push (h : Ordered items ⟨path, s⟩) {n : Nat} (hn : n ∈ s.fresh) (eager : Bool)
    (hr : ∀ v ∈ path, TransGen (Needs items) v.step.item n) :
    Ordered items ⟨⟨⟨n, eager⟩, edgesAt items n⟩ :: path, s.met n⟩ where
  once := by
    refine List.Perm.trans ?_ h.once
    have hperm := (List.perm_cons_erase hn).symm
    simp only [onPath, State.met, List.map_cons, List.append_assoc, List.cons_append]
    exact List.perm_middle.trans (hperm.append_right _)
  reached := by
    refine List.pairwise_cons.mpr ⟨?_, h.reached⟩
    intro j hj
    obtain ⟨v, hv, rfl⟩ := List.mem_map.mp hj
    exact hr v hv
  followed := by
    intro v hv
    rcases List.mem_cons.mp hv with rfl | hv
    · exact ⟨List.Subset.refl _, fun e he => Or.inl he⟩
    · obtain ⟨hsub, hf⟩ := h.followed v hv
      exact ⟨hsub, fun e he => (hf e he).imp_right (mt List.mem_of_mem_erase)⟩
  before := h.before

/-- An edge to an item that was met is followed. -/
theorem skip (vs : List Visit) {rest : List Visit} {k : Step} {e : Edge} {es : List Edge}
    (h : Ordered items ⟨vs ++ ⟨k, e :: es⟩ :: rest, s⟩) (he : e.producer ∉ s.fresh) :
    Ordered items ⟨vs ++ ⟨k, es⟩ :: rest, s⟩ where
  once := by simpa [onPath] using h.once
  reached := by simpa [onPath] using h.reached
  followed := by
    intro v hv
    have hmem (w : Visit) (hw : w ∈ vs ∨ w ∈ rest) : w ∈ vs ++ ⟨k, e :: es⟩ :: rest := by
      simp only [List.mem_append, List.mem_cons]
      exact hw.imp_right Or.inr
    rcases List.mem_append.mp hv with hv | hv
    · exact h.followed v (hmem v (Or.inl hv))
    · rcases List.mem_cons.mp hv with rfl | hv
      · obtain ⟨hsub, hf⟩ := h.followed ⟨k, e :: es⟩ (by simp)
        refine ⟨List.Subset.trans (List.subset_cons_self e es) hsub, ?_⟩
        intro d hd
        rcases hf d hd with hd | hd
        · rcases List.mem_cons.mp hd with rfl | hd
          · exact Or.inr he
          · exact Or.inl hd
        · exact Or.inr hd
      · exact h.followed v (hmem v (Or.inr hv))
  before := h.before

theorem nodup {c : Config} (h : Ordered items c) :
    (c.state.fresh ++ c.onPath ++ c.state.order).Nodup :=
  h.once.nodup_iff.mpr List.nodup_range

/-- An item on the path, or not yet met, or in the order. -/
theorem mem_cases {c : Config} (h : Ordered items c) {j : Nat} (hj : j < items.length) :
    j ∈ c.state.fresh ∨ j ∈ c.onPath ∨ j ∈ c.state.order := by
  have hmem := h.once.mem_iff.mpr (List.mem_range.mpr hj)
  simpa only [List.mem_append, or_assoc] using hmem

theorem leave {rest : List Visit} {k : Step} (h : Ordered items ⟨⟨k, []⟩ :: rest, s⟩) :
    Ordered items ⟨rest, s.leave k.item⟩ where
  once := by
    let others := s.fresh ++ rest.map (fun v => v.step.item) ++ s.order
    have hnew : (others ++ [k.item]).Perm (k.item :: others) := List.perm_append_singleton _ _
    have hold : (k.item :: others).Perm
        (s.fresh ++ k.item :: rest.map (fun v => v.step.item) ++ s.order) :=
      (List.perm_middle.append_right s.order).symm
    refine List.Perm.trans ?_ ((hnew.trans hold).trans h.once)
    simp [others, onPath, State.leave]
  reached := (List.pairwise_cons.mp h.reached).2
  followed := fun v hv => h.followed v (List.mem_cons_of_mem _ hv)
  before := by
    intro before i after heq j hj
    rcases List.eq_nil_or_concat after with rfl | ⟨after, last, rfl⟩
    · -- the item that is left: what it needs is in the order, or on the path before it
      obtain ⟨rfl, hik⟩ := List.append_inj' heq rfl
      obtain rfl : k.item = i := by simpa using hik
      obtain ⟨e, he, rfl⟩ := needs_iff.mp hj
      have hfresh := ((h.followed ⟨k, []⟩ List.mem_cons_self).2 e he).resolve_left List.not_mem_nil
      rcases (h.mem_cases hj.lt).resolve_left hfresh with hp | ho
      · have hrest := (List.mem_cons.mp hp).resolve_left hj.ne
        exact Or.inr ((List.pairwise_cons.mp h.reached).1 _ hrest)
      · exact Or.inl ho
    · have hinit : s.order ++ [k.item] = (before ++ i :: after) ++ [last] := by
        simpa [State.leave] using heq
      exact h.before before i after (List.append_inj' hinit rfl).1 j hj

theorem move {c c' : Config} (h : Ordered items c) (hm : Move items c c') : Ordered items c' := by
  cases hm with
  | start hn => exact h.push hn false (by simp)
  | @enter s k e es rest he =>
    obtain ⟨hk, hrest⟩ := List.pairwise_cons.mp h.reached
    have hsub := (h.followed ⟨k, e :: es⟩ List.mem_cons_self).1
    have hneeds : Needs items k.item e.producer := needs_iff.mpr ⟨e, hsub List.mem_cons_self, rfl⟩
    have hpush := h.push he e.eager (by
      intro v hv
      rcases List.mem_cons.mp hv with rfl | hv
      · exact .single hneeds
      · exact .tail (hk _ (List.mem_map_of_mem hv)) hneeds)
    refine hpush.skip [_] ?_
    have hnodup : s.fresh.Nodup := (List.nodup_append.mp (List.nodup_append.mp h.nodup).1).1
    exact hnodup.not_mem_erase
  | meet he =>
    have hskip := h.skip [] he
    exact ⟨hskip.once, hskip.reached, hskip.followed, hskip.before⟩
  | leave => exact h.leave

theorem runs {c c' : Config} (h : Ordered items c) (hr : Runs items c c') : Ordered items c' := by
  induction hr with
  | refl => exact h
  | tail _ hm ih => exact ih.move hm

end Config.Ordered

theorem Config.ordered_start (items : List Node) :
    Config.Ordered items ⟨[], ⟨List.range items.length, [], []⟩⟩ :=
  ⟨by simp [Config.onPath], .nil, by simp, by simp⟩

/-- What holds at the start, and is kept by every move, holds once all items are in order. -/
theorem invariant_ofItems (items : List Node) {P : Config → Prop}
    (hstart : P ⟨[], ⟨List.range items.length, [], []⟩⟩)
    (hmove : ∀ c c', Config.Ordered items c → P c → Move items c c' → P c') :
    ∃ s : State, P ⟨[], s⟩ ∧ ofItems items = ⟨s.order, s.cycles⟩ := by
  obtain ⟨s, hrun, _, heq⟩ := runs_ofItems items
  suffices hinv : ∀ c, Runs items ⟨[], ⟨List.range items.length, [], []⟩⟩ c → P c from
    ⟨s, hinv _ hrun, heq⟩
  intro c hc
  induction hc with
  | refl => exact hstart
  | tail hr hm ih => exact hmove _ _ ((Config.ordered_start items).runs hr) ih hm

/-- The order holds every item once, and an item stands after what it needs, unless that needs the
item in turn. -/
theorem ordered_ofItems (items : List Node) :
    (ofItems items).order.Perm (List.range items.length) ∧
    ∀ before i after, (ofItems items).order = before ++ i :: after →
      ∀ j, Needs items i j → j ∈ before ∨ TransGen (Needs items) j i := by
  obtain ⟨s, hrun, hnil, heq⟩ := runs_ofItems items
  have h := (Config.ordered_start items).runs hrun
  have honce := h.once
  simp only [hnil, Config.onPath, List.map_nil, List.nil_append] at honce
  rw [heq]
  exact ⟨honce, h.before⟩

theorem nodup_order (items : List Node) : (ofItems items).order.Nodup :=
  (ordered_ofItems items).1.nodup_iff.mpr List.nodup_range

theorem mem_order_iff {items : List Node} {i : Nat} :
    i ∈ (ofItems items).order ↔ i < items.length :=
  (ordered_ofItems items).1.mem_iff.trans List.mem_range

theorem Needs.mem_order {items : List Node} {i j : Nat} (h : Needs items i j) :
    i ∈ (ofItems items).order := by
  obtain ⟨n, hn, _⟩ := h
  exact mem_order_iff.mpr (List.getElem?_eq_some_iff.mp hn).1

/-- Every item has one place in the order, and what an item needs is put before it, unless it needs
the item in turn. -/
theorem each_once_after_its_needs (items : List Node) :
    (ofItems items).order.Perm (List.range items.length) ∧
    ∀ i j, Needs items i j → ¬ TransGen (Needs items) j i → [j, i].Sublist (ofItems items).order := by
  obtain ⟨honce, hbefore⟩ := ordered_ofItems items
  refine ⟨honce, ?_⟩
  intro i j hneeds hback
  have hi : i ∈ (ofItems items).order := by
    obtain ⟨n, hn, _⟩ := hneeds
    exact honce.mem_iff.mpr (List.mem_range.mpr (List.getElem?_eq_some_iff.mp hn).1)
  obtain ⟨before, after, horder⟩ := List.append_of_mem hi
  have hj : j ∈ before := (hbefore before i after horder j hneeds).resolve_right hback
  rw [horder]
  exact (List.singleton_sublist.mpr hj).append (List.singleton_sublist.mpr List.mem_cons_self)

/-- The items

    val a = b
    val b = fn() { c }
    val c = b
-/
def knotted : List Node :=
  [.define ⟨"a", false, false, none⟩ (.name "b" ⟨8, 9⟩) ⟨0, 9⟩,
   .define ⟨"b", false, false, none⟩ (.lambda [] none [.name "c" ⟨25, 26⟩] ⟨18, 28⟩) ⟨10, 28⟩,
   .define ⟨"c", false, false, none⟩ (.name "b" ⟨37, 38⟩) ⟨29, 38⟩]

theorem edgesAt_knotted (i : Nat) :
    edgesAt knotted i =
      if i = 0 then [⟨1, true⟩] else if i = 1 then [⟨2, false⟩]
      else if i = 2 then [⟨1, true⟩] else [] := by
  match i with
  | 0 => cbv
  | 1 => cbv
  | 2 => cbv
  | i + 3 => rfl

/-- `a` comes after `b`, although `b` is in a circle. -/
theorem each_once_after_its_needs_knotted :
    Needs knotted 0 1 ∧ ¬ TransGen (Needs knotted) 1 0 ∧ [1, 0].Sublist (ofItems knotted).order := by
  have hneeds : Needs knotted 0 1 := needs_iff.mpr ⟨⟨1, true⟩, by simp [edgesAt_knotted], rfl⟩
  have hback : ¬ TransGen (Needs knotted) 1 0 := by
    intro h
    obtain ⟨i, _, hi⟩ := TransGen.tail'_iff.mp h
    obtain ⟨e, he, hzero⟩ := needs_iff.mp hi
    rw [edgesAt_knotted] at he
    repeat' split at he
    all_goals simp_all
  exact ⟨hneeds, hback, (each_once_after_its_needs knotted).2 0 1 hneeds hback⟩

/-- No items need each other in a circle. -/
def Acyclic (items : List Node) : Prop := ∀ i, ¬ TransGen (Needs items) i i

theorem acyclic_of_lt {items : List Node} (h : ∀ i, ∀ e ∈ edgesAt items i, i < e.producer) :
    Acyclic items := by
  have hlt {i j : Nat} (hij : TransGen (Needs items) i j) : i < j := by
    induction hij with
    | single hij =>
      obtain ⟨e, he, rfl⟩ := needs_iff.mp hij
      exact h _ e he
    | tail _ hjk ih =>
      obtain ⟨e, he, rfl⟩ := needs_iff.mp hjk
      exact Nat.lt_trans ih (h _ e he)
  exact fun i hi => Nat.lt_irrefl i (hlt hi)

theorem Acyclic.mem_before {items : List Node} (h : Acyclic items) {before after : List Nat}
    {i j : Nat} (ho : (ofItems items).order = before ++ i :: after) (hj : Needs items i j) :
    j ∈ before := by
  refine ((ordered_ofItems items).2 before i after ho j hj).resolve_right ?_
  intro hji
  exact h i (.head hj hji)

/-! Items that declare different names, in whatever order they are written -/

/-- The item uses a name that the other one declares. -/
def Uses (a b : Node) : Prop := ∃ r ∈ Reference.ofItem a, r.name ∈ b.declaredNames

instance (a b : Node) : Decidable (Uses a b) :=
  inferInstanceAs (Decidable (∃ r ∈ Reference.ofItem a, r.name ∈ b.declaredNames))

section Distinct

variable {items : List Node} (hnames : (items.flatMap Node.declaredNames).Nodup)
include hnames

theorem producer?_eq_some {j : Nat} {m : Node} {x : String} (hj : items[j]? = some m)
    (hx : x ∈ m.declaredNames) : producer? items x = some j := by
  obtain ⟨hlt, rfl⟩ := List.getElem?_eq_some_iff.mp hj
  refine List.findIdx?_eq_some_iff_getElem.mpr ⟨hlt, by simpa using hx, ?_⟩
  intro k hk hmem
  have hdisjoint := List.pairwise_iff_getElem.mp (List.nodup_flatMap.mp hnames).2
  exact hdisjoint k j (Nat.lt_trans hk hlt) hlt hk (by simpa using hmem) hx

theorem needs_of_uses {i j : Nat} {a b : Node} (hi : items[i]? = some a) (hj : items[j]? = some b)
    (hne : j ≠ i) (h : Uses a b) : Needs items i j := by
  obtain ⟨r, hr, hx⟩ := h
  exact ⟨a, hi, r, hr, producer?_eq_some hnames hj hx, hne⟩

/-- An item that another one needs is not written twice. -/
theorem Needs.uses {i j : Nat} (h : Needs items i j) :
    ∃ a b, items[i]? = some a ∧ items[j]? = some b ∧ a ≠ b ∧ Uses a b := by
  obtain ⟨a, hi, r, hr, hp, hne⟩ := h
  obtain ⟨b, hj, hx⟩ := exists_of_producer? hp
  refine ⟨a, b, hi, hj, ?_, r, hr, hx⟩
  rintro rfl
  exact hne (Option.some.inj ((producer?_eq_some hnames hj hx).symm.trans
    (producer?_eq_some hnames hi hx)))

/-- Whether items need each other in a circle does not depend on their order. -/
theorem Acyclic.of_perm {items' : List Node} (h : Acyclic items) (hp : items'.Perm items) :
    Acyclic items' := by
  have hnames' : (items'.flatMap Node.declaredNames).Nodup := (hp.flatMap_right _).nodup_iff.mpr hnames
  -- each item has a place in the other list
  have hplace (i : Nat) : ∃ j : Nat, ∀ n, items'[i]? = some n → items[j]? = some n := by
    cases hi : items'[i]? with
    | none => exact ⟨0, by simp⟩
    | some n =>
      obtain ⟨j, hj⟩ := List.getElem?_of_mem (hp.subset (List.mem_of_getElem? hi))
      exact ⟨j, by simpa using hj⟩
  choose place hplace using hplace
  have hlift (i j : Nat) (hij : Needs items' i j) : Needs items (place i) (place j) := by
    obtain ⟨a, b, hi, hj, hab, huses⟩ := hij.uses hnames'
    have hi' := hplace i a hi
    have hj' := hplace j b hj
    refine needs_of_uses hnames hi' hj' (fun heq => hab ?_) huses
    exact Option.some.inj (hi'.symm.trans (heq ▸ hj'))
  intro i hi
  exact h (place i) (TransGen.lift place hlift i i hi)

end Distinct

theorem filterMap_range (items : List Node) :
    (List.range items.length).filterMap (fun i => items[i]?) = items := by
  induction items with
  | nil => rfl
  | cons n items ih =>
    rw [List.length_cons, List.range_succ_eq_map, List.filterMap_cons_some (by rfl), List.filterMap_map]
    exact congrArg (n :: ·) ih

/-- All items, in the order of conversion. -/
theorem perm_ordered (items : List Node) :
    ((ofItems items).order.filterMap fun i => items[i]?).Perm items := by
  have h := (ordered_ofItems items).1.filterMap fun i => items[i]?
  rwa [filterMap_range] at h

/-- No item comes before one that it uses. -/
theorem Acyclic.pairwise_ordered {items : List Node} (h : Acyclic items)
    (hnames : (items.flatMap Node.declaredNames).Nodup) :
    ((ofItems items).order.filterMap fun i => items[i]?).Pairwise fun a b => ¬ Uses a b := by
  have hnodup := nodup_order items
  have hrest (before rest : List Nat) (ho : (ofItems items).order = before ++ rest) :
      rest.Pairwise fun i j => ¬ Needs items i j ∧ j ≠ i := by
    induction rest generalizing before with
    | nil => exact .nil
    | cons i rest ih =>
      refine List.pairwise_cons.mpr ⟨fun j hj => ?_, ih (before ++ [i]) (by simpa using ho)⟩
      rw [ho] at hnodup
      obtain ⟨_, hafter, hdisjoint⟩ := List.nodup_append.mp hnodup
      constructor
      · intro hneeds
        exact hdisjoint j (h.mem_before ho hneeds) j (List.mem_cons_of_mem i hj) rfl
      · rintro rfl
        exact (List.nodup_cons.mp hafter).1 hj
  refine List.pairwise_filterMap.mpr ((hrest [] _ rfl).imp ?_)
  rintro i j ⟨hneeds, hne⟩ a hi b hj huses
  exact hneeds (needs_of_uses hnames hi hj hne huses)

end Tern.Order
