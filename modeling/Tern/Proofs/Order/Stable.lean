import Tern.Proofs.Order

/-!
Where the order leaves the items as they are written. An item goes before one that is written
earlier only if it is needed by an item that is written no later than that one. So the order is
the written one where nothing is used before it is declared, and to order the items once more,
when none need each other in a circle, changes nothing.
-/

set_option autoImplicit false

namespace Tern.Order

open Relation

/-- What holds of the places while the items are put in order. -/
structure Config.Settled (items : List Node) (c : Config) : Prop where
  /-- The first item of the path is written before all others that are not in the order. -/
  root : ∀ r ∈ c.onPath.getLast?, ∀ m, m ∈ c.state.fresh ∨ m ∈ c.onPath → r ≤ m
  pulled : ∀ before j after, c.state.order = before ++ j :: after →
    ∀ i < j, i ∉ before → ∃ k ≤ i, TransGen (Needs items) k j

namespace Config.Settled

variable {items : List Node} {s : State}

theorem enter {k : Step} {e : Edge} {es : List Edge} {rest : List Visit}
    (h : Settled items ⟨⟨k, e :: es⟩ :: rest, s⟩) (he : e.producer ∈ s.fresh) :
    Settled items
      ⟨⟨⟨e.producer, e.eager⟩, edgesAt items e.producer⟩ :: ⟨k, es⟩ :: rest, s.met e.producer⟩ where
  root := by
    intro r hr m hm
    have hold : r ∈ (k.item :: rest.map fun v => v.step.item).getLast? := by
      simpa only [onPath, List.map_cons, List.getLast?_cons_cons] using hr
    refine h.root r hold m ?_
    rcases hm with hm | hm
    · exact Or.inl (List.mem_of_mem_erase hm)
    · rcases List.mem_cons.mp hm with rfl | hm
      · exact Or.inl he
      · exact Or.inr hm
  pulled := h.pulled

theorem leave {k : Step} {rest : List Visit} (ho : Ordered items ⟨⟨k, []⟩ :: rest, s⟩)
    (h : Settled items ⟨⟨k, []⟩ :: rest, s⟩) : Settled items ⟨rest, s.leave k.item⟩ where
  root := by
    intro r hr m hm
    have hlast : (rest.map fun v => v.step.item).getLast? = some r := hr
    refine h.root r (by simp [onPath, List.getLast?_cons, hlast]) m ?_
    exact hm.imp_right (List.mem_cons_of_mem k.item)
  pulled := by
    intro before j after heq i hij hi
    rcases List.eq_nil_or_concat after with rfl | ⟨after, last, rfl⟩
    · -- the item that is left: one that is written earlier and still to come is not the first of
      -- the path, and that first item needs the item that is left
      obtain ⟨rfl, hkj⟩ := List.append_inj' heq rfl
      obtain rfl : k.item = j := by simpa using hkj
      have hlt : k.item < items.length := by
        have hmem := ho.once.mem_iff (a := k.item)
        simpa [onPath] using hmem
      have hwhere := (ho.mem_cases (Nat.lt_trans hij hlt)).imp_right (·.resolve_right hi)
      cases hlast : (rest.map fun v => v.step.item).getLast? with
      | none =>
        have hk : k.item ≤ i := h.root k.item (by simp [onPath, List.getLast?_cons, hlast]) i hwhere
        exact absurd hij (Nat.not_lt_of_le hk)
      | some r =>
        refine ⟨r, h.root r (by simp [onPath, List.getLast?_cons, hlast]) i hwhere, ?_⟩
        exact (List.pairwise_cons.mp ho.reached).1 r (List.mem_of_getLast? hlast)
    · have hinit : s.order ++ [k.item] = (before ++ j :: after) ++ [last] := by
        simpa [State.leave] using heq
      exact h.pulled before j after (List.append_inj' hinit rfl).1 i hij hi

theorem move {c c' : Config} (ho : Ordered items c) (h : Settled items c) (hm : Move items c c') :
    Settled items c' := by
  cases hm with
  | @start s n hn hmin =>
    refine ⟨?_, h.pulled⟩
    intro r hr m hm
    obtain rfl : n = r := by simpa [onPath] using hr
    rcases hm with hm | hm
    · exact hmin m (List.mem_of_mem_erase hm)
    · exact Nat.le_of_eq (List.mem_singleton.mp hm).symm
  | enter he => exact h.enter he
  | meet => exact ⟨h.root, h.pulled⟩
  | leave => exact h.leave ho

end Config.Settled

/-- An item that is before one which is written earlier is needed by an item that is written no
later than that one. -/
theorem pulled_ofItems (items : List Node) {before after : List Nat} {i j : Nat}
    (ho : (ofItems items).order = before ++ j :: after) (hij : i < j) (hi : i ∉ before) :
    ∃ k ≤ i, TransGen (Needs items) k j := by
  obtain ⟨s, hs, heq⟩ := invariant_ofItems items (P := Config.Settled items)
    ⟨by simp [Config.onPath], by simp⟩ fun _ _ hordered h hm => h.move hordered hm
  rw [heq] at ho
  exact hs.pulled before j after ho i hij hi

theorem exists_needed_of_sublist (items : List Node) {i j : Nat} (hij : i < j)
    (h : [j, i].Sublist (ofItems items).order) : ∃ k ≤ i, TransGen (Needs items) k j := by
  obtain ⟨front, back, ho, hj, hi⟩ := List.cons_sublist_iff.mp h
  obtain ⟨before, middle, rfl⟩ := List.append_of_mem hj
  have hnodup := nodup_order items
  rw [ho] at hnodup
  have hlater : i ∉ before := by
    intro hmem
    exact (List.nodup_append.mp hnodup).2.2 i (List.mem_append_left _ hmem) i
      (List.singleton_sublist.mp hi) rfl
  have hsplit : (ofItems items).order = before ++ j :: (middle ++ back) := by simp [ho]
  exact pulled_ofItems items hsplit hij hlater

theorem pair_sublist_or {items : List Node} {i j : Nat} (hij : i < j) (hj : j < items.length) :
    [i, j].Sublist (ofItems items).order ∨ [j, i].Sublist (ofItems items).order := by
  have hjmem := mem_order_iff.mpr hj
  obtain ⟨front, back, ho⟩ := List.append_of_mem (mem_order_iff.mpr (Nat.lt_trans hij hj))
  rw [ho] at hjmem ⊢
  rcases List.mem_append.mp hjmem with hfront | hback
  · exact Or.inr ((List.singleton_sublist.mpr hfront).append
      (List.singleton_sublist.mpr List.mem_cons_self))
  · have hback := (List.mem_cons.mp hback).resolve_left (Nat.ne_of_gt hij)
    have hpair : [i, j].Sublist (i :: back) := (List.singleton_sublist.mpr hback).cons_cons i
    exact Or.inl (hpair.trans (List.sublist_append_right front _))

theorem exists_declared_of_needed {items : List Node} {k j : Nat} (h : TransGen (Needs items) k j) :
    ∃ n x, items[j]? = some n ∧ x ∈ n.declaredNames := by
  obtain ⟨_, _, hneeds⟩ := TransGen.tail'_iff.mp h
  obtain ⟨_, _, r, _, hp, _⟩ := hneeds
  obtain ⟨n, hn, hx⟩ := exists_of_producer? hp
  exact ⟨n, r.name, hn, hx⟩

/-- Items in which nothing is used before it is declared keep their places. -/
theorem order_eq_range {items : List Node} (h : ∀ i j, Needs items i j → j < i) :
    (ofItems items).order = List.range items.length := by
  have hback {k j : Nat} (hkj : TransGen (Needs items) k j) : j < k := by
    induction hkj with
    | single hkj => exact h _ _ hkj
    | tail _ hij ih => exact Nat.lt_trans (h _ _ hij) ih
  have hsorted : (ofItems items).order.Pairwise (· < ·) := by
    refine List.pairwise_iff_forall_sublist.mpr fun {j i} hsub => ?_
    have hne : j ≠ i := by
      rintro rfl
      exact absurd ((nodup_order items).sublist hsub) (by simp)
    by_contra hnot
    have hij : i < j := Nat.lt_of_le_of_ne (Nat.le_of_not_lt hnot) hne.symm
    obtain ⟨k, hk, hkj⟩ := exists_needed_of_sublist items hij hsub
    exact absurd (hback hkj) (Nat.not_lt_of_le (Nat.le_trans hk (Nat.le_of_lt hij)))
  refine List.Perm.eq_of_pairwise ?_ hsorted List.pairwise_lt_range (ordered_ofItems items).1
  intro i j _ _ hij hji
  exact absurd hij (Nat.lt_asymm hji)

/-- An item is put before one that is written earlier only if an item that is written no later than
that one needs it. So an item that declares nothing stays behind all that are written before it, and
all items keep their places if none uses what is declared later. -/
theorem keeps_place_unless_needed (items : List Node) :
    (∀ i j, i < j → [j, i].Sublist (ofItems items).order → ∃ k ≤ i, TransGen (Needs items) k j) ∧
    (∀ i j n, i < j → items[j]? = some n → n.declaredNames = [] →
      [i, j].Sublist (ofItems items).order) ∧
    ((∀ i j, Needs items i j → j < i) → (ofItems items).order = List.range items.length) := by
  refine ⟨fun i j => exists_needed_of_sublist items, ?_, order_eq_range⟩
  intro i j n hij hn hnone
  have hj : j < items.length := (List.getElem?_eq_some_iff.mp hn).1
  refine (pair_sublist_or hij hj).resolve_right fun hsub => ?_
  obtain ⟨k, _, hkj⟩ := exists_needed_of_sublist items hij hsub
  obtain ⟨m, x, hm, hx⟩ := exists_declared_of_needed hkj
  obtain rfl : n = m := Option.some.inj (hn.symm.trans hm)
  rw [hnone] at hx
  cases hx

/-- The items

    b
    val a = b
    val b = 1
    a
-/
def untidy : List Node :=
  [.name "b" ⟨0, 1⟩,
   .define ⟨"a", false, false, none⟩ (.name "b" ⟨10, 11⟩) ⟨2, 11⟩,
   .define ⟨"b", false, false, none⟩ (.literal (.int 1) ⟨20, 21⟩) ⟨12, 21⟩,
   .name "a" ⟨22, 23⟩]

/-- The items

    val b = 1
    b
-/
def tidy : List Node :=
  [.define ⟨"b", false, false, none⟩ (.literal (.int 1) ⟨8, 9⟩) ⟨0, 9⟩, .name "b" ⟨10, 11⟩]

theorem lt_of_needs_tidy {i j : Nat} (h : Needs tidy i j) : j < i := by
  obtain ⟨e, he, rfl⟩ := needs_iff.mp h
  match i with
  | 0 =>
    have hedges : edgesAt tidy 0 = [] := by cbv
    simp [hedges] at he
  | 1 =>
    have hedges : edgesAt tidy 1 = [⟨0, true⟩] := by cbv
    simp [List.mem_singleton.mp (hedges ▸ he)]
  | i + 2 => cases he

/-- The first item needs `b` before it; the last one, which declares nothing, stays behind. -/
theorem keeps_place_unless_needed_untidy :
    ([2, 0].Sublist (ofItems untidy).order ∧ ∃ k ≤ 0, TransGen (Needs untidy) k 2) ∧
    (untidy[3]? = some (.name "a" ⟨22, 23⟩) ∧ (Node.name "a" ⟨22, 23⟩).declaredNames = [] ∧
      [0, 3].Sublist (ofItems untidy).order) ∧
    ((∀ i j, Needs tidy i j → j < i) ∧ (ofItems tidy).order = [0, 1]) := by
  have horder : (ofItems untidy).order = [2, 0, 1, 3] := by cbv
  have hsub : [2, 0].Sublist (ofItems untidy).order := by rw [horder]; decide
  have hpulled := (keeps_place_unless_needed untidy).1 0 2 (by decide) hsub
  have hlast := (keeps_place_unless_needed untidy).2.1 0 3 _ (by decide) rfl rfl
  have htidy := (keeps_place_unless_needed tidy).2.2 fun i j => lt_of_needs_tidy
  exact ⟨⟨hsub, hpulled⟩, ⟨rfl, rfl, hlast⟩, fun i j => lt_of_needs_tidy, htidy⟩

/-! A second ordering -/

theorem getElem?_filterMap {items : List Node} {order : List Nat}
    (h : ∀ i ∈ order, i < items.length) (p : Nat) :
    (order.filterMap fun i => items[i]?)[p]? = order[p]?.bind fun i => items[i]? := by
  induction order generalizing p with
  | nil => rfl
  | cons i order ih =>
    obtain ⟨hi, hrest⟩ := List.forall_mem_cons.mp h
    rw [List.filterMap_cons_some (List.getElem?_eq_getElem hi)]
    cases p with
    | zero => exact (List.getElem?_eq_getElem hi).symm
    | succ p => exact ih hrest p

/-- What stands at a place once the items are in order. -/
theorem getElem?_ordered (items : List Node) (p : Nat) :
    ((ofItems items).order.filterMap fun i => items[i]?)[p]? =
      (ofItems items).order[p]?.bind fun i => items[i]? :=
  getElem?_filterMap (fun _ hi => mem_order_iff.mp hi) p

theorem exists_producer?_of_mem {items : List Node} {x : String} {j : Nat} {n : Node}
    (hn : items[j]? = some n) (hx : x ∈ n.declaredNames) : ∃ m, producer? items x = some m := by
  cases hp : producer? items x with
  | some m => exact ⟨m, rfl⟩
  | none =>
    have hnone := List.findIdx?_eq_none_iff.mp hp n (List.mem_of_getElem? hn)
    simp [hx] at hnone

theorem producer?_le {items : List Node} {x : String} {m j : Nat} {n : Node}
    (hp : producer? items x = some m) (hn : items[j]? = some n) (hx : x ∈ n.declaredNames) :
    m ≤ j := by
  obtain ⟨hm, _, hmin⟩ := List.findIdx?_eq_some_iff_getElem.mp hp
  by_contra hlt
  have hj : j < m := Nat.lt_of_not_le hlt
  obtain ⟨_, rfl⟩ := List.getElem?_eq_some_iff.mp hn
  exact hmin j hj (by simpa using hx)

/-- In the items that are put in order, nothing is used before it is declared. The declarer of a
name may be another one than before, since the order changes which is the first: but where an item
uses a name, the one that it needed for it stands before it, or it declares the name itself. -/
theorem Acyclic.lt_of_needs_ordered {items : List Node} (h : Acyclic items) {p q : Nat}
    (hpq : Needs ((ofItems items).order.filterMap fun i => items[i]?) p q) : q < p := by
  obtain ⟨n, hn, r, hr, hq, hne⟩ := hpq
  obtain ⟨i, hi, hni⟩ : ∃ i, (ofItems items).order[p]? = some i ∧ items[i]? = some n := by
    rw [getElem?_ordered] at hn
    exact Option.bind_eq_some_iff.mp hn
  obtain ⟨d, hd, hx⟩ := exists_of_producer? hq
  obtain ⟨j, _, hdj⟩ : ∃ j, (ofItems items).order[q]? = some j ∧ items[j]? = some d := by
    rw [getElem?_ordered] at hd
    exact Option.bind_eq_some_iff.mp hd
  obtain ⟨m, hm⟩ := exists_producer?_of_mem hdj hx
  by_cases hmi : m = i
  · obtain ⟨n', hn', hx'⟩ := exists_of_producer? hm
    obtain rfl : n' = n := Option.some.inj (hn'.symm.trans (hmi ▸ hni))
    exact Nat.lt_of_le_of_ne (producer?_le hq hn hx') hne
  · have hneeds : Needs items i m := ⟨n, hni, r, hr, hm, hmi⟩
    obtain ⟨hp, rfl⟩ := List.getElem?_eq_some_iff.mp hi
    have hsplit : (ofItems items).order = (ofItems items).order.take p ++
        (ofItems items).order[p] :: (ofItems items).order.drop (p + 1) := by
      rw [List.getElem_cons_drop, List.take_append_drop]
    obtain ⟨k, hk, hkm⟩ := List.mem_take_iff_getElem.mp (h.mem_before hsplit hneeds)
    have hkp : k < p := by omega
    have hstands : (ofItems items).order[k]? = some m :=
      List.getElem?_eq_some_iff.mpr ⟨by omega, hkm⟩
    obtain ⟨d', hd', hx'⟩ := exists_of_producer? hm
    have hplace : ((ofItems items).order.filterMap fun i => items[i]?)[k]? = some d' := by
      rw [getElem?_ordered, hstands]
      exact hd'
    exact Nat.lt_of_le_of_lt (producer?_le hq hplace hx') hkp

/-- Items that do not need each other in a circle are put in order once and for all. -/
theorem Acyclic.order_again {items : List Node} (h : Acyclic items) :
    (ofItems ((ofItems items).order.filterMap fun i => items[i]?)).order =
      List.range items.length := by
  rw [order_eq_range fun p q => h.lt_of_needs_ordered, (perm_ordered items).length_eq]

/-- The items

    val a = c + b
    val b = 1
    data D = b | c

The first one needs both others. In order it is the `data` declaration that declares `b` first.
-/
def claimedTwice : List Node :=
  [.define ⟨"a", false, false, none⟩ (.binary .add (.name "c" ⟨8, 9⟩) (.name "b" ⟨12, 13⟩) ⟨8, 13⟩)
     ⟨0, 13⟩,
   .define ⟨"b", false, false, none⟩ (.literal (.int 1) ⟨22, 23⟩) ⟨14, 23⟩,
   .data ⟨"D", false, [], [⟨"b", false, [], ⟨33, 34⟩⟩, ⟨"c", false, [], ⟨37, 38⟩⟩]⟩ ⟨24, 38⟩]

theorem acyclic_claimedTwice : Acyclic claimedTwice := by
  refine acyclic_of_lt fun i e he => ?_
  match i with
  | 0 =>
    have hedges : edgesAt claimedTwice 0 = [⟨2, true⟩, ⟨1, true⟩] := by cbv
    rw [hedges] at he
    rcases List.mem_cons.mp he with rfl | he
    · decide
    · simp [List.mem_singleton.mp he]
  | 1 =>
    have hedges : edgesAt claimedTwice 1 = [] := by cbv
    simp [hedges] at he
  | 2 =>
    have hedges : edgesAt claimedTwice 2 = [] := by cbv
    simp [hedges] at he
  | i + 3 => cases he

/-- The second ordering follows another graph, and changes nothing all the same. -/
theorem order_again_claimedTwice :
    Acyclic claimedTwice ∧ (ofItems claimedTwice).order = [2, 1, 0] ∧
    (ofItems ((ofItems claimedTwice).order.filterMap fun i => claimedTwice[i]?)).order =
      List.range claimedTwice.length :=
  ⟨acyclic_claimedTwice, by cbv, acyclic_claimedTwice.order_again⟩

end Tern.Order
