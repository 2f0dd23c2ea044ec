import Mathlib.Data.List.Induction
import Tern.Proofs.Order

/-!
The way on which the search comes to an item, told from the graph alone. It starts from the first
item that leads to the one in question, and from each item takes the first use from which that one
can still be reached without the items met so far. What the search reports is decided by these ways.
-/

set_option autoImplicit false

namespace Tern.Order

open Relation

/-- What is needed leads from the item at `j` to the one at `i`, past none of the items in `met`. -/
def ReachesWithout (items : List Node) (met : List Nat) (j i : Nat) : Prop :=
  j ∉ met ∧ ReflTransGen (fun a b => Needs items a b ∧ b ∉ met) j i

/-- The steps, the last one first, are the beginning of the first way to the item at `i`. -/
inductive FirstWay (items : List Node) (i : Nat) : List Step → Prop
  | start {r : Nat} (h : ReachesWithout items [] r i)
      (hmin : ∀ q < r, ¬ ReachesWithout items [] q i) : FirstWay items i [⟨r, false⟩]
  | step {k : Step} {rest : List Step} {before after : List Edge} {e : Edge}
      (h : FirstWay items i (k :: rest)) (hes : edgesAt items k.item = before ++ e :: after)
      (hreach : ReachesWithout items ((k :: rest).map Step.item) e.producer i)
      (hfirst : ∀ d ∈ before, ¬ ReachesWithout items ((k :: rest).map Step.item) d.producer i) :
      FirstWay items i (⟨e.producer, e.eager⟩ :: k :: rest)

/-- The first use in the item at `i` of what the item at `j` declares. -/
def firstUse? (items : List Node) (i j : Nat) : Option Edge :=
  (edgesAt items i).find? fun e => e.producer == j

theorem ReachesWithout.not_mem {items : List Node} {met : List Nat} {j i : Nat}
    (h : ReachesWithout items met j i) : i ∉ met := by
  rcases ReflTransGen.cases_tail h.2 with rfl | ⟨_, _, hlast⟩
  · exact h.1
  · exact hlast.2

namespace FirstWay

variable {items : List Node} {i : Nat}

theorem nodup {way : List Step} (h : FirstWay items i way) : (way.map Step.item).Nodup := by
  induction h with
  | start => exact List.nodup_singleton _
  | step _ _ hreach _ ih => exact List.nodup_cons.mpr ⟨hreach.1, ih⟩

/-- Each step takes the first use of the item to which it goes. -/
theorem linked {way : List Step} (h : FirstWay items i way) :
    way.IsChain fun t p => firstUse? items p.item t.item = some ⟨t.item, t.eager⟩ := by
  induction h with
  | start => exact .singleton _
  | @step k rest before after e _ hes hreach hfirst ih =>
    refine List.isChain_cons_cons.mpr ⟨?_, ih⟩
    have hnone : before.find? (fun d => d.producer == e.producer) = none := by
      refine List.find?_eq_none.mpr fun d hd heq => hfirst d hd ?_
      rwa [beq_iff_eq.mp heq]
    rw [firstUse?, hes, List.find?_append, hnone, Option.none_or]
    exact List.find?_cons_of_pos (beq_self_eq_true e.producer)

theorem of_suffix {way rest : List Step} {k : Step} (h : FirstWay items i way)
    (hs : k :: rest <:+ way) : FirstWay items i (k :: rest) := by
  induction h with
  | start h hmin =>
    rcases List.suffix_cons_iff.mp hs with heq | hnil
    · rw [heq]
      exact .start h hmin
    · simp at hnil
  | step h hes hreach hfirst ih =>
    rcases List.suffix_cons_iff.mp hs with heq | hs
    · rw [heq]
      exact .step h hes hreach hfirst
    · exact ih hs

theorem not_mem_of_cons {t k : Step} {rest : List Step} (h : FirstWay items i (t :: k :: rest)) :
    i ∉ (k :: rest).map Step.item := by
  cases h with
  | step _ _ hreach _ => exact hreach.not_mem

/-- There is one way to go on. -/
theorem next_eq {t t' k : Step} {rest : List Step} (h : FirstWay items i (t :: k :: rest))
    (h' : FirstWay items i (t' :: k :: rest)) : t = t' := by
  cases h with
  | @step _ _ before after e _ hes hreach hfirst =>
    cases h' with
    | @step _ _ before' after' e' _ hes' hreach' hfirst' =>
      rw [hes] at hes'
      rcases List.append_eq_append_iff.mp hes' with
        ⟨more, hbefore, hrest⟩ | ⟨more, hbefore, hrest⟩
      · cases more with
        | nil => rw [(List.cons.inj hrest).1]
        | cons d more =>
          obtain rfl : e = d := (List.cons.inj hrest).1
          exact absurd hreach (hfirst' e (by rw [hbefore]; simp))
      · cases more with
        | nil => rw [(List.cons.inj hrest).1]
        | cons d more =>
          obtain rfl : e' = d := (List.cons.inj hrest).1
          exact absurd hreach' (hfirst e' (by rw [hbefore]; simp))

theorem start_eq {t t' : Step} (h : FirstWay items i [t]) (h' : FirstWay items i [t']) : t = t' := by
  cases h with
  | @start r h hmin =>
    cases h' with
    | @start r' h' hmin' =>
      rcases Nat.lt_trichotomy r r' with hlt | rfl | hlt
      · exact absurd h (hmin' r hlt)
      · rfl
      · exact absurd h' (hmin r' hlt)

/-- Of two beginnings of the first way one goes on from the other. -/
theorem suffix_or {way way' : List Step} (h : FirstWay items i way) (h' : FirstWay items i way') :
    way <:+ way' ∨ way' <:+ way := by
  induction h with
  | @start r hr hmin =>
    rcases List.eq_nil_or_concat' way' with rfl | ⟨front, t, rfl⟩
    · exact Or.inr List.nil_suffix
    · have ht := h'.of_suffix (List.suffix_append front [t])
      rw [start_eq (.start hr hmin) ht]
      exact Or.inl (List.suffix_append front [t])
  | @step k rest before after e h hes hreach hfirst ih =>
    rcases ih with ⟨front, rfl⟩ | hs
    · rcases List.eq_nil_or_concat' front with rfl | ⟨front, t, rfl⟩
      · exact Or.inr (List.suffix_cons _ _)
      · have hs : t :: k :: rest <:+ front ++ [t] ++ k :: rest := ⟨front, by simp⟩
        rw [next_eq (.step h hes hreach hfirst) (h'.of_suffix hs)]
        exact Or.inl hs
    · exact Or.inr (hs.trans (List.suffix_cons _ _))

/-- There is one first way to an item. -/
theorem eq_of_item {k k' : Step} {rest rest' : List Step} (h : FirstWay items i (k :: rest))
    (h' : FirstWay items i (k' :: rest')) (hk : k.item = i) (hk' : k'.item = i) :
    k :: rest = k' :: rest' := by
  have hend {k k' : Step} {rest rest' : List Step} (h' : FirstWay items i (k' :: rest'))
      (hk : k.item = i) (hs : k :: rest <:+ k' :: rest') : k :: rest = k' :: rest' := by
    obtain ⟨front, heq⟩ := hs
    rcases List.eq_nil_or_concat' front with rfl | ⟨front, t, rfl⟩
    · exact heq
    · have hlonger : t :: k :: rest <:+ k' :: rest' := ⟨front, by simpa using heq⟩
      exact absurd (hk ▸ List.mem_cons_self) (h'.of_suffix hlonger).not_mem_of_cons
  rcases h.suffix_or h' with hs | hs
  · exact hend h' hk hs
  · exact (hend h hk' hs).symm

end FirstWay

/-! The search takes the first ways -/

/-- The items in `done` need each other and those in `met`, and nothing else. -/
def Shut (items : List Node) (done met : List Nat) : Prop :=
  ∀ i ∈ done, ∀ j, Needs items i j → j ∈ done ∨ j ∈ met

theorem Shut.mem_of_reaches {items : List Node} {done met : List Nat} {j i : Nat}
    (h : Shut items done met) (hj : j ∈ done ∨ j ∈ met) (hr : ReachesWithout items met j i) :
    i ∈ done := by
  obtain ⟨hout, hpath⟩ := hr
  induction hpath with
  | refl => exact hj.resolve_right hout
  | tail _ hlast ih => exact (h _ ih _ hlast.1).resolve_right hlast.2

/-- Why the search goes on from the path `below` by the step: all that was to be visited before is
among the items in `done`, which the order holds. -/
inductive Entered (items : List Node) (order : List Nat) : Step → List Step → Prop
  | root {done : List Nat} {r : Nat} (hsub : done ⊆ order) (hshut : Shut items done [])
      (hbefore : ∀ q < r, q ∈ done) : Entered items order ⟨r, false⟩ []
  | next {done : List Nat} {k : Step} {rest : List Step} {before after : List Edge} {e : Edge}
      (hsub : done ⊆ order) (hshut : Shut items done ((k :: rest).map Step.item))
      (hes : edgesAt items k.item = before ++ e :: after)
      (hbefore : ∀ d ∈ before, d.producer ∈ done ∨ d.producer ∈ (k :: rest).map Step.item) :
      Entered items order ⟨e.producer, e.eager⟩ (k :: rest)

theorem Entered.mono {items : List Node} {order order' : List Nat} {k : Step} {below : List Step}
    (h : Entered items order k below) (hsub : order ⊆ order') : Entered items order' k below := by
  cases h with
  | root hdone hshut hbefore => exact .root (List.Subset.trans hdone hsub) hshut hbefore
  | next hdone hshut hes hbefore => exact .next (List.Subset.trans hdone hsub) hshut hes hbefore

section Entered

variable {items : List Node} {order : List Nat} {k : Step} {rest : List Step}
  (hnodup : ((k :: rest).map Step.item).Nodup)
  (hentered : ∀ t below, t :: below <:+ k :: rest → Entered items order t below)
include hnodup hentered

/-- From every item on the path the last one is reached over the rest of the path. -/
theorem reaches_of_entered {above below : List Step} {t : Step}
    (hpath : k :: rest = above ++ t :: below) :
    ReachesWithout items (below.map Step.item) t.item k.item := by
  have hout {above below : List Step} {t : Step} (hpath : k :: rest = above ++ t :: below) :
      t.item ∉ below.map Step.item := by
    have hsuffix : (t :: below).map Step.item <:+ (k :: rest).map Step.item :=
      List.IsSuffix.map Step.item ⟨above, hpath.symm⟩
    exact (List.nodup_cons.mp (hnodup.sublist hsuffix.sublist)).1
  induction above using List.reverseRecOn generalizing t below with
  | nil =>
    have hlast := hout hpath
    obtain ⟨rfl, rfl⟩ := List.cons.inj hpath
    exact ⟨hlast, .refl⟩
  | append_singleton above w ih =>
    have hpath' : k :: rest = above ++ w :: t :: below := by simpa using hpath
    have hlater := ih hpath'
    have hneeds : Needs items t.item w.item := by
      cases hentered w (t :: below) ⟨above, hpath'.symm⟩ with
      | next _ _ hes _ => exact needs_iff.mpr ⟨_, by rw [hes]; simp, rfl⟩
    have hfewer : ∀ a b, Needs items a b ∧ b ∉ (t :: below).map Step.item →
        Needs items a b ∧ b ∉ below.map Step.item :=
      fun a b hab => ⟨hab.1, fun hmem => hab.2 (List.mem_cons_of_mem _ hmem)⟩
    have hfirst : w.item ∉ below.map Step.item := fun hmem => hlater.1 (List.mem_cons_of_mem _ hmem)
    exact ⟨hout hpath, .head ⟨hneeds, hfirst⟩ (ReflTransGen.mono hfewer _ _ hlater.2)⟩

/-- A path on which every step was entered in turn is the first way to its last item. -/
theorem firstWay_of_entered (hopen : ∀ t ∈ k :: rest, t.item ∉ order) :
    FirstWay items k.item (k :: rest) := by
  suffices h : ∀ below t, t :: below <:+ k :: rest → FirstWay items k.item (t :: below) from
    h rest k List.suffix_rfl
  have hnew : k.item ∉ order := hopen k List.mem_cons_self
  -- an earlier choice that leads to the last item would have brought it into the order
  intro below
  induction below with
  | nil =>
    intro t hs
    have hreach := reaches_of_entered hnodup hentered hs.choose_spec.symm
    cases hentered t [] hs with
    | root hsub hshut hbefore =>
      refine .start hreach fun q hq hreaches => hnew (hsub ?_)
      exact hshut.mem_of_reaches (Or.inl (hbefore q hq)) hreaches
  | cons p below ih =>
    intro t hs
    have hway := ih p ((List.suffix_cons t _).trans hs)
    have hreach := reaches_of_entered hnodup hentered hs.choose_spec.symm
    cases hentered t (p :: below) hs with
    | next hsub hshut hes hbefore =>
      refine .step hway hes hreach fun d hd hreaches => hnew (hsub ?_)
      exact hshut.mem_of_reaches (hbefore d hd) hreaches

end Entered

/-- The steps of the path, the last one first. -/
def Config.way (c : Config) : List Step := c.path.map Visit.step

theorem Config.map_item_way (c : Config) : c.way.map Step.item = c.onPath := List.map_map

/-- What the edge closes on its way is reported. -/
def Reported (items : List Node) (cycles : List Cycle) (way : List Step) (e : Edge) : Prop :=
  ∀ c, cycle? items way e = some c → c ∈ cycles

/-- What holds of the paths, and of what is reported, while the items are put in order. -/
structure Config.Searched (items : List Node) (c : Config) : Prop where
  /-- What an item in the order needs has been met. -/
  shut : ∀ i ∈ c.state.order, ∀ j, Needs items i j → j ∉ c.state.fresh
  entered : ∀ k below, k :: below <:+ c.way → Entered items c.state.order k below
  followed : ∀ v below, v :: below <:+ c.path → ∃ done, edgesAt items v.step.item = done ++ v.todo ∧
    ∀ e ∈ done, e.producer ∉ c.state.fresh ∧
      Reported items c.state.cycles (v.step :: below.map Visit.step) e
  /-- The search came to an item on the first way, and left it when all its edges were followed. -/
  left : ∀ before i after, c.state.order = before ++ i :: after →
    ∃ k below, k.item = i ∧ FirstWay items i (k :: below) ∧
      (∀ j, Needs items i j → j ∈ before ∨ j ∈ below.map Step.item) ∧
      ∀ e ∈ edgesAt items i, Reported items c.state.cycles (k :: below) e
  found : ∀ cycle ∈ c.state.cycles, ∃ k below e, FirstWay items k.item (k :: below) ∧
    e ∈ edgesAt items k.item ∧ cycle? items (k :: below) e = some cycle

theorem Reported.mono {items : List Node} {cycles cycles' : List Cycle} {way : List Step} {e : Edge}
    (h : Reported items cycles way e) (hsub : cycles ⊆ cycles') : Reported items cycles' way e :=
  fun c hc => hsub (h c hc)

/-- The way is cut at the item, and all steps after it are eager. -/
theorem eagerCycle?_eq_some {p : Nat} {path : List Step} {circle : List Nat} :
    eagerCycle? p path = some circle ↔ ∃ above s below, path = above ++ s :: below ∧
      s.item = p ∧ (∀ t ∈ above, t.item ≠ p ∧ t.eager = true) ∧
      circle = p :: (above.map Step.item).reverse := by
  induction path generalizing circle with
  | nil => simp [eagerCycle?]
  | cons t path ih =>
    rw [eagerCycle?]
    by_cases ht : t.item = p
    · rw [if_pos ht, Option.some.injEq]
      constructor
      · rintro rfl
        exact ⟨[], t, path, rfl, ht, by simp, by simp [ht]⟩
      · rintro ⟨above, s, below, heq, hs, habove, rfl⟩
        cases above with
        | nil => simp [ht]
        | cons u above =>
          obtain rfl : t = u := (List.cons.inj heq).1
          exact absurd ht (habove t List.mem_cons_self).1
    · rw [if_neg ht]
      constructor
      · intro h
        split at h
        · rename_i heager
          obtain ⟨inner, hinner, rfl⟩ := Option.map_eq_some_iff.mp h
          obtain ⟨above, s, below, rfl, hs, habove, rfl⟩ := ih.mp hinner
          refine ⟨t :: above, s, below, rfl, hs, ?_, by simp⟩
          exact List.forall_mem_cons.mpr ⟨⟨ht, heager⟩, habove⟩
        · cases h
      · rintro ⟨above, s, below, heq, hs, habove, rfl⟩
        cases above with
        | nil =>
          obtain rfl : t = s := (List.cons.inj heq).1
          exact absurd hs ht
        | cons u above =>
          obtain ⟨rfl, rfl⟩ := List.cons.inj heq
          obtain ⟨⟨_, heager⟩, habove⟩ := List.forall_mem_cons.mp habove
          rw [if_pos heager, ih.mpr ⟨above, s, below, rfl, hs, habove, rfl⟩]
          simp

theorem eagerCycle?_of_cycle? {items : List Node} {way : List Step} {e : Edge} {c : Cycle}
    (h : cycle? items way e = some c) :
    e.eager = true ∧ ∃ circle, eagerCycle? e.producer way = some circle := by
  rw [cycle?] at h
  split at h
  · rename_i heager
    obtain ⟨circle, hcircle, _⟩ := Option.map_eq_some_iff.mp h
    exact ⟨heager, circle, hcircle⟩
  · cases h

theorem reported_of_not_mem {items : List Node} {cycles : List Cycle} {way : List Step} {e : Edge}
    (h : e.producer ∉ way.map Step.item) : Reported items cycles way e := by
  intro c hc
  obtain ⟨_, _, hcircle⟩ := eagerCycle?_of_cycle? hc
  obtain ⟨above, t, below, rfl, hitem, _⟩ := eagerCycle?_eq_some.mp hcircle
  exact absurd (List.mem_map.mpr ⟨t, by simp, hitem⟩) h

namespace Config.Searched

variable {items : List Node} {path rest : List Visit} {s s' : State} {k : Step} {e : Edge}
  {es : List Edge}

/-- An edge of the last item is done with. -/
theorem follow (h : Searched items ⟨⟨k, e :: es⟩ :: rest, s⟩) (hfresh : s'.fresh ⊆ s.fresh)
    (horder : s'.order = s.order) (hcycles : s.cycles ⊆ s'.cycles) (he : e.producer ∉ s'.fresh)
    (hreported : Reported items s'.cycles (k :: rest.map Visit.step) e)
    (hfound : ∀ cycle ∈ s'.cycles, ∃ k below e, FirstWay items k.item (k :: below) ∧
      e ∈ edgesAt items k.item ∧ cycle? items (k :: below) e = some cycle) :
    Searched items ⟨⟨k, es⟩ :: rest, s'⟩ where
  shut := fun i hi j hij hj => h.shut i (horder ▸ hi) j hij (hfresh hj)
  entered := fun t below hs => horder ▸ h.entered t below hs
  followed := by
    intro v below hs
    rcases List.suffix_cons_iff.mp hs with heq | hs
    · obtain ⟨rfl, rfl⟩ := List.cons.inj heq
      obtain ⟨done, hes, hdone⟩ := h.followed ⟨k, e :: es⟩ below List.suffix_rfl
      refine ⟨done ++ [e], by simpa using hes, fun d hd => ?_⟩
      rcases List.mem_append.mp hd with hd | hd
      · exact ⟨fun hnew => (hdone d hd).1 (hfresh hnew), (hdone d hd).2.mono hcycles⟩
      · obtain rfl := List.mem_singleton.mp hd
        exact ⟨he, hreported⟩
    · obtain ⟨done, hes, hdone⟩ := h.followed v below (hs.trans (List.suffix_cons _ _))
      refine ⟨done, hes, fun d hd => ?_⟩
      exact ⟨fun hnew => (hdone d hd).1 (hfresh hnew), (hdone d hd).2.mono hcycles⟩
  left := by
    intro before i after heq
    obtain ⟨t, below, hitem, hway, hneeds, hrep⟩ := h.left before i after (horder ▸ heq)
    exact ⟨t, below, hitem, hway, hneeds, fun d hd => (hrep d hd).mono hcycles⟩
  found := hfound

theorem met (h : Searched items ⟨path, s⟩) (n : Nat) : Searched items ⟨path, s.met n⟩ where
  shut := fun i hi j hij hj => h.shut i hi j hij (List.mem_of_mem_erase hj)
  entered := h.entered
  followed := by
    intro v below hs
    obtain ⟨done, hes, hdone⟩ := h.followed v below hs
    refine ⟨done, hes, fun d hd => ⟨fun hnew => ?_, (hdone d hd).2⟩⟩
    exact (hdone d hd).1 (List.mem_of_mem_erase hnew)
  left := h.left
  found := h.found

theorem push (h : Searched items ⟨path, s⟩)
    (he : Entered items s.order k (path.map Visit.step)) :
    Searched items ⟨⟨k, edgesAt items k.item⟩ :: path, s⟩ where
  shut := h.shut
  entered := by
    intro t below hs
    rcases List.suffix_cons_iff.mp hs with heq | hs
    · obtain ⟨rfl, rfl⟩ := List.cons.inj heq
      exact he
    · exact h.entered t below hs
  followed := by
    intro v below hs
    rcases List.suffix_cons_iff.mp hs with heq | hs
    · obtain ⟨rfl, rfl⟩ := List.cons.inj heq
      exact ⟨[], rfl, by simp⟩
    · exact h.followed v below hs
  left := h.left
  found := h.found

/-- What the items in the order need is in the order or on the path. -/
theorem shut_order (ho : Ordered items ⟨path, s⟩) (h : Searched items ⟨path, s⟩) :
    Shut items s.order ((path.map Visit.step).map Step.item) := by
  intro i hi j hij
  have hwhere := (ho.mem_cases hij.lt).resolve_left (h.shut i hi j hij)
  rw [← map_item_way] at hwhere
  exact hwhere.symm

theorem start {n : Nat} (ho : Ordered items ⟨[], s⟩) (h : Searched items ⟨[], s⟩)
    (hn : n ∈ s.fresh) (hmin : ∀ m ∈ s.fresh, n ≤ m) :
    Searched items ⟨[⟨⟨n, false⟩, edgesAt items n⟩], s.met n⟩ := by
  refine (h.met n).push (.root (List.Subset.refl _) (h.shut_order ho) fun q hq => ?_)
  have hlt : n < items.length :=
    List.mem_range.mp (ho.once.mem_iff.mp (List.mem_append_left _ (List.mem_append_left _ hn)))
  have hnot : q ∉ s.fresh := fun hfresh => Nat.not_lt_of_le (hmin q hfresh) hq
  have hwhere := (ho.mem_cases (Nat.lt_trans hq hlt)).resolve_left hnot
  exact hwhere.resolve_left List.not_mem_nil

theorem enter (ho : Ordered items ⟨⟨k, e :: es⟩ :: rest, s⟩)
    (h : Searched items ⟨⟨k, e :: es⟩ :: rest, s⟩) (he : e.producer ∈ s.fresh) :
    Searched items ⟨⟨⟨e.producer, e.eager⟩, edgesAt items e.producer⟩ :: ⟨k, es⟩ :: rest,
      s.met e.producer⟩ := by
  obtain ⟨hfront, _, _⟩ := List.nodup_append.mp ho.nodup
  obtain ⟨hfresh, _, hapart⟩ := List.nodup_append.mp hfront
  rw [← map_item_way] at hapart
  have hoff : e.producer ∉ (k :: rest.map Visit.step).map Step.item :=
    fun hmem => hapart e.producer he e.producer hmem rfl
  have hrest : Searched items ⟨⟨k, es⟩ :: rest, s.met e.producer⟩ :=
    h.follow List.erase_subset rfl (List.Subset.refl _) hfresh.not_mem_erase
      (reported_of_not_mem hoff) h.found
  refine hrest.push ?_
  obtain ⟨done, hes, hdone⟩ := h.followed ⟨k, e :: es⟩ rest List.suffix_rfl
  refine .next (List.Subset.refl _) (h.shut_order ho) hes fun d hd => ?_
  have hneeds : Needs items k.item d.producer :=
    needs_iff.mpr ⟨d, by rw [hes]; exact List.mem_append_left _ hd, rfl⟩
  have hwhere := (ho.mem_cases hneeds.lt).resolve_left (hdone d hd).1
  rw [← map_item_way] at hwhere
  exact hwhere.symm

/-- The path is the first way to its last item. -/
theorem firstWay {todo : List Edge} (ho : Ordered items ⟨⟨k, todo⟩ :: rest, s⟩)
    (h : Searched items ⟨⟨k, todo⟩ :: rest, s⟩) :
    FirstWay items k.item (k :: rest.map Visit.step) := by
  have hnodup := ho.nodup
  rw [← map_item_way] at hnodup
  obtain ⟨hfront, _, hapart⟩ := List.nodup_append.mp hnodup
  refine firstWay_of_entered (List.nodup_append.mp hfront).2.1 h.entered fun t ht hin => ?_
  exact hapart t.item (List.mem_append_right _ (List.mem_map_of_mem ht)) t.item hin rfl

theorem meet (ho : Ordered items ⟨⟨k, e :: es⟩ :: rest, s⟩)
    (h : Searched items ⟨⟨k, e :: es⟩ :: rest, s⟩) (he : e.producer ∉ s.fresh) :
    Searched items ⟨⟨k, es⟩ :: rest, s.close (cycle? items (k :: rest.map Visit.step) e)⟩ := by
  refine h.follow (List.Subset.refl _) rfl (List.subset_append_left _ _) he ?_ ?_
  · intro c hc
    simp [State.close, hc]
  · intro c hc
    rcases List.mem_append.mp hc with hc | hc
    · exact h.found c hc
    · have hmem := (ho.followed ⟨k, e :: es⟩ List.mem_cons_self).1 List.mem_cons_self
      exact ⟨k, rest.map Visit.step, e, h.firstWay ho, hmem, Option.mem_toList.mp hc⟩

theorem leave (ho : Ordered items ⟨⟨k, []⟩ :: rest, s⟩) (h : Searched items ⟨⟨k, []⟩ :: rest, s⟩) :
    Searched items ⟨rest, s.leave k.item⟩ := by
  obtain ⟨done, hes, hdone⟩ := h.followed ⟨k, []⟩ rest List.suffix_rfl
  have hall : done = edgesAt items k.item := by simpa using hes.symm
  subst hall
  have hpast {j : Nat} (hj : Needs items k.item j) : j ∉ s.fresh := by
    obtain ⟨e, he, rfl⟩ := needs_iff.mp hj
    exact (hdone e he).1
  refine ⟨?_, ?_, ?_, ?_, h.found⟩
  · intro i hi j hij
    rcases List.mem_append.mp hi with hi | hi
    · exact h.shut i hi j hij
    · exact hpast (List.mem_singleton.mp hi ▸ hij)
  · intro t below hs
    exact (h.entered t below (hs.trans (List.suffix_cons _ _))).mono (List.subset_append_left _ _)
  · intro v below hs
    exact h.followed v below (hs.trans (List.suffix_cons _ _))
  · intro before i after heq
    rcases List.eq_nil_or_concat' after with rfl | ⟨after, last, rfl⟩
    · obtain ⟨rfl, hki⟩ := List.append_inj' heq rfl
      obtain rfl : k.item = i := by simpa using hki
      refine ⟨k, rest.map Visit.step, rfl, h.firstWay ho, ?_, fun e he => (hdone e he).2⟩
      intro j hj
      have hwhere := (ho.mem_cases hj.lt).resolve_left (hpast hj)
      rw [← map_item_way] at hwhere
      exact hwhere.symm.imp_right fun hp => (List.mem_cons.mp hp).resolve_left hj.ne
    · have hinit : s.order ++ [k.item] = (before ++ i :: after) ++ [last] := by
        simpa [State.leave] using heq
      exact h.left before i after (List.append_inj' hinit rfl).1

theorem move {c c' : Config} (ho : Ordered items c) (h : Searched items c) (hm : Move items c c') :
    Searched items c' := by
  cases hm with
  | start hn hmin => exact h.start ho hn hmin
  | enter he => exact h.enter ho he
  | meet he => exact h.meet ho he
  | leave => exact h.leave ho

end Config.Searched

theorem searched_ofItems (items : List Node) :
    ∃ s : State, Config.Searched items ⟨[], s⟩ ∧ ofItems items = ⟨s.order, s.cycles⟩ :=
  invariant_ofItems items ⟨by simp, by simp [Config.way], by simp, by simp, by simp⟩
    fun _ _ hordered h hm => h.move hordered hm

/-- When the search leaves an item, it has come to it on the first way, all that the item needs is
before it or on that way, and what its uses close there is reported. -/
theorem firstWay_ofItems (items : List Node) {before after : List Nat} {i : Nat}
    (ho : (ofItems items).order = before ++ i :: after) :
    ∃ k below, k.item = i ∧ FirstWay items i (k :: below) ∧
      (∀ j, Needs items i j → j ∈ before ∨ j ∈ below.map Step.item) ∧
      ∀ e ∈ edgesAt items i, Reported items (ofItems items).cycles (k :: below) e := by
  obtain ⟨s, hs, heq⟩ := searched_ofItems items
  rw [heq] at ho ⊢
  exact hs.left before i after ho

/-- A cycle is reported exactly if a use in an item closes it on the first way to that item. -/
theorem mem_cycles_iff (items : List Node) {c : Cycle} :
    c ∈ (ofItems items).cycles ↔ ∃ k below e, FirstWay items k.item (k :: below) ∧
      e ∈ edgesAt items k.item ∧ cycle? items (k :: below) e = some c := by
  constructor
  · intro hc
    obtain ⟨s, hs, heq⟩ := searched_ofItems items
    rw [heq] at hc
    exact hs.found c hc
  · rintro ⟨k, below, e, hway, he, hc⟩
    have hneeds : Needs items k.item e.producer := needs_iff.mpr ⟨e, he, rfl⟩
    obtain ⟨before, after, ho⟩ := List.append_of_mem hneeds.mem_order
    obtain ⟨k', below', hk', hway', _, hreported⟩ := firstWay_ofItems items ho
    obtain ⟨rfl, rfl⟩ := List.cons.inj (hway.eq_of_item hway' rfl hk')
    exact hreported e he c hc

end Tern.Order
