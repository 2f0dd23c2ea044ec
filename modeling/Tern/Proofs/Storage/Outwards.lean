import Tern.Proofs.Lower

/-!
Storage by the way from a use to its declaration. In a tree that was made scope by scope, parents are
older than what is inside them, so the way outwards from a scope ends. The functions left on it decide
how far out a variable lives, and no later change of the tree moves it.
-/

set_option autoImplicit false

namespace Tern

namespace ScopeTree

/-! Changes -/

/-- A single change of a tree. -/
inductive Change
  | child (parent : Nat) (kind : ScopeKind)
  | symbol (scope : Nat) (symbol : Symbol)
  | parameter (scope : Nat) (name : String) (type : Ty)

namespace Change

/-- The scope that gets a child, a symbol or a parameter. -/
def scope : Change → Nat
  | child id _ | symbol id _ | parameter id _ _ => id

def apply (t : ScopeTree) : Change → ScopeTree
  | child parent kind => t.createChild parent kind
  | symbol id s => t.addSymbol id s
  | parameter id name type => t.addParameter id name type

/-- The scope `d` gets no parameter. -/
def Spares (d : Nat) : Change → Prop
  | parameter id _ _ => id ≠ d
  | _ => True

end Change

/-- The second tree comes from the first one by allowed changes of scopes that are there. -/
inductive Becomes (allowed : Change → Prop) : ScopeTree → ScopeTree → Prop
  | refl (t : ScopeTree) : Becomes allowed t t
  | change {t u : ScopeTree} (x : Change) (h : Becomes allowed t u) (hx : x.scope < u.size)
      (ha : allowed x) : Becomes allowed t (x.apply u)

/-- A tree that was made from the root alone. -/
def Made (t : ScopeTree) : Prop := Becomes (fun _ => True) .init t

/-- From the scope `s` one comes outwards to the scope `d`, and leaves the scopes `left`. -/
inductive Way (t : ScopeTree) : Nat → List Nat → Nat → Prop
  | here {s : Nat} (h : s < t.size) : Way t s [] s
  | out {s p d : Nat} {left : List Nat} (hp : t.parent? s = some p) (h : Way t p left d) :
      Way t s (s :: left) d

/-- Scopes are younger than what is around them. -/
def ParentsOlder (t : ScopeTree) : Prop := ∀ s p, t.parent? s = some p → p < s

section Changes

variable {t u : ScopeTree} {d : Nat}

/-- Older scopes keep their parent and kind, and a scope that is spared its parameters. -/
theorem Change.scope?_apply {x : Change} {id : Nat} {s : Scope} (hs : u.scope? id = some s) :
    ∃ s', (x.apply u).scope? id = some s' ∧ s'.parent = s.parent ∧ s'.kind = s.kind ∧
      (x.Spares id → s'.parameters = s.parameters) := by
  cases x with
  | child parent kind =>
    exact ⟨s, extends_createChild u parent kind id s hs, rfl, rfl, fun _ => rfl⟩
  | symbol current sym =>
    obtain ⟨s', hs', hg, _⟩ := grows_addSymbol u current sym id s hs
    exact ⟨s', hs', hg.parent, hg.kind, fun _ => hg.parameters⟩
  | parameter current name type =>
    by_cases h : id = current
    · subst h
      refine ⟨{ s with
          parameters := s.parameters ++ [name]
          symbols := Symbol.declare ⟨name, type, false, false⟩ s.symbols }, ?_, rfl, rfl,
        fun hspares => absurd rfl hspares⟩
      rw [apply, addParameter, scope?_modify_self, hs]
      rfl
    · refine ⟨s, ?_, rfl, rfl, fun _ => rfl⟩
      rw [apply, addParameter, scope?_modify_of_ne u _ h, hs]

theorem Change.parent?_apply {x : Change} {id : Nat} (h : id < u.size) :
    (x.apply u).parent? id = u.parent? id := by
  obtain ⟨s, hs⟩ := exists_scope? h
  obtain ⟨s', hs', hparent, _⟩ := x.scope?_apply hs
  simp [parent?, hs, hs', hparent]

theorem lt_size_of_parent? {s p : Nat} (h : t.parent? s = some p) : s < t.size := by
  obtain ⟨_, hs, _⟩ := Option.bind_eq_some_iff.mp h
  exact lt_size_of_scope? hs

theorem Change.parentsOlder_apply {x : Change} (h : u.ParentsOlder) (hx : x.scope < u.size) :
    (x.apply u).ParentsOlder := by
  intro s p hp
  rcases Nat.lt_or_ge s u.size with hlt | hge
  · rw [x.parent?_apply hlt] at hp
    exact h s p hp
  · -- only the new scope has no place in the old tree
    have hsize := lt_size_of_parent? hp
    cases x with
    | child parent kind =>
      obtain rfl : s = u.size := by
        simp only [apply, size_createChild] at hsize
        omega
      rw [apply, parent?, scope?_createChild_self] at hp
      obtain rfl : parent = p := Option.some.inj hp
      exact hx
    | symbol | parameter =>
      simp only [apply, addSymbol, addParameter, size_modify] at hsize
      omega

theorem parentsOlder_init : init.ParentsOlder := by
  intro s p hp
  obtain ⟨r, hr, hparent⟩ := Option.bind_eq_some_iff.mp hp
  obtain rfl : s = 0 := Nat.lt_one_iff.mp (lt_size_of_scope? hr)
  cases hr
  cases hparent

theorem Becomes.parentsOlder {allowed : Change → Prop} (h : Becomes allowed t u)
    (ht : t.ParentsOlder) : u.ParentsOlder := by
  induction h with
  | refl => exact ht
  | change x _ hx _ ih => exact x.parentsOlder_apply ih hx

theorem Made.parentsOlder (h : t.Made) : t.ParentsOlder := Becomes.parentsOlder h parentsOlder_init

/-- What all changes that spare `d` leave. -/
theorem Becomes.scope? (h : Becomes (Change.Spares d) t u) {id : Nat} {s : Scope}
    (hs : t.scope? id = some s) :
    ∃ s', u.scope? id = some s' ∧ s'.parent = s.parent ∧ s'.kind = s.kind ∧
      (id = d → s'.parameters = s.parameters) := by
  induction h with
  | refl => exact ⟨s, hs, rfl, rfl, fun _ => rfl⟩
  | change x _ _ hspares ih =>
    obtain ⟨s₁, hs₁, hparent₁, hkind₁, hparams₁⟩ := ih
    obtain ⟨s₂, hs₂, hparent₂, hkind₂, hparams₂⟩ := x.scope?_apply hs₁
    refine ⟨s₂, hs₂, hparent₂.trans hparent₁, hkind₂.trans hkind₁, ?_⟩
    rintro rfl
    exact (hparams₂ hspares).trans (hparams₁ rfl)

end Changes

/-! The way outwards -/

section Ways

variable {t : ScopeTree} {s d : Nat} {left : List Nat}

theorem ParentsOlder.ancestors_eq (ht : t.ParentsOlder) {p : Nat} (hp : t.parent? s = some p) :
    t.ancestors s = s :: t.ancestors p := by
  obtain ⟨r, hr, hparent⟩ := Option.bind_eq_some_iff.mp hp
  rw [ScopeTree.ancestors_eq t hr, hparent]
  simp [ht s p hp]

theorem Way.le (h : t.Way s left d) (ht : t.ParentsOlder) : d ≤ s := by
  induction h with
  | here => exact Nat.le_refl _
  | out hp _ ih => exact Nat.le_trans ih (Nat.le_of_lt (ht _ _ hp))

theorem Way.lt_size (h : t.Way s left d) : d < t.size := by
  induction h with
  | here h => exact h
  | out _ _ ih => exact ih

theorem exists_way (h : d ∈ t.ancestors s) : ∃ left, t.Way s left d := by
  induction s using Nat.strongRecOn with
  | ind s ih =>
    obtain ⟨r, hr⟩ := exists_scope? (lt_size_of_mem_ancestors h)
    rw [ScopeTree.ancestors_eq t hr, List.mem_cons] at h
    rcases h with rfl | h
    · exact ⟨[], .here (lt_size_of_scope? hr)⟩
    · split at h
      · rename_i p hparent
        split at h
        · rename_i hlt
          obtain ⟨left, hway⟩ := ih p hlt h
          exact ⟨s :: left, .out (by simp [parent?, hr, hparent]) hway⟩
        · simp at h
      · simp at h

/-- The functions on the way are counted. -/
theorem Way.boundaries? (h : t.Way s left d) (ht : t.ParentsOlder) :
    t.boundaries? d (t.ancestors s) = some (left.countP t.isFunction) := by
  induction h with
  | here h =>
    obtain ⟨r, hr⟩ := exists_scope? h
    rw [ScopeTree.ancestors_eq t hr, ScopeTree.boundaries?, if_pos rfl]
    rfl
  | @out s p d left hp h ih =>
    have hne : s ≠ d := Nat.ne_of_gt (Nat.lt_of_le_of_lt (h.le ht) (ht s p hp))
    rw [ht.ancestors_eq hp, ScopeTree.boundaries?, if_neg hne, ih, List.countP_cons]
    cases t.isFunction s <;> rfl

theorem boundaries?_eq_none {chain : List Nat} (h : d ∉ chain) : t.boundaries? d chain = none := by
  induction chain with
  | nil => rfl
  | cons s rest ih =>
    obtain ⟨hne, hrest⟩ := List.ne_and_not_mem_of_not_mem_cons h
    rw [ScopeTree.boundaries?, if_neg (Ne.symm hne), ih hrest]
    rfl

theorem boundaries?_congr {u : ScopeTree} {chain : List Nat}
    (h : ∀ a ∈ chain, u.isFunction a = t.isFunction a) :
    u.boundaries? d chain = t.boundaries? d chain := by
  induction chain with
  | nil => rfl
  | cons s rest ih =>
    obtain ⟨hs, hrest⟩ := List.forall_mem_cons.mp h
    rw [ScopeTree.boundaries?, ScopeTree.boundaries?, ih hrest, hs]

end Ways

theorem getElem?_ne_of_lastIndexOf? {name : String} {xs : List String} {i j : Nat}
    (h : lastIndexOf? name xs = some i) (hj : i < j) : xs[j]? ≠ some name := by
  induction xs generalizing i j with
  | nil => simp
  | cons x xs ih =>
    obtain ⟨j, rfl⟩ := Nat.exists_eq_succ_of_ne_zero (Nat.ne_of_gt (Nat.zero_lt_of_lt hj))
    rw [List.getElem?_cons_succ]
    rw [lastIndexOf?] at h
    split at h
    · rename_i k hk
      cases h
      exact ih hk (Nat.lt_of_succ_lt_succ hj)
    · rename_i hnone
      intro hmem
      obtain ⟨k, hk⟩ := exists_lastIndexOf? (List.mem_of_getElem? hmem)
      simp [hk] at hnone

theorem lastIndexOf?_eq_some {name : String} {xs : List String} {i : Nat} :
    lastIndexOf? name xs = some i ↔ xs[i]? = some name ∧ ∀ j, i < j → xs[j]? ≠ some name := by
  constructor
  · exact fun h => ⟨getElem?_lastIndexOf? h, fun j hj => getElem?_ne_of_lastIndexOf? h hj⟩
  · rintro ⟨hi, hlast⟩
    obtain ⟨k, hk⟩ := exists_lastIndexOf? (List.mem_of_getElem? hi)
    rcases Nat.lt_trichotomy i k with hlt | rfl | hlt
    · exact absurd (getElem?_lastIndexOf? hk) (hlast k hlt)
    · exact hk
    · exact absurd hi (getElem?_ne_of_lastIndexOf? hk hlt)

end ScopeTree

namespace Storage

variable {t u : ScopeTree} {a : Access} {d : Nat} {name : String} {left : List Nat}

/-- The storage of a name that the scope `d` declares, for a use from which the scopes `left` are left
on the way to `d`. Behind a function the name is captured; in its own function a parameter is an
argument, and of a repeated name the last one; all else is local. -/
inductive Suits (t : ScopeTree) (d : Nat) (name : String) (left : List Nat) : Storage → Prop
  | outer (h : 0 < left.countP t.isFunction) :
      Suits t d name left (.outer name (left.countP t.isFunction))
  | argument {s : Scope} {i : Nat} (h : left.countP t.isFunction = 0) (hs : t.scope? d = some s)
      (hk : s.kind = .function) (hi : s.parameters[i]? = some name)
      (hlast : ∀ j, i < j → s.parameters[j]? ≠ some name) : Suits t d name left (.argument i)
  | frame {s : Scope} (h : left.countP t.isFunction = 0) (hs : t.scope? d = some s)
      (hno : s.kind = .function → name ∉ s.parameters) : Suits t d name left (.frame name)

theorem exists_suits (name : String) (h : t.Way a.scope left d) :
    ∃ storage, Suits t d name left storage := by
  obtain ⟨s, hs⟩ := ScopeTree.exists_scope? h.lt_size
  rcases Nat.eq_zero_or_pos (left.countP t.isFunction) with hzero | hpos
  · by_cases hp : s.kind = .function ∧ name ∈ s.parameters
    · obtain ⟨i, hi⟩ := ScopeTree.exists_lastIndexOf? hp.2
      obtain ⟨hi, hlast⟩ := ScopeTree.lastIndexOf?_eq_some.mp hi
      exact ⟨_, .argument hzero hs hp.1 hi hlast⟩
    · exact ⟨_, .frame hzero hs fun hk hm => hp ⟨hk, hm⟩⟩
  · exact ⟨_, .outer hpos⟩

theorem classify_of_suits {storage : Storage} (ht : t.ParentsOlder) (ha : a.target = .nested d name)
    (h : t.Way a.scope left d) (hs : Suits t d name left storage) :
    classify t a = .ok storage := by
  have hn := h.boundaries? ht
  unfold classify
  rw [ha]
  dsimp only
  rw [hn]
  cases hs with
  | outer hpos =>
    obtain ⟨k, hk⟩ := Nat.exists_eq_succ_of_ne_zero (Nat.ne_of_gt hpos)
    simp [hk]
  | @argument s i hzero hs hk hi hlast =>
    have hindex : t.parameterIndex? d name = some i := by
      rw [ScopeTree.parameterIndex?, hs]
      exact ScopeTree.lastIndexOf?_eq_some.mpr ⟨hi, hlast⟩
    simp [hzero, ScopeTree.isFunction, ScopeTree.kind?, hs, hk, hindex]
  | @frame s hzero hs hno =>
    by_cases hk : s.kind = .function
    · have hindex : t.parameterIndex? d name = none := by
        refine Option.eq_none_iff_forall_ne_some.mpr fun i hi => hno hk ?_
        rw [ScopeTree.parameterIndex?, hs] at hi
        exact List.mem_of_getElem? (ScopeTree.getElem?_lastIndexOf? hi)
      simp [hzero, ScopeTree.isFunction, ScopeTree.kind?, hs, hk, hindex]
    · simp [hzero, ScopeTree.isFunction, ScopeTree.kind?, hs, hk]

theorem classify_of_not_mem (ha : a.target = .nested d name) (h : d ∉ t.ancestors a.scope) :
    classify t a = .error (.unreachable name a.span) := by
  simp [classify, ha, ScopeTree.boundaries?_eq_none h]

/-- Only the parents, the kinds and the parameters of the declaring scope count. -/
theorem classify_becomes (h : ScopeTree.Becomes (ScopeTree.Change.Spares d) t u)
    (ha : a.target = .nested d name) (hs : a.scope < t.size) : classify u a = classify t a := by
  have hancestors : u.ancestors a.scope = t.ancestors a.scope := by
    refine ScopeTree.ancestors_congr (fun id s hs => ?_) hs
    obtain ⟨s', hs', hparent, _⟩ := h.scope? hs
    exact ⟨s', hs', hparent⟩
  by_cases hd : d ∈ t.ancestors a.scope
  · have hfunction {b : Nat} (hb : b ∈ t.ancestors a.scope) : u.isFunction b = t.isFunction b := by
      have hlt := Nat.lt_of_le_of_lt (ScopeTree.le_of_mem_ancestors hb) hs
      obtain ⟨s, hs⟩ := ScopeTree.exists_scope? hlt
      obtain ⟨s', hs', _, hkind, _⟩ := h.scope? hs
      simp [ScopeTree.isFunction, ScopeTree.kind?, hs, hs', hkind]
    have hindex : u.parameterIndex? d name = t.parameterIndex? d name := by
      have hlt := Nat.lt_of_le_of_lt (ScopeTree.le_of_mem_ancestors hd) hs
      obtain ⟨s, hs⟩ := ScopeTree.exists_scope? hlt
      obtain ⟨s', hs', _, _, hparams⟩ := h.scope? hs
      simp [ScopeTree.parameterIndex?, hs, hs', hparams rfl]
    have hn := ScopeTree.boundaries?_congr (d := d) fun b => hfunction (b := b)
    simp only [classify, ha, hancestors, hn, hfunction hd, hindex]
  · rw [classify_of_not_mem ha hd, classify_of_not_mem ha (hancestors ▸ hd)]

/-- A use of a name that the scope `d` declares has no storage exactly if no way leads outwards to
`d`; otherwise the way decides its storage. Later changes of the tree leave it as it is, unless they
add a parameter to `d`. -/
theorem classify_by_way (ht : t.Made) (ha : a.target = .nested d name) (hs : a.scope < t.size) :
    (∀ fault, classify t a = .error fault ↔
      fault = .unreachable name a.span ∧ ¬ ∃ left, t.Way a.scope left d) ∧
    (∀ left, t.Way a.scope left d → ∀ storage,
      classify t a = .ok storage ↔ Suits t d name left storage) ∧
    ∀ u, ScopeTree.Becomes (ScopeTree.Change.Spares d) t u → classify u a = classify t a := by
  have hold := ht.parentsOlder
  refine ⟨fun fault => ⟨fun h => ?_, ?_⟩, fun left hway storage => ⟨fun h => ?_, ?_⟩,
    fun u hu => ?_⟩
  · have hnone : ¬ ∃ left, t.Way a.scope left d := by
      rintro ⟨left, hway⟩
      obtain ⟨storage, hsuits⟩ := exists_suits name hway
      rw [classify_of_suits hold ha hway hsuits] at h
      cases h
    rw [classify_of_not_mem ha fun hd => hnone (ScopeTree.exists_way hd)] at h
    cases h
    exact ⟨rfl, hnone⟩
  · rintro ⟨rfl, hnone⟩
    exact classify_of_not_mem ha fun hd => hnone (ScopeTree.exists_way hd)
  · obtain ⟨storage', hsuits⟩ := exists_suits name hway
    rw [classify_of_suits hold ha hway hsuits] at h
    cases h
    exact hsuits
  · exact classify_of_suits hold ha hway
  · exact classify_becomes hu ha hs

end Storage

namespace ScopeTree

/-- A function with the parameters `a`, `b` and `a`, its body, and in the body a function. -/
def repeating : ScopeTree :=
  ((((((init.createChild 0 .function).addParameter 1 "a" .int).addParameter 1 "b" .int).addParameter
    1 "a" .string).createChild 1 .block).createChild 2 .function)

theorem made_repeating : repeating.Made := by
  have h₀ : init.Made := .refl init
  have h₁ := h₀.change (.child 0 .function) (by decide) trivial
  have h₂ := h₁.change (.parameter 1 "a" .int) (by decide) trivial
  have h₃ := h₂.change (.parameter 1 "b" .int) (by decide) trivial
  have h₄ := h₃.change (.parameter 1 "a" .string) (by decide) trivial
  have h₅ := h₄.change (.child 1 .block) (by decide) trivial
  exact h₅.change (.child 2 .function) (by decide) trivial

end ScopeTree

/-- In the body `a` is the last parameter, and it stays so when the inner function gets parameters. In
the inner function it is captured. -/
theorem Storage.classify_by_way_repeating :
    classify ScopeTree.repeating ⟨.nested 1 "a", 2, ⟨0, 1⟩⟩ = .ok (.argument 2) ∧
      classify (ScopeTree.repeating.addParameter 3 "a" .int) ⟨.nested 1 "a", 2, ⟨0, 1⟩⟩ =
        .ok (.argument 2) ∧
      classify ScopeTree.repeating ⟨.nested 1 "a", 3, ⟨0, 1⟩⟩ = .ok (.outer "a" 1) := by
  have hbody : ScopeTree.repeating.Way 2 [2] 1 := .out rfl (.here (by decide))
  have hinner : ScopeTree.repeating.Way 3 [3, 2] 1 := .out rfl hbody
  obtain ⟨_, hdecides, hstays⟩ := classify_by_way ScopeTree.made_repeating
    (a := ⟨.nested 1 "a", 2, ⟨0, 1⟩⟩) rfl (by decide)
  obtain ⟨_, hcaptured, _⟩ := classify_by_way ScopeTree.made_repeating
    (a := ⟨.nested 1 "a", 3, ⟨0, 1⟩⟩) rfl (by decide)
  have hargument := (hdecides [2] hbody (.argument 2)).mpr (.argument rfl rfl rfl rfl fun j hj => by
    rw [List.getElem?_eq_none hj]
    simp)
  have hchange : ScopeTree.Becomes (ScopeTree.Change.Spares 1) ScopeTree.repeating
      (ScopeTree.repeating.addParameter 3 "a" .int) :=
    .change (.parameter 3 "a" .int) (.refl _) (by decide) (by simp [ScopeTree.Change.Spares])
  exact ⟨hargument, (hstays _ hchange).trans hargument,
    (hcaptured [3, 2] hinner _).mpr (.outer (by decide))⟩

end Tern
