import Mathlib.Data.List.Sublists
import Tern.Proofs.Coherence
import Tern.Proofs.Redeclaration

/-!
A snapshot that is loaded again changes nothing. What a table holds under a name is decided by the
changes made under it, in their order, whatever is done under other names in between. So it is enough
that such changes, made once more on their own result, end where they ended before: for modules because
it is so for their packages, for packages because it is so for symbols, and for symbols because a
callable type already has the signatures that were declared last.
-/

set_option autoImplicit false

namespace Tern

/-! Tables -/

namespace Table

variable {α β : Type} {key : α → String} {name : β → String} {change : β → Option α → α}

/-- The table after many changes, one after the other. -/
def putAll (key : α → String) (name : β → String) (change : β → Option α → α) (us : List β)
    (xs : List α) : List α :=
  us.foldl (fun xs u => put key (name u) (change u) xs) xs

/-- What becomes of a single entry. -/
def replay (change : β → Option α → α) (us : List β) (x? : Option α) : Option α :=
  us.foldl (fun x? u => some (change u x?)) x?

theorem replay_concat (us : List β) (u : β) (x? : Option α) :
    replay change (us ++ [u]) x? = some (change u (replay change us x?)) := by
  rw [replay, List.foldl_append]
  rfl

section

variable (hkeep : ∀ u x?, (∀ x ∈ x?, key x = name u) → key (change u x?) = name u)
include hkeep

theorem key_replay {us : List β} {x y : α} (hus : ∀ u ∈ us, name u = key x)
    (hy : replay change us (some x) = some y) : key y = key x := by
  induction us generalizing x with
  | nil => rw [Option.some.inj hy]
  | cons u us ih =>
    rw [List.forall_mem_cons] at hus
    have hkey : key (change u (some x)) = key x := (hkeep u (some x) (by simp [hus.1])).trans hus.1
    exact (ih (fun v hv => (hus.2 v hv).trans hkey.symm) hy).trans hkey

/-- The first entry takes all changes under its name, and the other entries take the rest. -/
theorem putAll_cons (us : List β) (x : α) (xs : List α) :
    ∃ y, replay change (us.filter fun u => name u == key x) (some x) = some y ∧
      putAll key name change us (x :: xs) =
        y :: putAll key name change (us.filter fun u => name u != key x) xs := by
  induction us generalizing x xs with
  | nil => exact ⟨x, rfl, rfl⟩
  | cons u us ih =>
    by_cases hu : name u = key x
    · have hkey : key (change u (some x)) = key x := (hkeep u (some x) (by simp [hu])).trans hu
      obtain ⟨y, hy, hput⟩ := ih (change u (some x)) xs
      rw [hkey] at hy hput
      refine ⟨y, ?_, ?_⟩
      · rw [List.filter_cons_of_pos (by simpa using hu)]
        exact hy
      · rw [List.filter_cons_of_neg (by simpa using hu), putAll, List.foldl_cons, put,
          if_pos (by simpa using hu.symm)]
        exact hput
    · obtain ⟨y, hy, hput⟩ := ih x (put key (name u) (change u) xs)
      refine ⟨y, ?_, ?_⟩
      · rw [List.filter_cons_of_neg (by simpa using hu)]
        exact hy
      · rw [List.filter_cons_of_pos (by simpa using hu), putAll, List.foldl_cons, put,
          if_neg (by simpa using Ne.symm hu)]
        exact hput

/-- Made once more, the changes do nothing to a table if they do nothing to what becomes of each of its
entries and of one that is new. -/
theorem putAll_putAll (us : List β) (xs : List α)
    (hagain : ∀ hist, hist.Sublist us → ∀ x?, (∀ x ∈ x?, x ∈ xs) →
      replay change hist (replay change hist x?) = replay change hist x?) :
    putAll key name change us (putAll key name change us xs) = putAll key name change us xs := by
  -- the rest of the table is changed under fewer names
  have hcons (us : List β) (x y : α) (hist : List β) (x? : Option α) (rest : List α)
      (hx : replay change hist x? = some y) (hkey : key y = key x)
      (hhist : us.filter (fun u => name u == key x) = hist)
      (hidem : replay change hist (replay change hist x?) = replay change hist x?)
      (hrest : putAll key name change (us.filter fun u => name u != key x) rest = rest) :
      putAll key name change us (y :: rest) = y :: rest := by
    obtain ⟨z, hz, hput⟩ := putAll_cons hkeep us y rest
    rw [hkey, hhist] at hz
    rw [hkey, hrest] at hput
    rw [hx, hz] at hidem
    rw [hput, Option.some.inj hidem]
  induction xs generalizing us with
  | cons x xs ih =>
    obtain ⟨y, hy, hput⟩ := putAll_cons hkeep us x xs
    rw [hput]
    have hkey : key y = key x := key_replay hkeep (by simp) hy
    refine hcons us x y _ (some x) _ hy hkey rfl (hagain _ List.filter_sublist _ (by simp)) ?_
    refine ih _ fun hist hh x? hx => hagain hist (hh.trans List.filter_sublist) x? ?_
    exact fun z hz => List.mem_cons_of_mem x (hx z hz)
  | nil =>
    induction hn : us.length using Nat.strongRecOn generalizing us with
    | _ n ih =>
      cases us with
      | nil => rfl
      | cons u us =>
        have hnew : key (change u none) = name u := hkeep u none (by simp)
        obtain ⟨y, hy, hput⟩ := putAll_cons hkeep us (change u none) []
        have hfirst : putAll key name change (u :: us) [] =
            putAll key name change us [change u none] := rfl
        rw [hfirst, hput]
        have hkey : key y = key (change u none) := key_replay hkeep (by simp) hy
        have hhist : (u :: us).filter (fun v => name v == key (change u none)) =
            u :: us.filter fun v => name v == key (change u none) :=
          List.filter_cons_of_pos (by simp [hnew])
        have hothers : (u :: us).filter (fun v => name v != key (change u none)) =
            us.filter fun v => name v != key (change u none) :=
          List.filter_cons_of_neg (by simp [hnew])
        refine hcons (u :: us) (change u none) y _ none _ hy hkey hhist
          (hagain _ (List.Sublist.cons_cons u List.filter_sublist) _ (by simp)) ?_
        rw [hothers]
        refine ih _ ?_ _ (fun hist hh => hagain hist (hh.trans (List.filter_sublist.cons u))) rfl
        rw [← hn, List.length_cons]
        exact Nat.lt_succ_of_le (List.length_filter_le _ us)

end

end Table

/-! Sets of signatures -/

namespace Overload

variable {s : Signature} {set declared more : List Signature}

/-- The signature that takes the place of `s`. -/
def latest (more : List Signature) (s : Signature) : Signature := (last? s.params more).getD s

/-- The place of a signature is that of the member with the same parameters. -/
theorem insert_of_covered (hs : s.Proper) (hp : ∀ t ∈ set, t.Proper) (hd : Distinct set)
    (hc : ∃ t ∈ set, (t.params == s.params) = true) :
    insert s set = set.map fun t => if t.params == s.params then s else t := by
  induction set with
  | nil => simp at hc
  | cons u us ih =>
    rw [List.forall_mem_cons] at hp
    rw [Distinct, List.pairwise_cons] at hd
    rw [insert, List.map_cons]
    by_cases hus : (u.params == s.params) = true
    · have hothers : ∀ t ∈ us, (if t.params == s.params then s else t) = id t := by
        intro t ht
        rw [if_neg fun hts => hd.1 t ht (hp.1.params_trans hs (hp.2 t ht) hus
          ((hp.2 t ht).params_symm hs hts)), id]
      rw [if_pos hus, if_pos hus, List.map_congr_left hothers, List.map_id]
    · have hrest : ∃ t ∈ us, (t.params == s.params) = true := by
        obtain ⟨t, ht, hts⟩ := hc
        rcases List.mem_cons.mp ht with rfl | ht
        · exact absurd hts hus
        · exact ⟨t, ht, hts⟩
      rw [if_neg hus, if_neg hus, ih hp.2 hd.2 hrest]

theorem latest_snoc (hs : s.Proper) (hm : ∀ t ∈ more, t.Proper) {t : Signature} (ht : t.Proper) :
    latest (more ++ [s]) t =
      if ((latest more t).params == s.params) = true then s else latest more t := by
  have hlatest : (latest more t).Proper ∧ ((latest more t).params == t.params) = true := by
    rw [latest]
    cases h : last? t.params more with
    | none => exact ⟨ht, BEq.rfl⟩
    | some u => exact ⟨hm u (mem_of_last? h).1, (mem_of_last? h).2⟩
  rw [latest, last?_snoc]
  by_cases hst : (s.params == t.params) = true
  · rw [if_pos hst, if_pos (hlatest.1.params_trans ht hs hlatest.2 (hs.params_symm ht hst))]
    rfl
  · rw [if_neg hst, if_neg fun h => hst (hs.params_trans hlatest.1 ht (hlatest.1.params_symm hs h)
      hlatest.2)]
    rfl

/-- If all places are there already, the set keeps its shape. -/
theorem extend_of_covered (hm : ∀ s ∈ more, s.Proper) (hp : ∀ t ∈ set, t.Proper) (hd : Distinct set)
    (hc : ∀ s ∈ more, ∃ t ∈ set, (t.params == s.params) = true) :
    extend set more = set.map (latest more) := by
  induction more using List.reverseRecOn with
  | nil => exact (List.map_id set).symm
  | append_singleton more s ih =>
    rw [List.forall_mem_append, List.forall_mem_singleton] at hm hc
    have hset : (Ty.overloaded (extend set more)).Proper :=
      TypeRule.stable_distinct.obeys_extend hm.1 (Ty.obeys_overloaded.mpr ⟨hd, hp⟩)
    obtain ⟨hd', hp'⟩ := Ty.obeys_overloaded.mp hset
    have hproper : ∀ t ∈ extend set more, t.Proper := hp'
    have hsums := (sums_self hd hp).extend hm.1
    have hcovered : ∃ t ∈ extend set more, (t.params == s.params) = true := by
      obtain ⟨t, ht, hts⟩ := hc.2
      obtain ⟨u, hu, hut⟩ := hsums.covers t (List.mem_append_left more ht)
      exact ⟨u, hu, (hproper u hu).params_trans (hp t ht) hm.2 hut hts⟩
    have hstep : extend set (more ++ [s]) = insert s (extend set more) := by
      rw [extend, List.foldl_append]
      rfl
    rw [hstep, insert_of_covered hm.2 hproper hd' hcovered, ih hm.1 hc.1, List.map_map]
    exact List.map_congr_left fun t ht => (latest_snoc hm.2 hm.1 (hp t ht)).symm

/-- What was declared in the end can be declared again. -/
theorem Sums.extend_again (h : Sums set declared) (hm : more <:+ declared) :
    Overload.extend set more = set := by
  have hmem {s : Signature} (hs : s ∈ more) : s ∈ declared := hm.subset hs
  rw [extend_of_covered (fun s hs => h.proper s (hmem hs)) h.obeys h.distinct
    fun s hs => h.covers s (hmem hs)]
  have hsame : ∀ t ∈ set, latest more t = id t := by
    intro t ht
    obtain ⟨before, rfl⟩ := hm
    have hlast := (h.last t).mp ht
    rw [last?, List.reverse_append, List.find?_append] at hlast
    rw [latest, last?]
    cases hmore : more.reverse.find? fun s => s.params == t.params with
    | none => rfl
    | some u =>
      rw [hmore, Option.some_or] at hlast
      rw [Option.some.inj hlast]
      rfl
  rw [List.map_congr_left hsame, List.map_id]

end Overload

/-! Types of names -/

namespace Ty

variable {types more : List Ty} {t u : Ty}

theorem eq_of_signatures (ht : t.isCallable = true) (hu : u.isCallable = true)
    (h : t.signatures = u.signatures) (hone : (∃ s, t = .function s) ↔ ∃ s, u = .function s) :
    t = u := by
  cases t with
  | function s =>
    obtain ⟨s', rfl⟩ := hone.mp ⟨s, rfl⟩
    rw [List.singleton_inj.mp h]
  | overloaded ss =>
    cases u with
    | function s =>
      obtain ⟨s', hs'⟩ := hone.mpr ⟨s, rfl⟩
      cases hs'
    | overloaded ss' => exact congrArg Ty.overloaded h
    | _ => cases hu
  | _ => cases ht

theorem Amounts.foldl (h : Amounts types t) (hc : ∀ u ∈ more, u.isCallable = true)
    (hp : ∀ u ∈ more, u.Proper) : Amounts (types ++ more) (more.foldl Ty.redeclare t) := by
  induction more generalizing types t with
  | nil => simpa using h
  | cons u more ih =>
    rw [List.forall_mem_cons] at hc hp
    rw [List.append_cons]
    exact ih (h.redeclare hc.1 hp.1) hc.2 hp.2

theorem signatures_foldl (ht : t.isCallable = true) (hc : ∀ u ∈ more, u.isCallable = true) :
    (more.foldl redeclare t).signatures =
      Overload.extend t.signatures (more.flatMap Ty.signatures) := by
  induction more generalizing t with
  | nil => rfl
  | cons u more ih =>
    rw [List.forall_mem_cons] at hc
    rw [List.foldl_cons, ih (isCallable_redeclare ht hc.1) hc.2, signatures_redeclare ht hc.1,
      List.flatMap_cons, Overload.extend, Overload.extend, Overload.extend, List.foldl_append]

theorem isOneFunction_append (h : more <:+ types) :
    IsOneFunction (types ++ more) ↔ IsOneFunction types := by
  have hmem {u : Ty} : u ∈ types ++ more ↔ u ∈ types := by
    rw [List.mem_append]
    exact or_iff_left_of_imp fun hu => h.subset hu
  constructor
  · intro hone
    exact ⟨fun u hu => hone.functions u (hmem.mpr hu),
      fun hs hs' => hone.params (hmem.mpr hs) (hmem.mpr hs')⟩
  · intro hone
    exact ⟨fun u hu => hone.functions u (hmem.mp hu),
      fun hs hs' => hone.params (hmem.mp hs) (hmem.mp hs')⟩

theorem Amounts.again (h : Amounts types t) (hm : more <:+ types)
    (hc : ∀ u ∈ more, u.isCallable = true) (hp : ∀ u ∈ more, u.Proper) :
    more.foldl Ty.redeclare t = t := by
  have hagain := h.foldl hc hp
  refine eq_of_signatures hagain.callable h.callable ?_ ?_
  · rw [signatures_foldl h.callable hc]
    obtain ⟨before, rfl⟩ := hm
    exact h.sums.extend_again ⟨before.flatMap signatures, List.flatMap_append.symm⟩
  · rw [hagain.single, h.single, isOneFunction_append hm]

/-- The declarations of a name change nothing when they are made once more, whatever they found. -/
theorem foldl_redeclare_again (ht : t.Proper) (hp : ∀ u ∈ more, u.Proper) :
    more.foldl redeclare (more.foldl redeclare t) = more.foldl redeclare t := by
  by_cases hc : ∀ u ∈ more, u.isCallable = true
  · cases hcallable : t.isCallable with
    | true => exact ((amounts_singleton hcallable ht).foldl hc hp).again (List.suffix_append _ _) hc hp
    | false =>
      cases more with
      | nil => rfl
      | cons u more =>
        rw [List.forall_mem_cons] at hc hp
        have hfirst : (u :: more).foldl redeclare t = more.foldl redeclare u := by
          rw [List.foldl_cons, redeclare_not_callable hcallable]
        rw [hfirst]
        have hall := (amounts_singleton hc.1 hp.1).foldl hc.2 hp.2
        exact hall.again (List.suffix_refl _) (List.forall_mem_cons.mpr hc) (List.forall_mem_cons.mpr hp)
  · -- what cannot be called makes a new start
    simp only [not_forall, Bool.not_eq_true] at hc
    obtain ⟨u, hu, hu'⟩ := hc
    obtain ⟨before, after, rfl⟩ := List.append_of_mem hu
    have hstart (v : Ty) : (before ++ u :: after).foldl redeclare v = after.foldl redeclare u := by
      rw [List.foldl_append, List.foldl_cons, redeclare_of_not_callable hu']
    rw [hstart, hstart]

end Ty

/-! Symbols and definitions -/

namespace Symbol

theorem declare_eq_put (new : Symbol) (symbols : List Symbol) :
    new.declare symbols = Table.put Symbol.name new.name new.over symbols := by
  rw [declare]
  congr
  funext old?
  cases old? <;> rfl

theorem declareAll_eq_putAll (calls symbols : List Symbol) :
    declareAll calls symbols = Table.putAll Symbol.name Symbol.name Symbol.over calls symbols := by
  rw [declareAll, Table.putAll]
  congr
  funext symbols new
  exact new.declare_eq_put symbols

/-- The type comes from all declarations, the rest from the last one. A name that is new is like one
that stands for something that cannot be called. -/
theorem replay_over (calls : List Symbol) (last : Symbol) (old? : Option Symbol) :
    Table.replay Symbol.over (calls ++ [last]) old? =
      some { last with
        type := ((calls ++ [last]).map Symbol.type).foldl Ty.redeclare
          ((old?.map Symbol.type).getD .unit) } := by
  induction calls using List.reverseRecOn generalizing last with
  | nil => cases old? <;> rfl
  | append_singleton calls previous ih =>
    rw [Table.replay_concat, ih previous]
    conv => rhs; rw [List.map_append, List.foldl_append]
    rfl

theorem replay_over_again {calls : List Symbol} {old? : Option Symbol}
    (hcalls : ∀ s ∈ calls, s.type.Proper) (hold : ∀ s ∈ old?, s.type.Proper) :
    Table.replay Symbol.over calls (Table.replay Symbol.over calls old?) =
      Table.replay Symbol.over calls old? := by
  cases calls using List.reverseRecOn with
  | nil => rfl
  | append_singleton calls last =>
    have hstart : ((old?.map Symbol.type).getD .unit).Proper := by
      cases old? with
      | none => exact Ty.obeys_primitive _
      | some old => exact hold old rfl
    rw [replay_over, replay_over, Option.map_some, Option.getD_some,
      Ty.foldl_redeclare_again hstart (List.forall_mem_map.mpr hcalls)]

theorem declareAll_again {calls symbols : List Symbol} (hcalls : ∀ s ∈ calls, s.type.Proper)
    (hsymbols : ∀ s ∈ symbols, s.type.Proper) :
    declareAll calls (declareAll calls symbols) = declareAll calls symbols := by
  rw [declareAll_eq_putAll, declareAll_eq_putAll]
  refine Table.putAll_putAll ?_ calls symbols ?_
  · intro new old? _
    cases old? <;> rfl
  · exact fun hist hh old? hold => replay_over_again (fun s hs => hcalls s (hh.subset hs))
      fun s hs => hsymbols s (hold s hs)

end Symbol

namespace Definition

def defineAll (more definitions : List Definition) : List Definition :=
  more.foldl (fun definitions d => d.define definitions) definitions

theorem defineAll_again (more definitions : List Definition) :
    defineAll more (defineAll more definitions) = defineAll more definitions := by
  refine @Table.putAll_putAll _ _ Definition.name Definition.name (fun d _ => d) (fun _ _ _ => rfl) more
    definitions ?_
  intro hist _ d? _
  cases hist using List.reverseRecOn with
  | nil => rfl
  | append_singleton hist d => rw [Table.replay_concat, Table.replay_concat]

end Definition

/-! Packages and modules -/

namespace Package

/-- The package once the images are loaded into it, one after the other. -/
def absorbAll (images : List PackageImage) (p : Package) : Package :=
  { p with
    symbols := Symbol.declareAll (images.flatMap PackageImage.symbols) p.symbols
    definitions := Definition.defineAll (images.flatMap PackageImage.definitions) p.definitions }

theorem absorbAll_append (images more : List PackageImage) (p : Package) :
    absorbAll (images ++ more) p = absorbAll more (absorbAll images p) := by
  simp only [absorbAll, List.flatMap_append, Symbol.declareAll, Definition.defineAll, List.foldl_append]

theorem absorbAll_singleton (image : PackageImage) (p : Package) :
    absorbAll [image] p = image.definitions.foldl define (image.symbols.foldl addSymbol p) := by
  rw [defineAll_eq, addSymbols_eq, absorbAll, List.flatMap_singleton, List.flatMap_singleton]
  rfl

theorem absorbAll_again {images : List PackageImage} {p : Package}
    (himages : ∀ image ∈ images, ∀ s ∈ image.symbols, s.type.Proper)
    (hp : ∀ s ∈ p.symbols, s.type.Proper) :
    absorbAll images (absorbAll images p) = absorbAll images p := by
  have hcalls : ∀ s ∈ images.flatMap PackageImage.symbols, s.type.Proper := by
    intro s hs
    obtain ⟨image, himage, hs⟩ := List.mem_flatMap.mp hs
    exact himages image himage s hs
  simp only [absorbAll, Symbol.declareAll_again hcalls hp, Definition.defineAll_again]

end Package

/-- A package of an image with the name of its module. -/
abbrev Snapshot.Entry := String × PackageImage

namespace Snapshot.Entry

def path (e : Entry) : PackagePath := ⟨e.1, e.2.name⟩

/-- The package after the entry is loaded. -/
def package (e : Entry) (p? : Option Package) : Package :=
  Package.absorbAll [e.2] (p?.getD { path := e.path })

/-- The module after the entry is loaded. -/
def module (e : Entry) (m? : Option Module) : Module where
  name := e.1
  packages := Table.put Module.key e.2.name e.package ((m?.map Module.packages).getD [])

def Proper (e : Entry) : Prop := ∀ s ∈ e.2.symbols, s.type.Proper

theorem key_package (e : Entry) (p? : Option Package) (h : ∀ p ∈ p?, Module.key p = e.2.name) :
    Module.key (e.package p?) = e.2.name := by
  cases p? with
  | none => rfl
  | some p => exact h p rfl

theorem replay_package (e : Entry) (more : List Entry) (p? : Option Package) :
    Table.replay package (e :: more) p? =
      some (Package.absorbAll ((e :: more).map Prod.snd) (p?.getD { path := e.path })) := by
  induction more using List.reverseRecOn with
  | nil => rfl
  | append_singleton more last ih =>
    rw [← List.cons_append, Table.replay_concat, ih, List.map_append, Package.absorbAll_append]
    rfl

theorem replay_package_again {entries : List Entry} {p? : Option Package}
    (hentries : ∀ e ∈ entries, e.Proper) (hp : ∀ p ∈ p?, ∀ s ∈ p.symbols, s.type.Proper) :
    Table.replay package entries (Table.replay package entries p?) =
      Table.replay package entries p? := by
  cases entries with
  | nil => rfl
  | cons e more =>
    have hstart : ∀ s ∈ (p?.getD { path := e.path }).symbols, s.type.Proper := by
      cases p? with
      | none => simp
      | some p => exact hp p rfl
    rw [replay_package, replay_package, Option.getD_some,
      Package.absorbAll_again (List.forall_mem_map.mpr hentries) hstart]

theorem replay_module (entries : List Entry) (last : Entry) (m? : Option Module) :
    Table.replay module (entries ++ [last]) m? =
      some ⟨last.1, Table.putAll Module.key (fun e => e.2.name) package (entries ++ [last])
        ((m?.map Module.packages).getD [])⟩ := by
  induction entries using List.reverseRecOn generalizing last with
  | nil => rfl
  | append_singleton entries previous ih =>
    rw [Table.replay_concat, ih previous, module, Option.map_some, Option.getD_some]
    conv => rhs; rw [Table.putAll, List.foldl_append]
    rfl

theorem replay_module_again {entries : List Entry} {m? : Option Module}
    (hentries : ∀ e ∈ entries, e.Proper)
    (hm : ∀ m ∈ m?, ∀ p ∈ m.packages, ∀ s ∈ p.symbols, s.type.Proper) :
    Table.replay module entries (Table.replay module entries m?) = Table.replay module entries m? := by
  cases entries using List.reverseRecOn with
  | nil => rfl
  | append_singleton entries last =>
    have hstart : ∀ p ∈ (m?.map Module.packages).getD [], ∀ s ∈ p.symbols, s.type.Proper := by
      cases m? with
      | none => simp
      | some m => exact hm m rfl
    rw [replay_module, replay_module, Option.map_some, Option.getD_some,
      Table.putAll_putAll key_package]
    exact fun hist hh p? hp => replay_package_again (fun e he => hentries e (hh.subset he))
      fun p hmem => hstart p (hp p hmem)

end Snapshot.Entry

/-! Snapshots -/

namespace Snapshot

/-- The packages of all modules, in the order in which they are loaded. -/
def entries (s : Snapshot) : List Entry :=
  s.modules.flatMap fun m => m.packages.map fun p => (m.name, p)

end Snapshot

namespace Namespace

theorem loadPackage_eq_put (ns : Namespace) (e : Snapshot.Entry) :
    loadPackage e.1 ns e.2 = ⟨Table.put Module.name e.1 e.module ns.modules⟩ := by
  have hmodule : e.module = fun m? =>
      { name := e.1
        packages := Table.put Module.key e.2.name
          (fun p? => e.2.definitions.foldl Package.define
            (e.2.symbols.foldl Package.addSymbol (p?.getD { path := ⟨e.1, e.2.name⟩ })))
          ((m?.map Module.packages).getD []) } := by
    simp only [← Package.absorbAll_singleton]
    rfl
  rw [hmodule]
  rfl

theorem load_eq_putAll (ns : Namespace) (s : Snapshot) :
    ns.load s = ⟨Table.putAll Module.name Prod.fst Snapshot.Entry.module s.entries ns.modules⟩ := by
  have hload : ns.load s = s.entries.foldl (fun ns e => loadPackage e.1 ns e.2) ns := by
    simp only [load, Snapshot.entries, List.foldl_flatMap, List.foldl_map]
  rw [hload]
  clear hload
  generalize s.entries = entries
  induction entries generalizing ns with
  | nil => rfl
  | cons e entries ih =>
    rw [List.foldl_cons, ih, loadPackage_eq_put]
    rfl

/-- A snapshot leaves nothing to load for a second time. What it declares may be there already or be
repeated in it, as a value or a function: as long as no set of signatures has a list of parameters
twice, loading it again gives the same namespace, with everything in its place. -/
theorem load_again {ns : Namespace} {s : Snapshot}
    (hns : ∀ p ∈ ns.packages, ∀ x ∈ p.symbols, x.type.Proper)
    (hs : ∀ m ∈ s.modules, ∀ p ∈ m.packages, ∀ x ∈ p.symbols, x.type.Proper) :
    (ns.load s).load s = ns.load s := by
  have hentries : ∀ e ∈ s.entries, e.Proper := by
    intro e he
    obtain ⟨m, hm, he⟩ := List.mem_flatMap.mp he
    obtain ⟨p, hp, rfl⟩ := List.mem_map.mp he
    exact hs m hm p hp
  have hkeep (e : Snapshot.Entry) (m? : Option Module) (_ : ∀ m ∈ m?, m.name = e.1) :
      (e.module m?).name = e.1 := rfl
  rw [load_eq_putAll, load_eq_putAll, Table.putAll_putAll hkeep]
  intro hist hh m? hm
  refine Snapshot.Entry.replay_module_again (fun e he => hentries e (hh.subset he)) ?_
  exact fun m hmem p hp => hns p (List.mem_flatMap.mpr ⟨m, hm m hmem, hp⟩)

/-- Both the module and its package occur twice. The name `f`, first a number, becomes a function, a
string and again a function, and the type `Box` is defined twice. -/
def scatteredImage : Snapshot :=
  let f (type : Ty) : Symbol := ⟨"f", type, true, false⟩
  let box (typeParams : List String) : Definition := ⟨⟨"app", "main"⟩, "Box", typeParams, true, []⟩
  ⟨[⟨"app", [⟨"main", [f (.function (.mk [.int] .int)), f .string], [box ["T"]]⟩, ⟨"main", [], []⟩]⟩,
    ⟨"app", [⟨"main", [f (.function (.mk [.bool] .bool)),
      f (.overloaded [.mk [.int] .bool, .mk [.bool] .int])], [box []]⟩]⟩]⟩

theorem load_again_scattered :
    let ns := withPrelude.addSymbol ⟨"app", "main"⟩ ⟨"f", .int, false, true⟩
    (∀ p ∈ ns.packages, ∀ x ∈ p.symbols, x.type.Proper) ∧
      (∀ m ∈ scatteredImage.modules, ∀ p ∈ m.packages, ∀ x ∈ p.symbols, x.type.Proper) ∧
      ((ns.load scatteredImage).symbol? ⟨"app", "main"⟩ "f").map Symbol.type =
        some (.overloaded [.mk [.bool] .int, .mk [.int] .bool]) ∧
      (ns.load scatteredImage).load scatteredImage = ns.load scatteredImage := by
  intro ns
  have hns : ∀ p ∈ ns.packages, ∀ x ∈ p.symbols, x.type.Proper := by
    have hpackages : ns.packages =
        [⟨preludePath, [builtIn "println" [.any] .unit, builtIn "print" [.any] .unit,
            ⟨"len", .overloaded [.mk [.string] .int, .mk [.array .any] .int], true, false⟩,
            builtIn "to_string" [.any] .string], []⟩,
          ⟨⟨"app", "main"⟩, [⟨"f", .int, false, true⟩], []⟩] := by rfl
    simp [hpackages, builtIn, Ty.Proper, Ty.obeys_function, Ty.obeys_overloaded, Ty.obeys_array,
      Signature.obeys_iff, Signature.params, Signature.ret, TypeRule.distinct, Overload.Distinct]
    decide
  have hs : ∀ m ∈ scatteredImage.modules, ∀ p ∈ m.packages, ∀ x ∈ p.symbols, x.type.Proper := by
    simp [scatteredImage, Ty.Proper, Ty.obeys_function, Ty.obeys_overloaded, Signature.obeys_iff,
      Signature.params, Signature.ret, TypeRule.distinct, Overload.Distinct]
    decide
  exact ⟨hns, hs, by rfl, load_again hns hs⟩

/-- A set that has a list of parameters twice is not the same after it is loaded again. -/
example :
    let f : Symbol := ⟨"f", .overloaded [.mk [.int] .int, .mk [.int] .bool], true, false⟩
    let image : Snapshot := ⟨[⟨"app", [⟨"main", [f], []⟩]⟩]⟩
    ((empty.load image).symbol? ⟨"app", "main"⟩ "f").map Symbol.type =
        some (.overloaded [.mk [.int] .int, .mk [.int] .bool]) ∧
      (((empty.load image).load image).symbol? ⟨"app", "main"⟩ "f").map Symbol.type =
        some (.overloaded [.mk [.int] .bool, .mk [.int] .bool]) := ⟨rfl, rfl⟩

end Namespace

end Tern
