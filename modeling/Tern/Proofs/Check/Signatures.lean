import Tern.Proofs.Check.Forward
import Tern.Proofs.Imports
import Tern.Proofs.Ty

/-!
Signatures that are read twice: when a function is registered, and again when its turn comes. What a
written type stands for can change in between, but only if a `data` type inside some body takes its
name.
-/

set_option autoImplicit false

namespace Tern

/-- The later context has the same imports and type parameters, and only certain types of the package
are defined anew. -/
structure Context.Follows (defines : String → Prop) (c c' : Context) : Prop where
  path : c'.path = c.path
  imports : c'.imports = c.imports
  generics : c'.generics = c.generics
  ns : c.ns.Alters c.path (fun _ => True) defines c'.ns

section Follows

variable {defines : String → Prop} {permit : Permit} {c c' c'' : Context}

namespace Context

theorem Follows.refl (c : Context) : c.Follows defines c := ⟨rfl, rfl, rfl, .refl _⟩

theorem Follows.trans (h : c.Follows defines c') (k : c'.Follows defines c'') :
    c.Follows defines c'' where
  path := k.path.trans h.path
  imports := k.imports.trans h.imports
  generics := k.generics.trans h.generics
  ns := h.ns.trans (h.path ▸ k.ns)

theorem Enlarged.follows (h : c.Enlarged permit c') : c.Follows permit.defines c' := by
  obtain ⟨ns, ds, rfl, hns, _⟩ := h
  exact ⟨rfl, rfl, rfl, hns.mono (fun _ _ => trivial) fun _ hx => hx⟩

/-- Types that no definition touches stand for what they stood for. -/
theorem Follows.agrees (h : c.Follows defines c') {names : List String}
    (hnames : ∀ x ∈ names, ¬ defines x ∧ ∀ i, c.imports.name? x = some i → ¬ defines i.name) :
    TypeScope.Agrees names true c.typeScope c'.typeScope := by
  have hd (path : PackagePath) (x : String) (hx : ¬ defines x) :
      c'.ns.definition? path x = c.ns.definition? path x := by
    by_cases hp : path = c.path
    · exact hp ▸ (h.ns.definition_eq x).resolve_left hx
    · exact h.ns.toGrows.definition?_eq hp x
  refine ⟨h.generics, ?_, ?_⟩
  · intro x hx
    obtain ⟨hown, himported⟩ := hnames x hx
    simp only [typeScope, importedType?]
    rw [h.path, hd _ x hown, h.imports]
    cases hi : c.imports.name? x with
    | none => rfl
    | some i => simp only [Option.bind_some, hd _ i.name (himported i hi)]
  · intro _ x hx head args hl case k
    obtain ⟨hown, himported⟩ := hnames x hx
    -- the name of the type is the one under which it was found
    have hhead : ¬ defines head.name := by
      simp only [typeScope] at hl
      split at hl
      · rename_i d hfound
        obtain ⟨rfl, _⟩ : d.type = .variant head args := Option.some.inj hl
        exact Namespace.name_of_definition? _ _ hfound ▸ hown
      · obtain ⟨i, hi, hl⟩ := Option.bind_eq_some_iff.mp hl
        obtain ⟨d, hfound, hl⟩ := Option.bind_eq_some_iff.mp hl
        split at hl
        · obtain ⟨rfl, _⟩ : d.type = .variant head args := Option.some.inj hl
          exact Namespace.name_of_definition? _ _ hfound ▸ himported i hi
        · cases hl
    simp only [typeScope, Namespace.hasCase, Namespace.definitionOf?, hd _ _ hhead]

end Context

theorem Built.follows {strict : Bool} {p : Place} {ids : List Nat}
    (h : Built permit strict p c ids c') : c.Follows permit.defines c' where
  path := h.grows.path
  imports := h.grows.imports
  generics := h.grows.generics
  ns := h.alters.mono (fun _ _ => trivial) fun _ hx => hx

end Follows

/-! Declarations of the same function -/

theorem Symbol.over_over {s : Symbol} {sig : Signature} (h : s.type = .function sig)
    (old : Option Symbol) : s.over (some (s.over old)) = s.over old := by
  obtain ⟨x, t, isPublic, isMutable⟩ := s
  obtain rfl : t = .function sig := h
  cases old with
  | none => simp [Symbol.over, redeclare, Ty.redeclare]
  | some old => simp [Symbol.over, redeclare, Ty.redeclare_redeclare]

namespace Check

theorem run_functionOf (c : Context) (head : FunctionHead) (body : List Node) (span : Span) :
    (functionOf (.function head body span)).run c =
      ((), (c.later c.ns (head.faultsIn c.typeScope)).declaring (c.symbolOf head)) := by
  unfold functionOf
  rw [StateT.run_bind, reads_signature true head c]
  rfl

/-- What comes before the item at `i` is registered as a function. -/
def registering (u : SourceUnit) (i : Nat) : Check Unit := do
  opening u
  (u.items.take i).forM functionOf

theorem prologue_eq_registering (u : SourceUnit) (i : Nat) :
    prologue u = (do registering u i; (u.items.drop i).forM functionOf) := by
  have hforM : u.items.forM functionOf =
      (do (u.items.take i).forM functionOf; (u.items.drop i).forM functionOf) := by
    conv_lhs => rw [← List.take_append_drop i u.items]
    exact List.forM_append
  rw [prologue_eq, registering, hforM, bind_assoc]

theorem run_items_append {as bs : List Node} {c : Context}
    (h : Yields (items as) c fun r _ => r = .ok ()) :
    (items (as ++ bs)).run c = (items bs).run ((items as).run c).2 := by
  induction as generalizing c with
  | nil => rfl
  | cons n as ih =>
    rcases hrun : (item n).run c with ⟨r, c'⟩
    cases r with
    | error fault =>
      have herror : (items (n :: as)).run c = (.error fault, c') := by
        rw [items, StateT.run_bind, hrun]
        rfl
      rw [Yields, herror] at h
      cases h
    | ok id =>
      rw [Yields, run_items_cons hrun] at h
      rw [List.cons_append, run_items_cons hrun, run_items_cons hrun, ih h]

end Check

namespace SourceUnit

variable (u : SourceUnit) (ns : Namespace) (default : PackagePath) (i : Nat)

/-- The context in which the signature of the item at `i` is read first. -/
def registering : Context := ((Check.registering u i).run (.init ns (u.path default))).2

/-- The items that are checked before the one at `i`. -/
def before : List Node :=
  ((Order.ofItems u.items).order.takeWhile (· ≠ i)).filterMap fun j => u.items[j]?

/-- The context in which the item at `i` is checked. -/
def atTurn : Context := ((Check.items (u.before i)).run (u.prepared ns default)).2

/-- The declaration stands inside of an item. -/
def Nests (decl : DataDecl) : Prop :=
  ∃ n ∈ u.items, ∃ span, Node.data decl span ∈ n.nodes.tail

def Redefines (x : String) : Prop := ∃ decl, u.Nests decl ∧ decl.name = x

/-- A type of this name is meant in the signature: the name is written there, or it is imported under
one that is. -/
def Mentions (head : FunctionHead) (x : String) : Prop :=
  x ∈ head.typeNames ∨
    ∃ decl ∈ u.imports, ∃ e ∈ decl.entries, e.localName ∈ head.typeNames ∧ e.name = x

/-- Only the item at `i` declares the name. -/
structure DeclaresOnce (x : String) : Prop where
  fits : ∀ n ∈ u.items, n.FitsIn .statement
  items : ∀ j n, u.items[j]? = some n → x ∈ n.declaredNames → j = i
  nested : ∀ decl, u.Nests decl → x ∉ decl.cases.map CaseDecl.name

variable {u ns default i}

theorem registering_follows :
    (u.registering ns default i).Follows u.Redefines (u.prepared ns default) := by
  rw [prepared, Check.prologue_eq_registering u i]
  let permit : Permit := { Permit.all with defines := u.Redefines }
  have hitems : ∀ n ∈ u.items.drop i, ∀ x ∈ n.declaredNames, permit.declares x :=
    fun _ _ _ _ => trivial
  have h := Check.yields_functions (c := u.registering ns default i) hitems
  exact h.1.follows

theorem imports_registering : (u.registering ns default i).imports =
    (Imports.ofDecls (ns.ensurePackage (u.path default)) (u.path default).module u.imports).1 := by
  have hall : ∀ n ∈ u.items, Permit.all.Covers n ∧ ∀ x ∈ n.declaredNames, Permit.all.declares x :=
    fun n _ => ⟨Permit.covers_all n, fun _ _ => trivial⟩
  obtain ⟨⟨ns', ds', heq, _, _⟩, _⟩ :=
    Check.yields_prologue (c := .init ns (u.path default)) hall
  rw [← registering_follows.imports, prepared, heq]
  rfl

/-- In what is checked of an item, only types inside of it are defined. -/
theorem covers_inner {declares : String → Prop} {n m : Node} (hn : n ∈ u.items)
    (hm : m ∈ n.nodes.tail)
    (hcases : ∀ decl, u.Nests decl → ∀ x ∈ decl.cases.map CaseDecl.name, declares x) :
    Permit.Covers { Permit.all with declares, defines := u.Redefines } m := by
  unfold Permit.Covers
  split
  · rename_i decl span
    have hnests : u.Nests decl := ⟨n, hn, span, hm⟩
    exact ⟨⟨decl, hnests, rfl⟩, hcases decl hnests⟩
  · trivial
  · trivial
  · trivial

theorem coversItem_inner {declares : String → Prop} {n : Node} (hn : n ∈ u.items)
    (hd : ∀ x ∈ n.declaredNames, declares x)
    (hcases : ∀ decl, u.Nests decl → ∀ x ∈ decl.cases.map CaseDecl.name, declares x) :
    Permit.CoversItem { Permit.all with declares, defines := u.Redefines } n := by
  unfold Permit.CoversItem
  split
  · trivial
  · rename_i hdata
    refine ⟨hd, fun m hm => ?_⟩
    rw [Node.nodes_eq, List.mem_cons] at hm
    rcases hm with rfl | hm
    · unfold Permit.Covers
      split
      · exact absurd rfl (hdata _ _)
      · trivial
      · trivial
      · trivial
    · exact covers_inner hn hm hcases

theorem yields_item_follows {n : Node} {c : Context} (hn : n ∈ u.items) (hc : c.Advanced u []) :
    Check.Yields (Check.item n) c fun r c' => ∃ id, r = .ok id ∧ (c'.addItem id).Advanced u [] ∧
      c.Follows u.Redefines (c'.addItem id) := by
  let permit : Permit := { Permit.all with defines := u.Redefines }
  have hcovers : permit.CoversItem n :=
    coversItem_inner hn (fun _ _ => trivial) fun _ _ _ _ => trivial
  have hready : c.Ready fun _ => False := ⟨hc.inBlock.placed, fun _ h => h.elim⟩
  have hfits : false = true → n.FitsIn .statement := by simp
  refine (Check.yields_item (fun _ _ => trivial) (fun _ _ => trivial) (hc.registered n hn) hc.root
    hfits hcovers (fun _ _ => Or.inr trivial) hready).mono ?_
  rintro r c' ⟨id, hid, hb, _⟩
  have hf := hb.follows
  exact ⟨id, hid, hc.addItem hb.grows id, hf.path, hf.imports, hf.generics, hf.ns⟩

/-- When items are done, types are as they were registered, apart from those inside of items. -/
theorem yields_items_follow {nodes : List Node} (hnodes : ∀ n ∈ nodes, n ∈ u.items) :
    Check.Yields (Check.items nodes) (u.prepared ns default) fun r c => r = .ok () ∧
      c.Advanced u [] ∧ (u.registering ns default i).Follows u.Redefines c := by
  refine Check.yields_items (J := fun c => c.Advanced u [] ∧
    (u.registering ns default i).Follows u.Redefines c) nodes
    ⟨advanced_prepared, registering_follows⟩ ?_
  rintro n hn c ⟨hc, hfollows⟩
  refine (yields_item_follows (hnodes n hn) hc).mono ?_
  rintro r c' ⟨id, hid, hc', hf⟩
  exact ⟨id, hid, hc', hfollows.trans hf⟩

theorem mem_of_mem_before {n : Node} (h : n ∈ u.before i) : n ∈ u.items := by
  obtain ⟨j, _, hj⟩ := List.mem_filterMap.mp h
  exact List.mem_of_getElem? hj

/-- The item at `i` and those after it are checked from the context of its turn on. -/
theorem check_eq_atTurn {rest : List Node} (h : Check.ordered u = u.before i ++ rest) :
    u.check ns default = (Check.items rest).run (u.atTurn ns default i) := by
  have hnodes : ∀ n ∈ u.before i, n ∈ u.items := fun _ => mem_of_mem_before
  have hbefore : Check.Yields (Check.items (u.before i)) (u.prepared ns default) fun r _ => r = .ok () :=
    (yields_items_follow (i := i) hnodes).mono fun _ _ h => h.1
  rw [check, Check.unit_eq, StateT.run_bind, h]
  exact Check.run_items_append hbefore

variable {head : FunctionHead} {body : List Node} {span : Span}

/-- As long as no type in a signature is defined anew, the signature is as it was registered. -/
theorem signatureIn_of_follows (hnests : ∀ decl, u.Nests decl → ¬ u.Mentions head decl.name)
    {c : Context} (hc : (u.registering ns default i).Follows u.Redefines c) :
    head.signatureIn c.typeScope = head.signatureIn (u.registering ns default i).typeScope := by
  refine FunctionHead.signatureIn_eq (hc.agrees ?_)
  intro x hx
  constructor
  · rintro ⟨decl, hdecl, rfl⟩
    exact hnests decl hdecl (Or.inl hx)
  · intro entry hentry hredefines
    obtain ⟨decl, hdecl, hname⟩ := hredefines
    rw [imports_registering] at hentry
    obtain ⟨imp, himp, _, e, he, rfl, hentryName⟩ := Imports.exists_of_name?_ofDecls hentry
    exact hnests decl hdecl (Or.inr ⟨imp, himp, e, he, hx, hentryName.trans hname.symm⟩)

section Once

variable (hi : u.items[i]? = some (.function head body span))
  (honce : u.DeclaresOnce i head.name) (hnew : ns.symbol? (u.path default) head.name = none)
include honce

theorem DeclaresOnce.of_ne {j : Nat} {n : Node} (hj : u.items[j]? = some n) (hne : j ≠ i) :
    ∀ x ∈ n.declaredNames, x ≠ head.name := by
  rintro x hx rfl
  exact hne (honce.items j n hj hx)

include hi hnew

/-- Before the function is registered, its name is new. -/
theorem symbol?_registering :
    (u.registering ns default i).path = u.path default ∧
      (u.registering ns default i).ns.symbol? (u.path default) head.name = none := by
  let permit : Permit := { Permit.all with declares := (· ≠ head.name) }
  have hcovers (n : Node) (hn : n ∈ u.items) : permit.Covers n := by
    unfold Permit.Covers
    split
    · obtain ⟨j, hj⟩ := List.getElem?_of_mem hn
      refine ⟨trivial, honce.of_ne hj ?_⟩
      rintro rfl
      cases hi.symm.trans hj
    · trivial
    · trivial
    · trivial
  have h : Check.Yields (Check.registering u i) (.init ns (u.path default)) fun _ c =>
      ((Context.init ns (u.path default)).importing u.imports).Enlarged permit c := by
    refine (Check.yields_opening hcovers).bind fun _ c₁ ⟨h₁, _⟩ => ?_
    refine (Check.yields_functions fun n hn => ?_).mono fun _ c₂ h₂ => h₁.trans h₂.1
    obtain ⟨j, hj⟩ := List.getElem?_of_mem hn
    rw [List.getElem?_take] at hj
    split at hj
    · rename_i hlt
      exact honce.of_ne hj (Nat.ne_of_lt hlt)
    · cases hj
  obtain ⟨ns', ds, heq, hns, _⟩ := h
  rw [registering, heq]
  refine ⟨rfl, ?_⟩
  exact ((hns.symbol_eq head.name).resolve_left fun h => h rfl).trans
    ((Namespace.symbol?_ensurePackage ..).trans hnew)

/-- Whatever else is registered, the function has the signature that was read first. -/
theorem symbol?_prepared : (u.prepared ns default).ns.symbol? (u.path default) head.name =
    some ((u.registering ns default i).symbolOf head) := by
  let permit : Permit := { Permit.all with declares := (· ≠ head.name) }
  obtain ⟨hpath, hnone⟩ := symbol?_registering hi honce hnew
  obtain ⟨hlt, hget⟩ := List.getElem?_eq_some_iff.mp hi
  have hdrop : u.items.drop i = .function head body span :: u.items.drop (i + 1) := by
    rw [List.drop_eq_getElem_cons hlt, hget]
  have h : Check.Yields (Check.prologue u) (.init ns (u.path default)) fun _ c =>
      c.ns.symbol? (u.path default) head.name =
        some ((u.registering ns default i).symbolOf head) := by
    rw [Check.prologue_eq_registering u i, hdrop]
    refine Check.Yields.bind (P := fun _ c => c = u.registering ns default i) rfl ?_
    rintro _ _ rfl
    refine Check.Yields.bind (P := fun _ c => c = _)
      (congrArg Prod.snd (Check.run_functionOf _ head body span)) ?_
    rintro _ _ rfl
    have hrest (n : Node) (hn : n ∈ u.items.drop (i + 1)) :
        ∀ x ∈ n.declaredNames, permit.declares x := by
      obtain ⟨k, hk⟩ := List.getElem?_of_mem hn
      rw [List.getElem?_drop] at hk
      exact honce.of_ne hk (by omega)
    refine (Check.yields_functions hrest).mono ?_
    rintro _ _ ⟨⟨ns', ds, rfl, hns, _⟩, _⟩
    rw [← hpath] at hnone ⊢
    refine ((hns.symbol_eq head.name).resolve_left fun h => h rfl).trans ?_
    exact (Context.symbol?_declaring _ _).trans (congrArg (fun old => some (Symbol.over _ old)) hnone)
  exact h

omit hnew in
/-- No item changes the type of the function. -/
theorem yields_item_symbol (hnests : ∀ decl, u.Nests decl → ¬ u.Mentions head decl.name) {n : Node}
    {c : Context} (hn : n ∈ u.items) (hc : c.Advanced u [])
    (hfollows : (u.registering ns default i).Follows u.Redefines c)
    (hs : c.ns.symbol? c.path head.name = some ((u.registering ns default i).symbolOf head)) :
    Check.Yields (Check.item n) c fun _ c' =>
      c'.ns.symbol? c.path head.name = some ((u.registering ns default i).symbolOf head) := by
  let permit : Permit :=
    { Permit.all with declares := (· ≠ head.name), defines := u.Redefines }
  have hpaths : Check.MayReportPaths permit := fun _ _ => trivial
  have hdecl : true = false → ∀ x, permit.declares x := by simp
  have hready : c.Ready fun _ => False := ⟨hc.inBlock.placed, fun _ h => h.elim⟩
  have hcases (decl : DataDecl) (hdecl : u.Nests decl) :
      ∀ x ∈ decl.cases.map CaseDecl.name, x ≠ head.name := by
    rintro x hx rfl
    exact honce.nested decl hdecl hx
  have hfits := honce.fits n hn
  obtain ⟨j, hj⟩ := List.getElem?_of_mem hn
  by_cases hji : j = i
  · -- the function itself is declared as before
    subst hji
    obtain rfl : .function head body span = n := Option.some.inj (hi.symm.trans hj)
    simp only [Node.FitsIn] at hfits
    refine (Check.yields_packageFunction hpaths hdecl (hc.registered _ hn) (fun _ => hfits.2)
      (fun m hm => covers_inner hn (by simpa [Node.nodes] using hm) hcases)
      (fun _ _ => Or.inr trivial) hready).mono ?_
    rintro r c' ⟨id, _, hb⟩
    have heq := (hb.alters.symbol_eq head.name).resolve_left fun h => h rfl
    have hsymbol : c.symbolOf head = (u.registering ns default j).symbolOf head := by
      rw [Context.symbolOf, signatureIn_of_follows hnests hfollows, Context.symbolOf]
    refine heq.trans ((Context.symbol?_declaring c _).trans ?_)
    rw [hsymbol]
    exact (congrArg (fun old => some (Symbol.over _ old)) hs).trans
      (congrArg some (Symbol.over_over rfl none))
  · refine (Check.yields_item hpaths hdecl (hc.registered n hn) hc.root (fun _ => hfits)
      (coversItem_inner hn (honce.of_ne hj hji) hcases) (fun _ _ => Or.inr trivial) hready).mono ?_
    rintro r c' ⟨id, _, hb, _⟩
    exact ((hb.alters.symbol_eq head.name).resolve_left fun h => h rfl).trans hs

end Once

/-- A function whose signature mentions no type that is defined anew inside of an item has the same
signature when its turn comes as when it was registered. If nothing else declares its name, that is
the type of the name in the end, with no overloads. -/
theorem signature_registered_kept (u : SourceUnit) (ns : Namespace) (default : PackagePath) {i : Nat}
    {head : FunctionHead} {body : List Node} {span : Span}
    (hi : u.items[i]? = some (.function head body span))
    (hnests : ∀ decl, u.Nests decl → ¬ u.Mentions head decl.name) :
    ((Check.signature false head).run (u.atTurn ns default i)).1 =
        ((Check.signature true head).run (u.registering ns default i)).1 ∧
      (u.DeclaresOnce i head.name → ns.symbol? (u.path default) head.name = none →
        (u.check ns default).2.ns.symbol? (u.path default) head.name =
          some ⟨head.name,
            Check.functionType ((Check.signature true head).run (u.registering ns default i)).1.1
              ((Check.signature true head).run (u.registering ns default i)).1.2,
            head.isPublic, false⟩) := by
  constructor
  · have hnodes : ∀ n ∈ u.before i, n ∈ u.items := fun _ => mem_of_mem_before
    have hturn : (u.registering ns default i).Follows u.Redefines (u.atTurn ns default i) :=
      (yields_items_follow hnodes).2.2
    rw [Check.reads_signature, Check.reads_signature]
    exact signatureIn_of_follows hnests hturn
  · intro honce hnew
    rw [Check.reads_signature]
    change _ = some ((u.registering ns default i).symbolOf head)
    let J (c : Context) : Prop := (c.Advanced u [] ∧
      (u.registering ns default i).Follows u.Redefines c) ∧
      c.ns.symbol? (u.path default) head.name = some ((u.registering ns default i).symbolOf head)
    have hpath : (u.registering ns default i).path = u.path default :=
      (symbol?_registering hi honce hnew).1
    suffices h : Check.Yields (Check.items (Check.ordered u)) (u.prepared ns default) fun r c =>
        r = .ok () ∧ J c from h.2.2
    refine Check.yields_items _
      ⟨⟨advanced_prepared, registering_follows⟩, symbol?_prepared hi honce hnew⟩ ?_
    rintro n hn c ⟨⟨hc, hfollows⟩, hs⟩
    have hmem := Check.mem_of_mem_ordered hn
    rw [← hpath, ← hfollows.path] at hs
    refine ((yields_item_follows hmem hc).and
      (yields_item_symbol hi honce hnests hmem hc hfollows hs)).mono ?_
    rintro r c' ⟨⟨id, hid, hc', hf⟩, hs'⟩
    rw [hfollows.path, hpath] at hs'
    exact ⟨id, hid, ⟨hc', hfollows.trans hf⟩, hs'⟩

end SourceUnit

/-- The signature that takes a box. -/
def takesBox : FunctionHead where
  name := "g"
  isPublic := false
  typeParams := []
  params :=
    [⟨"b", .applied (.named "Box" ⟨54, 57⟩) [.named "int" ⟨58, 61⟩] ⟨54, 62⟩, ⟨51, 62⟩⟩]
  returnType := some (.named "int" ⟨65, 68⟩)

/-- The unit

    data Box[T] = B(x: T)
    fn f() { data Bag = C }
    fn g(b: Box[int]): int { 1 }

with another name for `Bag`. -/
def boxes (inner : String) : SourceUnit where
  package := none
  imports := []
  items :=
    [.data ⟨"Box", false, ["T"], [⟨"B", false, [⟨"x", false, .named "T" ⟨19, 20⟩, ⟨16, 20⟩⟩], ⟨14, 21⟩⟩]⟩
        ⟨0, 21⟩,
     .function ⟨"f", false, [], [], none⟩ [.data ⟨inner, false, [], [⟨"C", false, [], ⟨42, 43⟩⟩]⟩ ⟨31, 43⟩]
        ⟨22, 45⟩,
     .function takesBox [.literal (.int 1) ⟨71, 72⟩] ⟨46, 74⟩]

theorem eq_of_nests_boxes {inner : String} {decl : DataDecl} (h : (boxes inner).Nests decl) :
    decl = ⟨inner, false, [], [⟨"C", false, [], ⟨42, 43⟩⟩]⟩ := by
  obtain ⟨n, hn, span, hmem⟩ := h
  simp only [boxes, List.mem_cons, List.not_mem_nil, or_false] at hn
  rcases hn with rfl | rfl | rfl
  · simp [Node.nodes] at hmem
  · simp [Node.nodes, Node.allNodes] at hmem
    exact hmem.1
  · simp [Node.nodes, Node.allNodes] at hmem

/-- A type inside of `f` that has a name of its own does not matter to `g`. -/
theorem bag_keeps_signature :
    ((Check.signature false takesBox).run
          ((boxes "Bag").atTurn .withPrelude ⟨"user", "default"⟩ 2)).1 =
        ((Check.signature true takesBox).run
          ((boxes "Bag").registering .withPrelude ⟨"user", "default"⟩ 2)).1 ∧
      ((boxes "Bag").check .withPrelude ⟨"user", "default"⟩).2.ns.symbol? ⟨"user", "default"⟩ "g" =
        some ⟨"g", .function (.mk [.variant ⟨⟨"user", "default"⟩, "Box", ["T"], none⟩ [.int]] .int),
          false, false⟩ := by
  have hnests (decl : DataDecl) (h : (boxes "Bag").Nests decl) :
      ¬ (boxes "Bag").Mentions takesBox decl.name := by
    rw [eq_of_nests_boxes h]
    rintro (h | ⟨_, h, _⟩)
    · revert h
      decide
    · cases h
  have honce : (boxes "Bag").DeclaresOnce 2 "g" := by
    refine ⟨?_, ?_, ?_⟩
    · simp [boxes, Node.FitsIn, Node.AllFit]
    · intro j n hj hg
      match j with
      | 0 => cases hj; revert hg; decide
      | 1 => cases hj; revert hg; decide
      | 2 => rfl
    · intro decl h
      rw [eq_of_nests_boxes h]
      decide
  obtain ⟨hsame, hsymbol⟩ := (boxes "Bag").signature_registered_kept .withPrelude
    ⟨"user", "default"⟩ (i := 2) rfl hnests
  exact ⟨hsame, (hsymbol honce (by cbv)).trans (by cbv)⟩

/-- A type inside of `f` that takes the name of a type in the signature of `g` changes the signature,
and nothing is reported: in the end `g` has two. -/
theorem inner_data_changes_signature :
    (¬ ∀ (u : SourceUnit) (ns : Namespace) (default : PackagePath),
      (u.check ns default).2.diagnostics = [] →
      ∀ i head body span, u.items[i]? = some (.function head body span) →
        ((Check.signature false head).run (u.atTurn ns default i)).1 =
          ((Check.signature true head).run (u.registering ns default i)).1) ∧
      ((boxes "Box").check .withPrelude ⟨"user", "default"⟩).2.ns.symbol? ⟨"user", "default"⟩ "g" =
        some ⟨"g", .overloaded
          [.mk [.variant ⟨⟨"user", "default"⟩, "Box", ["T"], none⟩ [.int]] .int, .mk [.any] .int],
          false, false⟩ := by
  constructor
  · intro h
    have heq := h (boxes "Box") .withPrelude ⟨"user", "default"⟩ (by cbv) 2 takesBox _ _ rfl
    have hturn : ((Check.signature false takesBox).run
        ((boxes "Box").atTurn .withPrelude ⟨"user", "default"⟩ 2)).1 = ([⟨"b", .any⟩], .int) := by cbv
    have hfirst : ((Check.signature true takesBox).run
        ((boxes "Box").registering .withPrelude ⟨"user", "default"⟩ 2)).1 =
          ([⟨"b", .variant ⟨⟨"user", "default"⟩, "Box", ["T"], none⟩ [.int]⟩], .int) := by cbv
    rw [hturn, hfirst] at heq
    cases heq
  · cbv

end Tern
