import Mathlib.Data.List.Nodup
import Tern.Snapshot
import Tern.Proofs.Check.Outcome

/-!
Namespaces in which every name is known once: modules, the packages of a module, and the symbols and
definitions of a package. Whatever is done with a namespace keeps it so, and such a namespace is
restored from its image as it was, with everything in its place.
-/

set_option autoImplicit false

namespace Tern

namespace Table

variable {α : Type} {key : α → String} {name : String} {change : Option α → α} {xs : List α}

/-- A change that keeps the name of the entry leaves the names as they are, but for a new one. -/
theorem map_put (h : ∀ x?, (∀ x ∈ x?, key x = name) → key (change x?) = name) (xs : List α) :
    (put key name change xs).map key =
      if name ∈ xs.map key then xs.map key else xs.map key ++ [name] := by
  induction xs with
  | nil => simp [put, h none]
  | cons x xs ih =>
    by_cases hx : key x = name
    · simp [put, hx, h (some x)]
    · rw [put, if_neg (by simpa using hx), List.map_cons, ih, List.map_cons]
      by_cases hmem : name ∈ xs.map key
      · rw [if_pos hmem, if_pos (List.mem_cons_of_mem _ hmem)]
      · rw [if_neg hmem, if_neg (List.not_mem_cons_of_ne_of_not_mem (Ne.symm hx) hmem),
          List.cons_append]

theorem nodup_put (h : ∀ x?, (∀ x ∈ x?, key x = name) → key (change x?) = name)
    (hxs : (xs.map key).Nodup) : ((put key name change xs).map key).Nodup := by
  rw [map_put h]
  split
  · exact hxs
  · rename_i hnew
    exact List.nodup_append_comm.mp (List.nodup_cons.mpr ⟨hnew, hxs⟩)

/-- What holds of all entries and of the changed one holds after the change. -/
theorem forall_mem_put {P : α → Prop} (hxs : ∀ x ∈ xs, P x) (hnew : P (change none))
    (hchange : ∀ x ∈ xs, key x = name → P x → P (change (some x))) :
    ∀ x ∈ put key name change xs, P x := by
  induction xs with
  | nil => simpa [put] using hnew
  | cons x xs ih =>
    rw [List.forall_mem_cons] at hxs hchange
    rw [put]
    split
    · rename_i hx
      exact List.forall_mem_cons.mpr ⟨hchange.1 (by simpa using hx) hxs.1, hxs.2⟩
    · exact List.forall_mem_cons.mpr ⟨hxs.1, ih hxs.2 hchange.2⟩

theorem put_of_not_mem (h : name ∉ xs.map key) : put key name change xs = xs ++ [change none] := by
  induction xs with
  | nil => rfl
  | cons x xs ih =>
    rw [List.map_cons, List.mem_cons, not_or] at h
    rw [put, if_neg (by simpa using Ne.symm h.1), ih h.2, List.cons_append]

theorem put_append_singleton {x : α} (h : name ∉ xs.map key) (hx : key x = name) :
    put key name change (xs ++ [x]) = xs ++ [change (some x)] := by
  induction xs with
  | nil => simp [put, hx]
  | cons y ys ih =>
    rw [List.map_cons, List.mem_cons, not_or] at h
    rw [List.cons_append, put, if_neg (by simpa using Ne.symm h.1), ih h.2, List.cons_append]

/-- Entries with names of their own are put one after the other. -/
theorem foldl_put_of_nodup {change : α → Option α → α} (hchange : ∀ x, change x none = x)
    (more : List α) (h : ((xs ++ more).map key).Nodup) :
    more.foldl (fun entries x => put key (key x) (change x) entries) xs = xs ++ more := by
  induction more generalizing xs with
  | nil => simp
  | cons x more ih =>
    rw [List.append_cons] at h ⊢
    have hnew : key x ∉ xs.map key := by
      rw [List.map_append, List.nodup_append] at h
      have hxs := h.1
      rw [List.map_append, List.nodup_append] at hxs
      intro hmem
      exact hxs.2.2 _ hmem _ (by simp) rfl
    rw [List.foldl_cons, put_of_not_mem hnew, hchange]
    exact ih h

end Table

/-- Every symbol and every definition is known once. -/
structure Package.Coherent (p : Package) : Prop where
  symbols : (p.symbols.map Symbol.name).Nodup
  definitions : (p.definitions.map Definition.name).Nodup

/-- Packages are known once and belong to the module. A module is created with its first package. -/
structure Module.Coherent (m : Module) : Prop where
  keys : (m.packages.map Module.key).Nodup
  nonempty : m.packages ≠ []
  module : ∀ p ∈ m.packages, p.path.module = m.name
  packages : ∀ p ∈ m.packages, p.Coherent

structure Namespace.Coherent (ns : Namespace) : Prop where
  names : (ns.modules.map Module.name).Nodup
  modules : ∀ m ∈ ns.modules, m.Coherent

/-! Every change keeps a namespace coherent. -/

namespace Package

variable {p : Package}

theorem coherent_new (path : PackagePath) : Package.Coherent { path } :=
  ⟨List.nodup_nil, List.nodup_nil⟩

theorem Coherent.addSymbol (h : p.Coherent) (s : Symbol) : (p.addSymbol s).Coherent := by
  refine ⟨Table.nodup_put ?_ h.symbols, h.definitions⟩
  intro old? _
  cases old? <;> rfl

theorem Coherent.define (h : p.Coherent) (d : Definition) : (p.define d).Coherent :=
  ⟨h.symbols, Table.nodup_put (fun _ _ => rfl) h.definitions⟩

theorem Coherent.addSymbols (h : p.Coherent) (symbols : List Symbol) :
    (symbols.foldl Package.addSymbol p).Coherent := by
  induction symbols generalizing p with
  | nil => exact h
  | cons s symbols ih => exact ih (h.addSymbol s)

theorem Coherent.defineAll (h : p.Coherent) (definitions : List Definition) :
    (definitions.foldl Package.define p).Coherent := by
  induction definitions generalizing p with
  | nil => exact h
  | cons d definitions ih => exact ih (h.define d)

theorem addSymbols_eq (p : Package) (symbols : List Symbol) :
    symbols.foldl Package.addSymbol p =
      { p with symbols := symbols.foldl (fun entries s => s.declare entries) p.symbols } := by
  induction symbols generalizing p with
  | nil => rfl
  | cons s symbols ih => exact ih (p.addSymbol s)

theorem defineAll_eq (p : Package) (definitions : List Definition) :
    definitions.foldl Package.define p =
      { p with definitions := definitions.foldl (fun entries d => d.define entries) p.definitions } := by
  induction definitions generalizing p with
  | nil => rfl
  | cons d definitions ih => exact ih (p.define d)

end Package

namespace Namespace

variable {ns : Namespace}

theorem coherent_empty : Namespace.empty.Coherent := ⟨List.nodup_nil, by simp [empty]⟩

theorem Coherent.modifyPackage (h : ns.Coherent) (path : PackagePath) {f : Package → Package}
    (hf : ∀ p, (f p).path = p.path) (hc : ∀ p, p.Coherent → (f p).Coherent) :
    (ns.modifyPackage path f).Coherent := by
  refine ⟨Table.nodup_put (fun _ _ => rfl) h.names, ?_⟩
  -- the module of the package, whether it was there or not
  have hmodule : ∀ packages : List Package, (packages.map Module.key).Nodup →
      (∀ p ∈ packages, p.path.module = path.module) → (∀ p ∈ packages, p.Coherent) →
      Module.Coherent ⟨path.module, Table.put Module.key path.package
        (fun p? => f (p?.getD { path })) packages⟩ := by
    intro packages hkeys hpath hcoherent
    refine ⟨Table.nodup_put (key_modifyPackage path hf) hkeys, ?_, ?_, ?_⟩
    · cases packages with
      | nil => simp [Table.put]
      | cons p packages =>
        rw [Table.put]
        split <;> simp
    · refine Table.forall_mem_put hpath ?_ ?_
      · simp [hf]
      · intro p hp _ hmodule
        simpa [hf] using hmodule
    · exact Table.forall_mem_put hcoherent (hc _ (Package.coherent_new path)) fun p _ _ hp => hc p hp
  refine Table.forall_mem_put h.modules ?_ ?_
  · exact hmodule [] List.nodup_nil (by simp) (by simp)
  · intro m _ hname hm
    exact hmodule m.packages hm.keys (fun p hp => (hm.module p hp).trans hname) hm.packages

theorem Coherent.step {path : PackagePath} {ns' : Namespace} (h : ns.Coherent)
    (hstep : Step path ns ns') : ns'.Coherent := by
  cases hstep with
  | ensurePackage => exact h.modifyPackage path (fun _ => rfl) (fun _ hp => hp)
  | addSymbol s => exact h.modifyPackage path (fun _ => rfl) (fun _ hp => hp.addSymbol s)
  | define d => exact h.modifyPackage path (fun _ => rfl) (fun _ hp => hp.define d)

theorem Coherent.steps {path : PackagePath} {ns' : Namespace} (h : ns.Coherent)
    (hsteps : Relation.ReflTransGen (Step path) ns ns') : ns'.Coherent := by
  induction hsteps with
  | refl => exact h
  | tail _ hstep ih => exact ih.step hstep

theorem Coherent.loadPrelude (h : ns.Coherent) : ns.loadPrelude.Coherent :=
  h.modifyPackage preludePath (fun _ => rfl) fun _ hp => hp.addSymbols builtIns

theorem Coherent.loadPackage (h : ns.Coherent) (module : String) (image : PackageImage) :
    (ns.loadPackage module image).Coherent := by
  refine h.modifyPackage _ ?_ fun _ hp => (hp.addSymbols image.symbols).defineAll image.definitions
  intro p
  rw [Package.defineAll_eq, Package.addSymbols_eq]

theorem Coherent.load (h : ns.Coherent) (s : Snapshot) : (ns.load s).Coherent := by
  have hmodule (m : ModuleImage) {ns : Namespace} (h : ns.Coherent) :
      (m.packages.foldl (Namespace.loadPackage m.name) ns).Coherent := by
    generalize m.packages = images
    induction images generalizing ns with
    | nil => exact h
    | cons image images ih => exact ih (h.loadPackage m.name image)
  rw [Namespace.load]
  generalize s.modules = modules
  induction modules generalizing ns with
  | nil => exact h
  | cons m modules ih => exact ih (hmodule m h)

end Namespace

/-! The image of a coherent namespace holds all of it. -/

def Package.image (p : Package) : PackageImage := ⟨p.path.package, p.symbols, p.definitions⟩

def Module.image (m : Module) : ModuleImage := ⟨m.name, m.packages.map Package.image⟩

/-- An empty package takes the declarations of a coherent one as they are. -/
theorem Package.Coherent.restore {p : Package} (h : p.Coherent) :
    p.definitions.foldl Package.define (p.symbols.foldl Package.addSymbol { path := p.path }) = p := by
  have hsymbols : p.symbols.foldl (fun entries s => s.declare entries) [] = p.symbols :=
    Table.foldl_put_of_nodup (fun _ => rfl) p.symbols h.symbols
  have hdefinitions : p.definitions.foldl (fun entries d => d.define entries) [] = p.definitions :=
    Table.foldl_put_of_nodup (fun _ => rfl) p.definitions h.definitions
  rw [defineAll_eq, addSymbols_eq, hsymbols, hdefinitions]

namespace Namespace

variable {modules : List Module} {packages : List Package} {p : Package}

theorem loadPackage_new (hp : p.Coherent) (h : p.path.module ∉ modules.map Module.name) :
    loadPackage p.path.module ⟨modules⟩ p.image = ⟨modules ++ [⟨p.path.module, [p]⟩]⟩ := by
  rw [loadPackage, modifyPackage, Table.put_of_not_mem h]
  exact congrArg (fun q => Namespace.mk (modules ++ [⟨p.path.module, [q]⟩])) hp.restore

theorem loadPackage_last (hp : p.Coherent) (h : p.path.module ∉ modules.map Module.name)
    (hnew : p.path.package ∉ packages.map Module.key) :
    loadPackage p.path.module ⟨modules ++ [⟨p.path.module, packages⟩]⟩ p.image =
      ⟨modules ++ [⟨p.path.module, packages ++ [p]⟩]⟩ := by
  rw [loadPackage, modifyPackage, Table.put_append_singleton h rfl]
  have hput : Table.put Module.key p.path.package (fun p? => p.definitions.foldl Package.define
      (p.symbols.foldl Package.addSymbol (p?.getD { path := p.path }))) packages = packages ++ [p] := by
    rw [Table.put_of_not_mem hnew, Option.getD_none, hp.restore]
  exact congrArg (fun ps => Namespace.mk (modules ++ [⟨p.path.module, ps⟩])) hput

theorem load_packages {name : String} (h : name ∉ modules.map Module.name) (more : List Package)
    (hkeys : ((packages ++ more).map Module.key).Nodup)
    (hmore : ∀ p ∈ more, p.path.module = name ∧ p.Coherent) :
    (more.map Package.image).foldl (loadPackage name) ⟨modules ++ [⟨name, packages⟩]⟩ =
      ⟨modules ++ [⟨name, packages ++ more⟩]⟩ := by
  induction more generalizing packages with
  | nil => simp
  | cons p more ih =>
    rw [List.forall_mem_cons] at hmore
    obtain ⟨⟨rfl, hp⟩, hmore⟩ := hmore
    have hnew : p.path.package ∉ packages.map Module.key := by
      rw [List.map_append, List.nodup_append] at hkeys
      exact fun hmem => hkeys.2.2 _ hmem _ List.mem_cons_self rfl
    rw [List.map_cons, List.foldl_cons, loadPackage_last hp h hnew]
    rw [List.append_cons packages p more] at hkeys ⊢
    exact ih hkeys hmore

/-- A module that is not there is loaded with all of its packages. -/
theorem load_module {m : Module} (hm : m.Coherent) (h : m.name ∉ modules.map Module.name) :
    m.image.packages.foldl (loadPackage m.name) ⟨modules⟩ = ⟨modules ++ [m]⟩ := by
  obtain ⟨name, packages⟩ := m
  cases packages with
  | nil => exact absurd rfl hm.nonempty
  | cons p packages =>
    have hpackages := List.forall_mem_cons.mp hm.packages
    obtain ⟨rfl, hmodule⟩ := List.forall_mem_cons.mp hm.module
    rw [Module.image, List.map_cons, List.foldl_cons, loadPackage_new hpackages.1 h]
    exact load_packages h packages hm.keys fun q hq => ⟨hmodule q hq, hpackages.2 q hq⟩

theorem load_modules (done more : List Module) (hnames : ((done ++ more).map Module.name).Nodup)
    (hmore : ∀ m ∈ more, m.Coherent) : load ⟨done⟩ ⟨more.map Module.image⟩ = ⟨done ++ more⟩ := by
  induction more generalizing done with
  | nil => simp [load]
  | cons m more ih =>
    rw [List.forall_mem_cons] at hmore
    have hnew : m.name ∉ done.map Module.name := by
      rw [List.map_append, List.nodup_append] at hnames
      exact fun hmem => hnames.2.2 _ hmem _ List.mem_cons_self rfl
    have hstep : load ⟨done⟩ ⟨(m :: more).map Module.image⟩ =
        load ⟨done ++ [m]⟩ ⟨more.map Module.image⟩ :=
      congrArg (fun ns => load ns ⟨more.map Module.image⟩) (load_module hmore.1 hnew)
    rw [List.append_cons done m more] at hnames ⊢
    rw [hstep]
    exact ih (done ++ [m]) hnames hmore.2

/-- A coherent namespace is what its image restores. -/
theorem Coherent.ofSnapshot_snapshot {ns : Namespace} (h : ns.Coherent) :
    ofSnapshot ns.snapshot = ns := load_modules [] ns.modules h.names h.modules

end Namespace

end Tern
