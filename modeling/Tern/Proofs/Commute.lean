import Mathlib.Data.List.Nodup
import Tern.Proofs.Compile
import Tern.Proofs.Horizon.Unit

/-!
Sources for different packages that have nothing to do with each other can be compiled in any order.
From a source without imports and without qualified names only its own package and the built-in one
are seen, and these are not what the other source changes.
-/

set_option autoImplicit false

namespace Tern

/-! Namespaces with the same packages -/

namespace Table

variable {α : Type} {key : α → String} {eq : α → α → Bool} {xs ys : List α}

theorem find?_of_mem (h : (xs.map key).Nodup) {x : α} (hx : x ∈ xs) :
    find? key (key x) xs = some x := by
  induction xs with
  | nil => cases hx
  | cons y xs ih =>
    rw [List.map_cons, List.nodup_cons] at h
    rcases List.mem_cons.mp hx with rfl | hx
    · simp [find?]
    · have hne : key y ≠ key x := by
        intro heq
        exact h.1 (heq ▸ List.mem_map_of_mem hx)
      simpa [find?, hne] using ih h.2 hx

theorem find?_isSome_iff {name : String} : (find? key name xs).isSome ↔ name ∈ xs.map key := by
  simp [find?]

/-- Tables are the same if everything is found in both. -/
theorem same_of_find? (hx : (xs.map key).Nodup) (hy : (ys.map key).Nodup)
    (hkeys : ∀ name, (find? key name xs).isSome ↔ (find? key name ys).isSome)
    (heq : ∀ x y, find? key (key x) xs = some x → find? key (key x) ys = some y → eq x y = true) :
    same key eq xs ys = true := by
  have hperm : (xs.map key).Perm (ys.map key) := by
    rw [List.perm_ext_iff_of_nodup hx hy]
    intro name
    rw [← find?_isSome_iff, ← find?_isSome_iff]
    exact hkeys name
  have hlength : xs.length = ys.length := by simpa using hperm.length_eq
  rw [same, hlength, beq_self_eq_true, Bool.true_and, List.all_eq_true]
  intro x hmem
  have hfound := find?_of_mem hx hmem
  obtain ⟨y, hy⟩ := Option.isSome_iff_exists.mp ((hkeys (key x)).mp (by rw [hfound]; rfl))
  rw [hy, Option.any_some]
  exact heq x y hfound hy

theorem same_self (h : (xs.map key).Nodup) (heq : ∀ x, eq x x = true) : same key eq xs xs = true := by
  refine same_of_find? h h (fun _ => Iff.rfl) ?_
  intro x y hx hy
  obtain rfl : x = y := Option.some.inj (hx.symm.trans hy)
  exact heq x

end Table

theorem Symbol.beq_self (s : Symbol) : s.beq s = true := by simp [beq]

theorem Definition.beq_self (d : Definition) : d.beq d = true := by
  have hzip {α : Type} {f : α × α → Bool} (hf : ∀ a, f (a, a) = true) (as : List α) :
      (as.zip as).all f = true := by
    induction as with
    | nil => rfl
    | cons a as ih => simp [hf, ih]
  have hfields (fs : List Field) : beqFields fs fs = true := by
    rw [beqFields, beq_self_eq_true, Bool.true_and]
    exact hzip (by simp) fs
  have hcases (ks : List Case) : beqCases ks ks = true := by
    rw [beqCases, beq_self_eq_true, Bool.true_and]
    exact hzip (by simp [hfields]) ks
  simp [beq, hcases]

theorem Package.Coherent.same_self {p : Package} (h : p.Coherent) : p.same p = true := by
  rw [Package.same, Table.same_self h.symbols Symbol.beq_self,
    Table.same_self h.definitions Definition.beq_self]
  simp

namespace Namespace

variable {a b : Namespace}

/-- A module that is there has a package that can be found. -/
theorem Coherent.exists_package {name : String} (h : a.Coherent) {m : Module}
    (hm : a.module? name = some m) : ∃ package, (a.package? ⟨name, package⟩).isSome := by
  have hcoherent := h.modules m (List.mem_of_find?_eq_some hm)
  obtain ⟨p, hp⟩ := List.exists_mem_of_ne_nil _ hcoherent.nonempty
  refine ⟨Module.key p, ?_⟩
  rw [package?, hm, Option.bind_some, Module.package?, Table.find?_of_mem hcoherent.keys hp]
  rfl

theorem Coherent.same_of_package? (ha : a.Coherent) (hb : b.Coherent)
    (h : ∀ path, a.package? path = b.package? path) : a.same b = true := by
  have hmodule {a b : Namespace} (ha : a.Coherent) (h : ∀ path, a.package? path = b.package? path)
      (name : String) (hm : (a.module? name).isSome) : (b.module? name).isSome := by
    obtain ⟨m, hm⟩ := Option.isSome_iff_exists.mp hm
    obtain ⟨package, hp⟩ := ha.exists_package hm
    rw [h, package?] at hp
    exact Option.isSome_of_isSome_bind hp
  refine Table.same_of_find? ha.names hb.names ?_ ?_
  · exact fun name => ⟨hmodule ha h name, hmodule hb (fun path => (h path).symm) name⟩
  · intro m n hm hn
    have hfound (package : String) : m.package? package = n.package? package := by
      have hp := h ⟨m.name, package⟩
      rwa [package?, package?, module?, module?, hm, hn] at hp
    have hma := ha.modules m (List.mem_of_find?_eq_some hm)
    have hnb := hb.modules n (List.mem_of_find?_eq_some hn)
    have hname : n.name = m.name := by simpa using List.find?_some hn
    rw [Module.same, hname, beq_self_eq_true, Bool.true_and]
    refine Table.same_of_find? hma.keys hnb.keys ?_ ?_
    · intro package
      exact iff_of_eq (congrArg (fun p => Option.isSome p = true) (hfound package))
    · intro p q hp hq
      have hsome : some p = some q := hp.symm.trans ((hfound (Module.key p)).trans hq)
      obtain rfl := Option.some.inj hsome
      exact (hma.packages p (List.mem_of_find?_eq_some hp)).same_self

end Namespace

/-! Units that mention no other package -/

/-- A name with the path of its package. -/
def Node.isQualified : Node → Bool
  | .qualified _ _ _ _ => true
  | _ => false

/-- Nothing is imported, and no name is qualified. -/
def SourceUnit.isSelfContained (u : SourceUnit) : Bool :=
  u.imports.isEmpty && u.items.all fun n => n.nodes.all fun m => !m.isQualified

/-- The package that a source is compiled into. -/
def Options.target (o : Options) (source : String) : PackagePath :=
  (Parsed.ofSource source).unit.path o.defaultPath

/-- What is seen from a package if nothing is imported. -/
def Horizon.around (path : PackagePath) : Horizon where
  sees other := other = path ∨ other = Namespace.preludePath
  set _ := True
  empty := trivial
  insert := fun _ _ _ _ _ => trivial

theorem SourceUnit.admitsUnit_around {u : SourceUnit} (h : u.isSelfContained) (path : PackagePath) :
    (Horizon.around path).AdmitsUnit u := by
  rw [isSelfContained, Bool.and_eq_true, List.isEmpty_iff, List.all_eq_true] at h
  obtain ⟨himports, hitems⟩ := h
  refine ⟨by simp [himports], ?_⟩
  intro n hn m hm
  have hplain := List.all_eq_true.mp (hitems n hn) m hm
  cases m with
  | qualified path x nameSpan span => cases hplain
  | _ => trivial

section Compile

variable {o : Options} {source : String} {ns e : Namespace}

theorem grows_compile (o : Options) (source : String) (ns : Namespace) :
    ns.Grows (o.target source) (compile o source ns).2 := by
  rw [compile_eq]
  split
  · exact (Parsed.ofSource source).unit.grows_check ns o.defaultPath
  · exact .refl ns _

/-- Where the packages in sight are the same, a source gives the same and leaves them the same. -/
theorem compile_alike (hu : (Parsed.ofSource source).unit.isSelfContained)
    (hns : ns.Obeys (Horizon.around (o.target source)).sees ((Horizon.around (o.target source)).rule ns))
    (hs : (Horizon.around (o.target source)).Same ns e) :
    (compile o source e).1 = (compile o source ns).1 ∧
      (Horizon.around (o.target source)).Same (compile o source ns).2 (compile o source e).2 := by
  rw [compile_eq, compile_eq]
  split
  · obtain ⟨f, hcheck, _, hsame⟩ := SourceUnit.stays_check
      (SourceUnit.admitsUnit_around hu (o.target source)) o.defaultPath (Or.inl rfl) (Or.inr rfl) hns hs
    rw [hcheck]
    exact ⟨rfl, hsame⟩
  · exact ⟨rfl, hs⟩

/-- Into a namespace with the built-in functions only, or with another package besides. -/
theorem compile_beside (hu : (Parsed.ofSource source).unit.isSelfContained) {other : PackagePath}
    (hne : o.target source ≠ other) (hprelude : other ≠ Namespace.preludePath)
    (he : Namespace.withPrelude.Grows other e) :
    (compile o source e).1 = (compile o source .withPrelude).1 ∧
      (Horizon.around (o.target source)).Same (compile o source .withPrelude).2
        (compile o source e).2 := by
  have hr := (Horizon.around (o.target source)).stable_rule .withPrelude
  refine compile_alike hu (Namespace.obeys_empty.loadPrelude hr) ?_
  rintro path (rfl | rfl)
  · exact he.others _ hne
  · exact he.others _ (Ne.symm hprelude)

end Compile

/-- Sources for different packages, neither of them the built-in one, that import nothing and have no
qualified names give the same in either order, and the namespaces differ at most in the order of their
packages. -/
theorem independent_commute {o p : Options} {a b : String}
    (ha : (Parsed.ofSource a).unit.isSelfContained) (hb : (Parsed.ofSource b).unit.isSelfContained)
    (hne : o.target a ≠ p.target b) (hpa : o.target a ≠ Namespace.preludePath)
    (hpb : p.target b ≠ Namespace.preludePath) :
    (compile o a (compile p b .withPrelude).2).1 = (compile o a .withPrelude).1 ∧
      (compile p b (compile o a .withPrelude).2).1 = (compile p b .withPrelude).1 ∧
      (∀ path, (compile p b (compile o a .withPrelude).2).2.package? path =
        (compile o a (compile p b .withPrelude).2).2.package? path) ∧
      (compile p b (compile o a .withPrelude).2).2.same
        (compile o a (compile p b .withPrelude).2).2 = true := by
  have hga := grows_compile o a .withPrelude
  have hgb := grows_compile p b .withPrelude
  have hgab := grows_compile p b (compile o a .withPrelude).2
  have hgba := grows_compile o a (compile p b .withPrelude).2
  obtain ⟨hra, hsa⟩ := compile_beside ha hne hpb hgb
  obtain ⟨hrb, hsb⟩ := compile_beside hb (Ne.symm hne) hpa hga
  have hpackages (path : PackagePath) : (compile p b (compile o a .withPrelude).2).2.package? path =
      (compile o a (compile p b .withPrelude).2).2.package? path := by
    by_cases hpath : path = o.target a
    · subst hpath
      rw [hgab.others _ hne, hsa _ (Or.inl rfl)]
    · by_cases hpath' : path = p.target b
      · subst hpath'
        rw [hgba.others _ (Ne.symm hne), hsb _ (Or.inl rfl)]
      · rw [hgab.others _ hpath', hgba.others _ hpath, hga.others _ hpath, hgb.others _ hpath']
  have hprelude : Namespace.withPrelude.Coherent := Namespace.coherent_empty.loadPrelude
  have hcab := (hprelude.steps hga.steps).steps hgab.steps
  have hcba := (hprelude.steps hgb.steps).steps hgba.steps
  exact ⟨hra, hrb, hpackages, hcab.same_of_package? hcba hpackages⟩

def inPackage (package : String) : Options := { Options.default with defaultPath := ⟨"app", package⟩ }

/-- The name that the first source is missing is declared by the second one, in another package of the
same module. -/
theorem independent_commute_unseen :
    (inPackage "a").target "val x = y" = ⟨"app", "a"⟩ ∧
      (inPackage "b").target "val y = 1" = ⟨"app", "b"⟩ ∧
      ((compile (inPackage "b") "val y = 1" .withPrelude).2.symbol? ⟨"app", "b"⟩ "y").isSome ∧
      (compile (inPackage "a") "val x = y" (compile (inPackage "b") "val y = 1" .withPrelude).2).1 =
        (compile (inPackage "a") "val x = y" .withPrelude).1 ∧
      (compile (inPackage "b") "val y = 1" (compile (inPackage "a") "val x = y" .withPrelude).2).2.same
        (compile (inPackage "a") "val x = y"
          (compile (inPackage "b") "val y = 1" .withPrelude).2).2 = true := by
  have hta : (inPackage "a").target "val x = y" = ⟨"app", "a"⟩ := by cbv
  have htb : (inPackage "b").target "val y = 1" = ⟨"app", "b"⟩ := by cbv
  have hne : (inPackage "a").target "val x = y" ≠ (inPackage "b").target "val y = 1" := by
    rw [hta, htb]
    decide
  have hpa : (inPackage "a").target "val x = y" ≠ Namespace.preludePath := by
    rw [hta]
    decide
  have hpb : (inPackage "b").target "val y = 1" ≠ Namespace.preludePath := by
    rw [htb]
    decide
  obtain ⟨hra, _, _, hsame⟩ := independent_commute (o := inPackage "a") (p := inPackage "b")
    (a := "val x = y") (b := "val y = 1") (by cbv) (by cbv) hne hpa hpb
  exact ⟨hta, htb, by cbv, hra, hsame⟩

end Tern
