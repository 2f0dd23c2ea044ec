import Tern.Proofs.Check.Arena
import Tern.Proofs.Check.Outcome

/-!
The fields that a unit reads. A field is found in the definition of its receiver's type, and the
definitions of other modules do not change while a unit is checked. Whether the field is public is not
asked, so a unit that names a private field of another module can read it; a unit that names none reads
public fields only.
-/

set_option autoImplicit false

namespace Tern

/-- The cases of which a value may be: the selected one, or else all. -/
def Definition.casesOf (d : Definition) : Option String → List Case
  | some name => (d.case? name).toList
  | none => d.cases

theorem Definition.mem_of_mem_casesOf {d : Definition} {case : Option String} {k : Case}
    (h : k ∈ d.casesOf case) : k ∈ d.cases := by
  cases case with
  | none => exact h
  | some name => exact List.mem_of_find?_eq_some (Option.mem_toList.mp h)

/-- A field that has a type is in every case of which the value may be. -/
theorem Definition.field_of_declaredFieldType? {d : Definition} {case : Option String} {x : String}
    (h : (d.declaredFieldType? case x).isSome) :
    d.casesOf case ≠ [] ∧ ∀ k ∈ d.casesOf case, (k.field? x).isSome := by
  cases case with
  | some name =>
    simp only [declaredFieldType?] at h
    cases hk : d.case? name with
    | none => simp [hk] at h
    | some k =>
      simp only [hk, Option.bind_some, Option.isSome_map] at h
      simpa [casesOf, hk] using h
  | none =>
    simp only [declaredFieldType?] at h
    cases hcases : d.cases with
    | nil => simp [hcases] at h
    | cons first others =>
      simp only [hcases] at h
      cases hfirst : first.field? x with
      | none => simp [hfirst] at h
      | some f =>
        simp only [hfirst] at h
        split at h
        · rename_i hall
          simp only [casesOf, hcases]
          refine ⟨by simp, List.forall_mem_cons.mpr ⟨by simp [hfirst], ?_⟩⟩
          intro k hk
          obtain ⟨g, hg, _⟩ := (Option.any_eq_true _ _).mp (List.all_eq_true.mp hall k hk)
          exact Option.isSome_of_eq_some hg
        · simp at h

namespace Context

variable {permit : Permit} {c : Context}

theorem type_alloc (e : Expr) (t : Ty) {i : Nat} (h : i < c.program.exprs.size) :
    (c.alloc e t).program.type i = c.program.type i := by
  rw [Program.type, exprs_alloc e t (Array.getElem?_eq_getElem h), Program.type,
    Array.getElem?_eq_getElem h]

/-- The field has a permitted name, and a receiver of another package's type has it. -/
def Offers (permit : Permit) (c : Context) (r : Nat) (x : String) : Prop :=
  r < c.program.exprs.size ∧ permit.selects x ∧
    ∀ head args, c.program.type r = .variant head args → head.path ≠ c.path →
      (c.fieldType? head args x).isSome

/-- Every field that is read is offered. -/
def OffersFields (permit : Permit) (c : Context) : Prop :=
  ∀ i r x span, c.program.expr? i = some (.field r x span) → c.Offers permit r x

theorem kept_offersFields : Kept permit (OffersFields permit) where
  later ds h hns := by
    intro i r x span hi
    obtain ⟨hr, hs, hfield⟩ := h i r x span hi
    refine ⟨hr, hs, fun head args ht hne => ?_⟩
    have hf := hfield head args ht hne
    rwa [fieldType?, Namespace.definitionOf?, ← hns.definition?_eq hne] at hf
  alloc {c e} t h ha := by
    intro i r x span hi
    have hoffers : c.Offers permit r x := by
      rcases expr?_alloc hi with ⟨_, rfl⟩ | hi
      · obtain ⟨hs, hmember⟩ := ha.warrant
        refine ⟨ha.parts r List.mem_cons_self, hs, fun head args ht _ => ?_⟩
        rwa [ht] at hmember
      · exact h i r x span hi
    obtain ⟨hlt, hs, hfield⟩ := hoffers
    refine ⟨Nat.lt_of_lt_of_le hlt (grows_alloc c e t).size_le, hs, ?_⟩
    rw [type_alloc e t hlt]
    exact hfield
  declareLocal _ h _ := h
  inside _ h _ := h
  leave _ _ _ _ h := h
  generics _ h := h

end Context

namespace SourceUnit

/-- The name stands after a point somewhere in the unit. -/
def Selects (u : SourceUnit) (x : String) : Prop :=
  ∃ n ∈ u.items, ∃ receiver memberSpan span, Node.member receiver x memberSpan span ∈ n.nodes

theorem offersFields_check (u : SourceUnit) (ns : Namespace) (default : PackagePath) :
    (u.check ns default).2.OffersFields { Permit.all with selects := u.Selects } := by
  refine (u.check_invariant_within (fun _ => True) u.Selects false ?_ (by simp) ?_ ?_).2
  · intro n hn m hm
    unfold Permit.Covers
    split
    · exact ⟨trivial, fun _ _ => trivial⟩
    · trivial
    · exact ⟨n, hn, _, _, _, hm⟩
    · trivial
  · intro c hc _ i r x span hi
    simp [hc.program, Program.init, Program.expr?] at hi
  · intro c id c' _ hin hc hb i r x span hi
    exact hb.keeps Context.kept_offersFields hin hc i r x span hi

/-- Where no type of another module has a private field under a name that the unit selects, every
field that the unit reads of a value of such a type is public: in the selected case, or in every case
if none is selected. -/
theorem foreign_field_public (u : SourceUnit) (ns : Namespace) (default : PackagePath)
    (hpublic : ∀ path name d, path.module ≠ (u.path default).module →
      ns.definition? path name = some d → ∀ k ∈ d.cases, ∀ x f, u.Selects x →
        k.field? x = some f → f.isPublic)
    {i r : Nat} {x : String} {span : Span} {head : VariantHead} {args : List Ty}
    (hi : (u.check ns default).2.program.expr? i = some (.field r x span))
    (hr : (u.check ns default).2.program.type r = .variant head args)
    (hforeign : head.path.module ≠ (u.path default).module) :
    ∃ d, (u.check ns default).2.ns.definition? head.path head.name = some d ∧
      d.casesOf head.case ≠ [] ∧
        ∀ k ∈ d.casesOf head.case, ∃ f, k.field? x = some f ∧ f.isPublic := by
  have hne : head.path ≠ u.path default := fun h => hforeign (by rw [h])
  obtain ⟨_, hselects, hfield⟩ := u.offersFields_check ns default i r x span hi
  have hsome := hfield head args hr ((u.prepares_check ns default).2.path ▸ hne)
  obtain ⟨t, ht⟩ := Option.isSome_iff_exists.mp hsome
  obtain ⟨d, hd, hdt⟩ := Option.bind_eq_some_iff.mp ht
  have hdeclared : (d.declaredFieldType? head.case x).isSome := by
    rw [Definition.fieldType?] at hdt
    obtain ⟨t', ht', _⟩ := Option.map_eq_some_iff.mp hdt
    exact Option.isSome_of_eq_some ht'
  obtain ⟨hcases, hall⟩ := Definition.field_of_declaredFieldType? hdeclared
  refine ⟨d, hd, hcases, fun k hk => ?_⟩
  obtain ⟨f, hf⟩ := Option.isSome_iff_exists.mp (hall k hk)
  -- the definition is one of the namespace as it was before the unit
  have hbefore : ns.definition? head.path head.name = some d :=
    ((u.grows_check ns default).definition?_eq hne head.name).symm.trans hd
  exact ⟨f, hf, hpublic _ _ d hforeign hbefore k (Definition.mem_of_mem_casesOf hk) x f hselects hf⟩

end SourceUnit

/-! A library with a private field -/

/-- The definition of `data Box = pub B(x: int, pub y: int)` in `lib/math`. -/
def boxDefinition : Definition where
  path := ⟨"lib", "math"⟩
  name := "Box"
  typeParams := []
  isPublic := false
  cases := [⟨"B", [⟨"x", .int, false⟩, ⟨"y", .int, true⟩], true⟩]

/-- The package `lib/math` with the type `Box` and a public function `make` that gives one. -/
def boxLibrary : Namespace :=
  (Namespace.withPrelude.define ⟨"lib", "math"⟩ boxDefinition).addSymbol ⟨"lib", "math"⟩
    ⟨"make", .function (.mk [] boxDefinition.type), true, false⟩

/-- The unit that imports `lib/math` and has the item

    val a = math.make().x

with the given name instead of `x`. -/
def unboxing (x : String) : SourceUnit where
  package := none
  imports := [⟨⟨"lib", "math"⟩, none, [], ⟨0, 15⟩⟩]
  items :=
    [.define ⟨"a", false, false, none⟩
      (.member (.call (.member (.name "math" ⟨24, 28⟩) "make" ⟨29, 33⟩ ⟨24, 33⟩) [] ⟨24, 35⟩) x
        ⟨36, 37⟩ ⟨24, 37⟩) ⟨16, 37⟩]

theorem fieldAccess_unboxing (x : String) (h : x = "x" ∨ x = "y") :
    ((unboxing x).check boxLibrary ⟨"user", "default"⟩).2.diagnostics = [] ∧
      ((unboxing x).check boxLibrary ⟨"user", "default"⟩).2.program.expr? 2 =
        some (.field 1 x ⟨24, 37⟩) ∧
      ((unboxing x).check boxLibrary ⟨"user", "default"⟩).2.program.type 1 = boxDefinition.type := by
  rcases h with rfl | rfl
  · exact ⟨by cbv, by cbv, by cbv⟩
  · exact ⟨by cbv, by cbv, by cbv⟩

theorem selects_unboxing {x y : String} (h : (unboxing x).Selects y) : y = x ∨ y = "make" := by
  obtain ⟨n, hn, receiver, memberSpan, span, hm⟩ := h
  obtain rfl := List.mem_singleton.mp hn
  simp only [Node.nodes, Node.allNodes, List.mem_cons, List.append_nil, Node.member.injEq,
    reduceCtorEq, List.not_mem_nil, or_false, false_or] at hm
  rcases hm with ⟨_, hy, _⟩ | ⟨_, hy, _⟩
  · exact Or.inl hy
  · exact Or.inr hy

theorem definition?_boxLibrary {path : PackagePath} {name : String} {d : Definition}
    (h : boxLibrary.definition? path name = some d) : d = boxDefinition := by
  rw [boxLibrary, Namespace.definition?_addSymbol, Namespace.definition?_define] at h
  split at h
  · exact (Option.some.inj h).symm
  · rw [Namespace.definition?_withPrelude] at h
    cases h

/-- The public field of the box is read, and the private one is left alone. -/
theorem unboxing_reads_public :
    ((unboxing "y").check boxLibrary ⟨"user", "default"⟩).2.program.expr? 2 =
        some (.field 1 "y" ⟨24, 37⟩) ∧
      ∃ d, ((unboxing "y").check boxLibrary ⟨"user", "default"⟩).2.ns.definition? ⟨"lib", "math"⟩
          "Box" = some d ∧
        d.casesOf none ≠ [] ∧ ∀ k ∈ d.casesOf none, ∃ f, k.field? "y" = some f ∧ f.isPublic := by
  obtain ⟨_, hfield, htype⟩ := fieldAccess_unboxing "y" (Or.inr rfl)
  refine ⟨hfield, (unboxing "y").foreign_field_public boxLibrary ⟨"user", "default"⟩ ?_ hfield htype
    (by decide)⟩
  intro path name d _ hd k hk x f hx hf
  obtain rfl := definition?_boxLibrary hd
  obtain rfl := List.mem_singleton.mp hk
  rcases selects_unboxing hx with rfl | rfl
  · cases hf
    rfl
  · cases hf

/-- The private field of the box can be read as well, without any report. -/
theorem private_field_readable :
    ¬ ∀ (u : SourceUnit) (ns : Namespace) (default : PackagePath),
      (u.check ns default).2.diagnostics = [] → ∀ i r x span head args,
        (u.check ns default).2.program.expr? i = some (.field r x span) →
        (u.check ns default).2.program.type r = .variant head args →
        head.path.module ≠ (u.path default).module →
        ∃ d, (u.check ns default).2.ns.definition? head.path head.name = some d ∧
          ∀ k ∈ d.casesOf head.case, ∃ f, k.field? x = some f ∧ f.isPublic := by
  intro h
  obtain ⟨hreports, hfield, htype⟩ := fieldAccess_unboxing "x" (Or.inl rfl)
  obtain ⟨d, hd, hall⟩ := h (unboxing "x") boxLibrary ⟨"user", "default"⟩ hreports _ _ _ _ _ _ hfield
    htype (by decide)
  have hbefore : boxLibrary.definition? ⟨"lib", "math"⟩ "Box" = some d :=
    (((unboxing "x").grows_check boxLibrary ⟨"user", "default"⟩).definition?_eq (by decide)
      "Box").symm.trans hd
  obtain rfl := definition?_boxLibrary hbefore
  obtain ⟨f, hf, hpublic⟩ := hall _ List.mem_cons_self
  cases hf
  cases hpublic

end Tern
