import Tern.Proofs.Code
import Tern.Proofs.Commute
import Tern.Proofs.Founded
import Tern.Proofs.Lower
import Tern.Proofs.Ty.Proper
import Tern.Proofs.Unifier.Settled

/-!
Sets of signatures over a whole session. Equality is an equivalence on the types whose sets have no two
members with the same parameters, nothing that is done with types leads out of them, and so all types
in the packages, in the programs and in their code are of this kind.
-/

set_option autoImplicit false

namespace Tern

/-! Code has its types from the program -/

/-- The types that are kept in the code itself, apart from its parts. -/
def Code.types : Code → List Ty
  | .defineFunction _ params _ _ => params
  | _ => []

/-- All types in the code obey the rule. -/
inductive Code.Obeys (rule : TypeRule) : Code → Prop
  | intro {code : Code} (own : ∀ t ∈ code.types, t.Obeys rule)
      (parts : ∀ k ∈ code.children, Obeys rule k) : Obeys rule code

theorem mem_of_optionMapM {ε α β : Type} {f : α → Except ε β} {a? : Option α} {b? : Option β}
    (h : a?.mapM f = .ok b?) {b : β} (hb : b ∈ b?.toList) : ∃ a, f a = .ok b := by
  cases a? with
  | none =>
    cases h
    cases hb
  | some a =>
    rw [Option.mapM_some] at h
    obtain ⟨b', hb', h⟩ := bind_eq_ok.mp h
    cases h
    obtain rfl : b = b' := by simpa using hb
    exact ⟨a, hb'⟩

namespace Expr

variable {p : Program} {part : Nat → Except LowerFault Code} {e : Expr} {code : Code}

/-- The parts of the code come from parts of the expression or are text. -/
theorem children_of_lower (h : e.lower p part = .ok code) :
    ∀ k ∈ code.children, (∃ i, part i = .ok k) ∨ ∃ v span, k = .value v span := by
  cases e with
  | literal v s | defineData d s =>
    cases h
    simp [Code.children]
  | error s => cases h
  | read a =>
    obtain ⟨st, _, h⟩ := bind_eq_ok.mp h
    cases h
    simp [Code.children]
  | interpolation ps s =>
    obtain ⟨cs, hcs, h⟩ := bind_eq_ok.mp h
    cases h
    intro k hk
    obtain ⟨q, _, hq⟩ := exists_of_mem_mapM hcs hk
    cases q with
    | text t =>
      cases hq
      exact Or.inr ⟨_, _, rfl⟩
    | expr i => exact Or.inl ⟨i, hq⟩
  | block scope ids s | array ids s =>
    obtain ⟨cs, hcs, h⟩ := bind_eq_ok.mp h
    cases h
    intro k hk
    obtain ⟨i, _, hi⟩ := exists_of_mem_mapM hcs hk
    exact Or.inl ⟨i, hi⟩
  | assign a v s =>
    obtain ⟨st, _, h⟩ := bind_eq_ok.mp h
    obtain ⟨k, hk, h⟩ := bind_eq_ok.mp h
    cases h
    simpa [Code.children] using Or.inl ⟨v, hk⟩
  | call callee args s =>
    obtain ⟨k, hk, h⟩ := bind_eq_ok.mp h
    obtain ⟨cs, hcs, h⟩ := bind_eq_ok.mp h
    cases h
    refine List.forall_mem_cons.mpr ⟨Or.inl ⟨callee, hk⟩, ?_⟩
    intro l hl
    obtain ⟨i, _, hi⟩ := exists_of_mem_mapM hcs hl
    exact Or.inl ⟨i, hi⟩
  | branch c t e s =>
    obtain ⟨k, hk, h⟩ := bind_eq_ok.mp h
    obtain ⟨l, hl, h⟩ := bind_eq_ok.mp h
    obtain ⟨m?, hm, h⟩ := bind_eq_ok.mp h
    cases h
    refine List.forall_mem_cons.mpr ⟨Or.inl ⟨c, hk⟩, List.forall_mem_cons.mpr ⟨Or.inl ⟨t, hl⟩, ?_⟩⟩
    exact fun m hmem => Or.inl (mem_of_optionMapM hm hmem)
  | ret v s =>
    obtain ⟨k?, hk, h⟩ := bind_eq_ok.mp h
    cases h
    exact fun k hmem => Or.inl (mem_of_optionMapM hk hmem)
  | assignIndex r i v s =>
    obtain ⟨k, hk, h⟩ := bind_eq_ok.mp h
    obtain ⟨l, hl, h⟩ := bind_eq_ok.mp h
    obtain ⟨m, hm, h⟩ := bind_eq_ok.mp h
    cases h
    simpa [Code.children] using ⟨Or.inl ⟨r, hk⟩, Or.inl ⟨i, hl⟩, Or.inl ⟨v, hm⟩⟩
  | index l r s | binary op l r s | loop l r s =>
    obtain ⟨k, hk, h⟩ := bind_eq_ok.mp h
    obtain ⟨k', hk', h⟩ := bind_eq_ok.mp h
    cases h
    simpa [Code.children] using ⟨Or.inl ⟨l, hk⟩, Or.inl ⟨r, hk'⟩⟩
  | defineFunction item v s | defineVariable item v s | defineLocal scope x m v s
  | function scope ps t v s | field v x s | unary op v s | test v x s =>
    obtain ⟨k, hk, h⟩ := bind_eq_ok.mp h
    cases h
    simpa [Code.children] using Or.inl ⟨v, hk⟩

/-- The only types in the code are those of the parameters of a function of the program. -/
theorem types_of_lower (h : e.lower p part = .ok code) :
    ∀ t ∈ code.types, ∃ i, t ∈ (p.type i).parameters := by
  have hnone {k : Code} (hk : k.types = []) : ∀ t ∈ k.types, ∃ i, t ∈ (p.type i).parameters := by
    simp [hk]
  cases e with
  | literal v s | defineData d s =>
    cases h
    exact hnone rfl
  | error s => cases h
  | defineFunction item v s =>
    obtain ⟨k, _, h⟩ := bind_eq_ok.mp h
    cases h
    exact fun t ht => ⟨v, ht⟩
  | read a | interpolation ps s | block scope ids s | array ids s | ret v s
  | defineVariable item v s | defineLocal scope x m v s | function scope ps t v s | field v x s
  | unary op v s | test v x s =>
    obtain ⟨_, _, h⟩ := bind_eq_ok.mp h
    cases h
    exact hnone rfl
  | assign a v s | call callee args s | index l r s | binary op l r s | loop l r s =>
    obtain ⟨_, _, h⟩ := bind_eq_ok.mp h
    obtain ⟨_, _, h⟩ := bind_eq_ok.mp h
    cases h
    exact hnone rfl
  | branch c t e s | assignIndex r i v s =>
    obtain ⟨_, _, h⟩ := bind_eq_ok.mp h
    obtain ⟨_, _, h⟩ := bind_eq_ok.mp h
    obtain ⟨_, _, h⟩ := bind_eq_ok.mp h
    cases h
    exact hnone rfl

end Expr

theorem Ty.Obeys.parameters {rule : TypeRule} {t : Ty} (h : t.Obeys rule) :
    ∀ u ∈ t.parameters, u.Obeys rule := by
  cases t with
  | function s => exact (Signature.obeys_iff.mp (Ty.obeys_function.mp h)).1
  | _ => simp [Ty.parameters]

namespace Program.Obeys

variable {rule : TypeRule} {p : Program}

theorem type (h : p.Obeys rule) (i : Nat) : (p.type i).Obeys rule := by
  rw [Program.type]
  cases hx : p.exprs[i]? with
  | none => exact Ty.obeys_primitive _
  | some x => exact h.types x (Array.mem_of_getElem? hx)

theorem lowerWithin (h : p.Obeys rule) (n : Nat) {id : Nat} {code : Code}
    (hcode : p.lowerWithin n id = .ok code) : code.Obeys rule := by
  induction n generalizing id code with
  | zero => cases hcode
  | succ n ih =>
    rw [Program.lowerWithin] at hcode
    cases he : p.expr? id with
    | none =>
      rw [he] at hcode
      cases hcode
    | some e =>
      rw [he] at hcode
      constructor
      · intro t ht
        obtain ⟨i, hi⟩ := Expr.types_of_lower hcode t ht
        exact (h.type i).parameters t hi
      · intro k hk
        rcases Expr.children_of_lower hcode k hk with ⟨i, hi⟩ | ⟨v, span, rfl⟩
        · exact ih hi
        · exact .intro (by simp [Code.types]) (by simp [Code.children])

theorem lower (h : p.Obeys rule) {lowered : LoweredProgram} (hl : p.lower = .ok lowered) :
    ∀ code ∈ lowered.items, code.Obeys rule := by
  obtain ⟨codes, hcodes, hl⟩ := bind_eq_ok.mp hl
  cases hl
  intro code hcode
  obtain ⟨id, _, hid⟩ := exists_of_mem_mapM hcodes hcode
  exact h.lowerWithin (id + 1) hid

end Program.Obeys

/-! Sessions -/

namespace Namespace

/-- Every package is found at its path. -/
theorem Coherent.package?_of_mem {ns : Namespace} (h : ns.Coherent) {p : Package}
    (hp : p ∈ ns.packages) : ns.package? p.path = some p := by
  obtain ⟨m, hm, hpm⟩ := List.mem_flatMap.mp hp
  have hmodule := h.modules m hm
  have hfound : ns.module? p.path.module = some m := by
    rw [hmodule.module p hpm]
    exact Table.find?_of_mem h.names hm
  rw [package?, hfound, Option.bind_some]
  exact Table.find?_of_mem hmodule.keys hpm

theorem Coherent.compile {ns : Namespace} (h : ns.Coherent) (options : Options) (source : String) :
    (compile options source ns).2.Coherent :=
  h.steps (grows_compile options source ns).steps

theorem Coherent.after {ns : Namespace} (h : ns.Coherent) (sources : List (Options × String)) :
    (ns.after sources).Coherent := by
  induction sources generalizing ns with
  | nil => exact h
  | cons s sources ih => exact ih (h.compile s.1 s.2)

end Namespace

theorem Options.coherent_freshNamespace (o : Options) : o.freshNamespace.Coherent := by
  rw [freshNamespace]
  split
  · exact Namespace.coherent_empty.loadPrelude
  · exact Namespace.coherent_empty

/-- The horizon that leaves out nothing and asks of every set that its members have different
parameters. -/
def Horizon.distinct : Horizon where
  sees _ := True
  set := Overload.Distinct
  empty := List.Pairwise.nil
  insert := fun _ _ hs hp hd => Overload.distinct_insert hs hp hd

theorem Horizon.proper_of_founds {ns : Namespace} {t : Ty} (h : Horizon.distinct.Founds ns t) :
    t.Proper := by
  refine Ty.Obeys.mono ?_ ?_ h
  · exact fun _ _ _ => trivial
  · exact fun _ hset => hset

/-- Equality is an equivalence on proper types, and a session never leaves them: what is made of proper
types is proper, and so is every type in the packages, in the programs and in their code, whatever is
compiled one after the other into a new namespace. -/
theorem sets_stay_distinct :
    ((∀ a : Ty, (a == a) = true) ∧
      (∀ a b : Ty, a.Proper → b.Proper → (a == b) = true → (b == a) = true) ∧
      ∀ a b c : Ty, a.Proper → b.Proper → c.Proper → (a == b) = true → (b == c) = true →
        (a == c) = true) ∧
    ((∀ ss, (∀ s ∈ ss, s.Proper) → (Ty.overloaded (Overload.ofList ss)).Proper) ∧
      (∀ s ss, s.Proper → (Ty.overloaded ss).Proper → (Ty.overloaded (Overload.insert s ss)).Proper) ∧
      (∀ ss more, (Ty.overloaded ss).Proper → (Ty.overloaded more).Proper →
        (Ty.overloaded (Overload.extend ss more)).Proper) ∧
      (∀ old new : Ty, old.Proper → new.Proper → (old.redeclare new).Proper) ∧
      (∀ (bindings : Bindings) (t : Ty), (∀ b ∈ bindings, b.2.Proper) → t.Proper →
        (t.substitute bindings).Proper) ∧
      (∀ names (t : Ty), t.Proper → (t.erase names).Proper) ∧
      ∀ (u : Unifier) (t : Ty), (∀ b ∈ u.bindings, b.2.Proper) → t.Proper → (u.apply t).Proper) ∧
    ∀ (options : Options) (sources : List (Options × String)),
      (∀ p ∈ (options.freshNamespace.after sources).packages, p.Obeys .distinct p.path) ∧
      ∀ (s : Options × String) (result : Compilation),
        (compile s.1 s.2 (options.freshNamespace.after sources)).1 = .ok result →
          result.program.Obeys .distinct ∧
          ∀ lowered, result.lowered = some lowered → ∀ code ∈ lowered.items, code.Obeys .distinct := by
  have hr : TypeRule.distinct.Stable := TypeRule.stable_distinct
  have hlookup {bindings : Bindings} (hb : ∀ b ∈ bindings, b.2.Proper) :
      ∀ x t, bindings.lookup x = some t → t.Proper :=
    fun x t hx => hb (x, t) (Unifier.mem_of_lookup hx)
  refine ⟨⟨fun _ => BEq.rfl, fun _ _ => Ty.regular_proper.symm, fun _ _ _ => Ty.regular_proper.trans⟩,
    ⟨fun _ => hr.obeys_ofList, fun _ _ => hr.obeys_insert, ?_, fun _ _ => hr.redeclare, ?_,
      fun names _ => hr.erase names, ?_⟩, ?_⟩
  · exact fun ss more hs hm => hr.obeys_extend (Ty.obeys_overloaded.mp hm).2 hs
  · exact fun bindings t hb ht => hr.substitute (hlookup hb) ht
  · exact fun u t hu ht => Unifier.Obeys.apply hr (hlookup hu) ht
  · intro options sources
    have hall : ∀ path, Horizon.distinct.sees path := fun _ => trivial
    have hns := options.obeys_freshNamespace (Horizon.distinct.stable_rule options.freshNamespace)
      Horizon.distinct.sees
    have hafter := (Horizon.obeys_after hall hns sources).1
    refine ⟨?_, ?_⟩
    · intro p hp
      have hfound := (options.coherent_freshNamespace.after sources).package?_of_mem hp
      exact (hafter.mono fun _ => Horizon.proper_of_founds) p.path p trivial hfound
    · intro s result hresult
      have hprogram : result.program.Obeys .distinct :=
        ((Horizon.obeys_compile hall hafter s.1 s.2).2.2 result hresult).mono
          fun _ => Horizon.proper_of_founds
      exact ⟨hprogram, fun lowered hl => hprogram.lower (lower_of_compile hresult hl)⟩

/-- A set that repeats its parameters if the first signature also takes a string. -/
def sizes (t : Ty) : Ty := .overloaded [.mk [t] .int, .mk [.string] .int]

def sizeSources : List (Options × String) :=
  ["fn size(x: int): int \x7b x \x7d", "fn size(x: string): int \x7b 0 \x7d"].map (.default, ·)

/-- Substitution makes two signatures one where they come to take the same. -/
theorem sets_stay_distinct_sizes :
    (Ty.overloaded [.mk [.string] .int, .mk [.int] .int] == sizes .int) = true ∧
      ¬ (sizes .string).Proper ∧
      (sizes (.param "T")).substitute [("T", .string)] = .overloaded [.mk [.string] .int] ∧
      ((sizes (.param "T")).substitute [("T", .string)]).Proper ∧
      ∃ result lowered,
        (compile .default "val f = size" (Options.default.freshNamespace.after sizeSources)).1 =
          .ok result ∧
        result.lowered = some lowered ∧ (result.program.type 0).Proper ∧
        result.program.type 0 = sizes .int ∧ ∀ code ∈ lowered.items, code.Obeys .distinct := by
  obtain ⟨⟨_, hsymm, _⟩, ⟨_, _, _, _, hsubst, _, _⟩, hsession⟩ := sets_stay_distinct
  have hproper : (sizes .int).Proper ∧ (Ty.overloaded [.mk [.string] .int, .mk [.int] .int]).Proper ∧
      (sizes (.param "T")).Proper := by
    simp [sizes, Ty.Proper, Ty.obeys_overloaded, Signature.obeys_iff, Signature.params, Signature.ret,
      TypeRule.distinct, Overload.Distinct]
    decide
  obtain ⟨hsizes, hturned, hopen⟩ := hproper
  have hcall : ((compile .default "val f = size"
      (Options.default.freshNamespace.after sizeSources)).1.toOption.map
        fun r => (r.program.type 0, r.lowered.isSome)) = some (sizes .int, true) := by cbv
  cases hr : (compile .default "val f = size" (Options.default.freshNamespace.after sizeSources)).1 with
  | error fault =>
    rw [hr] at hcall
    cases hcall
  | ok result =>
    rw [hr] at hcall
    have hboth := Option.some.inj hcall
    obtain ⟨lowered, hl⟩ := Option.isSome_iff_exists.mp (congrArg Prod.snd hboth)
    obtain ⟨hprogram, hcode⟩ := (hsession .default sizeSources).2 (.default, "val f = size") result hr
    refine ⟨hsymm _ _ hsizes hturned (by decide), ?_, by cbv, ?_, result, lowered, rfl, hl,
      hprogram.type 0, congrArg Prod.fst hboth, hcode lowered hl⟩
    · simp [sizes, Ty.Proper, Ty.obeys_overloaded, TypeRule.distinct, Overload.Distinct]
    · exact hsubst _ _ (by simp [Ty.Proper]) hopen

end Tern
