import Tern.Proofs.Check.Remarks

/-!
Types as they are written. What a written type stands for depends only on the names in it, and on the
cases of the types it selects from; steps that read written types give a value and reports that depend
on nothing else.
-/

set_option autoImplicit false

namespace Tern

namespace TypeRef

mutual
/-- The names that a written type mentions. -/
def names : TypeRef → List String
  | named name _ => [name]
  | function params ret _ => namesOf params ++ ret.names
  | applied base args _ => base.names ++ namesOf args
  | selected base _ _ => base.names
def namesOf : List TypeRef → List String
  | [] => []
  | r :: rs => r.names ++ namesOf rs
end

mutual
/-- A case is selected somewhere in the type. -/
def selects : TypeRef → Bool
  | named _ _ => false
  | function params ret _ => anySelects params || ret.selects
  | applied base args _ => base.selects || anySelects args
  | selected _ _ _ => true
def anySelects : List TypeRef → Bool
  | [] => false
  | r :: rs => r.selects || anySelects rs
end

end TypeRef

namespace TypeScope

def binding (s : TypeScope) (names : List String) : TypeScope :=
  { s with generics := s.generics ++ names }

/-- The type that is written, or `any`. -/
def typeOf (s : TypeScope) (r : TypeRef) : Ty :=
  match s.resolve r with
  | .ok t => t
  | .error _ => .any

/-- What does not resolve. -/
def faults (s : TypeScope) (r : TypeRef) : List Diagnostic :=
  match s.resolve r with
  | .ok _ => []
  | .error e => [Diagnostic.ofTypeRefError e]

/-- A variant type stems from a name. -/
theorem name_of_resolve {s : TypeScope} (r : TypeRef) {head : VariantHead} {args : List Ty}
    (h : s.resolve r = .ok (.variant head args)) :
    ∃ x ∈ r.names, ∃ k as case, s.lookup x = some (.variant k as) ∧ head = { k with case } := by
  cases r with
  | named name span =>
    rw [resolve] at h
    split at h
    · rename_i t ht
      cases h
      unfold name? at ht
      split at ht
      · cases ht
      · split at ht
        · rename_i u hu
          cases ht
          exact ⟨name, by simp [TypeRef.names], head, args, head.case, hu, rfl⟩
        · obtain ⟨p, _, hp⟩ := Option.map_eq_some_iff.mp ht
          cases hp
    · cases h
  | function params ret span =>
    rw [resolve] at h
    split at h
    · cases h
    · split at h <;> cases h
  | applied base as span =>
    rw [resolve] at h
    split at h
    · cases h
    · split at h
      · unfold applyArray at h
        split at h <;> cases h
      · split at h
        · cases h
        · rename_i b hb
          unfold applyBase at h
          split at h
          · split at h
            · cases h
              obtain ⟨x, hx, hfound⟩ := name_of_resolve base hb
              exact ⟨x, by simp [TypeRef.names, hx], hfound⟩
            · cases h
          · cases h
  | selected base case span =>
    rw [resolve] at h
    split at h
    · cases h
    · rename_i k as hk
      split at h
      · cases h
        obtain ⟨x, hx, k', as', case', hfound, rfl⟩ := name_of_resolve base hk
        exact ⟨x, by simpa [TypeRef.names] using hx, k', as', some case, hfound, rfl⟩
      · cases h
    · cases h
termination_by structural r

/-- The surroundings agree on certain names. If `cases` holds, they agree on the cases of their types
too. -/
structure Agrees (names : List String) (cases : Bool) (s s' : TypeScope) : Prop where
  generics : s'.generics = s.generics
  lookup : ∀ x ∈ names, s'.lookup x = s.lookup x
  hasCase : cases = true → ∀ x ∈ names, ∀ head args, s.lookup x = some (.variant head args) →
    ∀ case c, s'.hasCase { head with case } c = s.hasCase { head with case } c

section Agrees

variable {s s' : TypeScope} {names names' : List String} {cases cases' : Bool}

theorem Agrees.mono (h : Agrees names cases s s') (hn : names' ⊆ names)
    (hc : cases' = true → cases = true) : Agrees names' cases' s s' where
  generics := h.generics
  lookup := fun x hx => h.lookup x (hn hx)
  hasCase := fun hc' x hx => h.hasCase (hc hc') x (hn hx)

theorem Agrees.trans {s'' : TypeScope} (h : Agrees names cases s s') (k : Agrees names cases s' s'') :
    Agrees names cases s s'' where
  generics := k.generics.trans h.generics
  lookup := fun x hx => (k.lookup x hx).trans (h.lookup x hx)
  hasCase := fun hc x hx head args hl case c =>
    (k.hasCase hc x hx head args ((h.lookup x hx).trans hl) case c).trans
      (h.hasCase hc x hx head args hl case c)

theorem Agrees.binding (h : Agrees names cases s s') (params : List String) :
    Agrees names cases (s.binding params) (s'.binding params) :=
  { h with generics := by rw [TypeScope.binding, TypeScope.binding, h.generics] }

theorem Agrees.name?_eq (h : Agrees names cases s s') {x : String} (hx : x ∈ names) :
    s'.name? x = s.name? x := by
  rw [name?, name?, h.generics, h.lookup x hx]

theorem Agrees.isArrayName_eq {base : TypeRef} (h : Agrees base.names cases s s') :
    s'.isArrayName base = s.isArrayName base := by
  cases base with
  | named name span =>
    rw [isArrayName, isArrayName, h.generics, h.lookup name (by simp [TypeRef.names])]
  | _ => rfl

mutual

/-- A written type stands for the same in surroundings that agree on its names. -/
theorem Agrees.resolve_eq (r : TypeRef) (h : Agrees r.names r.selects s s') :
    s'.resolve r = s.resolve r := by
  cases r with
  | named name span => rw [resolve, resolve, h.name?_eq (by simp [TypeRef.names])]
  | function params ret span =>
    rw [resolve, resolve,
      Agrees.resolveAll_eq params (h.mono (by simp [TypeRef.names]) (by simp_all [TypeRef.selects])),
      Agrees.resolve_eq ret (h.mono (by simp [TypeRef.names]) (by simp_all [TypeRef.selects]))]
  | applied base args span =>
    have hbase : Agrees base.names base.selects s s' :=
      h.mono (by simp [TypeRef.names]) (by simp_all [TypeRef.selects])
    rw [resolve, resolve, hbase.isArrayName_eq, Agrees.resolve_eq base hbase,
      Agrees.resolveAll_eq args (h.mono (by simp [TypeRef.names]) (by simp_all [TypeRef.selects]))]
  | selected base case span =>
    have hbase := Agrees.resolve_eq base (h.mono (by simp [TypeRef.names]) fun _ => rfl)
    rw [resolve, resolve, hbase]
    split
    · rfl
    · rename_i head args hr
      obtain ⟨x, hx, k, as, c, hk, rfl⟩ := name_of_resolve base hr
      rw [h.hasCase rfl x (by simpa [TypeRef.names] using hx) k as hk]
    · rfl
termination_by structural r

theorem Agrees.resolveAll_eq (rs : List TypeRef)
    (h : Agrees (TypeRef.namesOf rs) (TypeRef.anySelects rs) s s') :
    s'.resolveAll rs = s.resolveAll rs := by
  cases rs with
  | nil => rfl
  | cons r rs =>
    rw [resolveAll, resolveAll,
      Agrees.resolve_eq r (h.mono (by simp [TypeRef.namesOf]) (by simp_all [TypeRef.anySelects])),
      Agrees.resolveAll_eq rs (h.mono (by simp [TypeRef.namesOf]) (by simp_all [TypeRef.anySelects]))]
termination_by structural rs

end

end Agrees

end TypeScope

theorem TypeScope.Agrees.typeOf_eq {names : List String} {cases : Bool} {s s' : TypeScope}
    (h : Agrees names cases s s') {r : TypeRef} (hn : r.names ⊆ names)
    (hc : r.selects = true → cases = true) :
    s'.typeOf r = s.typeOf r ∧ s'.faults r = s.faults r := by
  simp only [typeOf, faults, Agrees.resolve_eq r (h.mono hn hc), and_self]

/-- What is known of types depends on the definitions. -/
theorem Context.typeScope_congr {c c' : Context} (hpath : c'.path = c.path)
    (himports : c'.imports = c.imports) (hgenerics : c'.generics = c.generics)
    (h : ∀ p x, c'.ns.definition? p x = c.ns.definition? p x) : c'.typeScope = c.typeScope := by
  have hcase : c'.ns.hasCase = c.ns.hasCase := by
    funext head x
    simp only [Namespace.hasCase, Namespace.definitionOf?, h]
  simp only [typeScope, importedType?, hpath, himports, hgenerics, h, hcase]

/-! Signatures and definitions as functions of the surroundings -/

namespace FunctionHead

def typeRefs (head : FunctionHead) : List TypeRef :=
  head.params.map Param.type ++ head.returnType.toList

def signatureIn (head : FunctionHead) (s : TypeScope) : List TypedParam × Ty :=
  (head.params.map fun p => ⟨p.name, (s.binding head.typeParams).typeOf p.type⟩,
    (head.returnType.map (s.binding head.typeParams).typeOf).getD .unit)

def faultsIn (head : FunctionHead) (s : TypeScope) : List Diagnostic :=
  head.typeRefs.flatMap (s.binding head.typeParams).faults

/-- The names of types in the signature. -/
def typeNames (head : FunctionHead) : List String := head.typeRefs.flatMap TypeRef.names

/-- The signature is the same in surroundings that agree on the types in it. -/
theorem signatureIn_eq {head : FunctionHead} {s s' : TypeScope}
    (h : TypeScope.Agrees head.typeNames true s s') : head.signatureIn s' = head.signatureIn s := by
  have htype (r : TypeRef) (hr : r ∈ head.typeRefs) :
      (s'.binding head.typeParams).typeOf r = (s.binding head.typeParams).typeOf r :=
    ((h.binding head.typeParams).typeOf_eq (fun _ hx => List.mem_flatMap.mpr ⟨r, hr, hx⟩)
      fun _ => rfl).1
  have hparams : ∀ p ∈ head.params, p.type ∈ head.typeRefs :=
    fun p hp => List.mem_append_left _ (List.mem_map_of_mem hp)
  rw [signatureIn, signatureIn]
  congr 1
  · exact List.map_congr_left fun p hp => by rw [htype p.type (hparams p hp)]
  · cases hret : head.returnType with
    | none => rfl
    | some r => simp [htype r (by simp [typeRefs, hret])]

theorem map_name_signatureIn (head : FunctionHead) (s : TypeScope) :
    (head.signatureIn s).1.map TypedParam.name = head.params.map Param.name := by
  simp [signatureIn]

end FunctionHead

namespace DataDecl

def typeRefs (decl : DataDecl) : List TypeRef :=
  decl.cases.flatMap fun c => c.fields.map FieldDecl.type

def definitionIn (decl : DataDecl) (path : PackagePath) (s : TypeScope) : Definition where
  path := path
  name := decl.name
  typeParams := decl.typeParams
  isPublic := decl.isPublic
  cases := decl.cases.map fun c =>
    { name := c.name
      fields := c.fields.map fun f =>
        ⟨f.name, (s.binding decl.typeParams).typeOf f.type, f.isPublic || decl.isPublic⟩
      isPublic := c.isPublic || decl.isPublic }

def faultsIn (decl : DataDecl) (s : TypeScope) : List Diagnostic :=
  decl.typeRefs.flatMap (s.binding decl.typeParams).faults

end DataDecl

namespace Check

variable {α β : Type}

/-- The step only reads written types: what it gives and what it reports is a function of what is
known of types. -/
def Reads (m : Check α) (value : TypeScope → α) (reports : TypeScope → List Diagnostic) : Prop :=
  ∀ c, m.run c = (value c.typeScope, c.later c.ns (reports c.typeScope))

theorem reads_pure (a : α) : Reads (pure a) (fun _ => a) fun _ => [] :=
  fun c => by rw [Context.later_nil]; rfl

theorem Reads.congr {m : Check α} {v w : TypeScope → α} {ds es : TypeScope → List Diagnostic}
    (hm : Reads m v ds) (hv : ∀ s, v s = w s) (hd : ∀ s, ds s = es s) : Reads m w es := by
  intro c
  rw [hm c, hv, hd]

theorem Reads.bind {m : Check α} {f : α → Check β} {v : TypeScope → α}
    {w : α → TypeScope → β} {ds : TypeScope → List Diagnostic} {es : α → TypeScope → List Diagnostic}
    (hm : Reads m v ds) (hf : ∀ a, Reads (f a) (w a) (es a)) :
    Reads (m >>= f) (fun s => w (v s) s) fun s => ds s ++ es (v s) s := by
  intro c
  rw [StateT.run_bind, hm c]
  exact (hf _ _).trans (by rw [Context.later_later]; rfl)

theorem Reads.map {m : Check α} {v : TypeScope → α} {ds : TypeScope → List Diagnostic}
    (hm : Reads m v ds) (g : α → β) : Reads (m >>= fun a => pure (g a)) (fun s => g (v s)) ds :=
  (hm.bind fun a => reads_pure (g a)).congr (fun _ => rfl) fun _ => List.append_nil _

theorem reads_resolveType (reports : Bool) (r : TypeRef) :
    Reads (resolveType reports r) (fun s => s.typeOf r)
      fun s => if reports then s.faults r else [] := by
  intro c
  simp only [TypeScope.typeOf, TypeScope.faults]
  change StateT.run (match c.typeScope.resolve r with
    | .ok t => (pure t : Check Ty)
    | .error e => _) c = _
  cases c.typeScope.resolve r with
  | ok t => cases reports <;> exact congrArg (Prod.mk t) c.later_nil.symm
  | error e =>
    cases reports with
    | true => rfl
    | false => exact congrArg (Prod.mk Ty.any) c.later_nil.symm

theorem reads_mapM {f : α → Check β} {v : α → TypeScope → β}
    {ds : α → TypeScope → List Diagnostic} (hf : ∀ a, Reads (f a) (v a) (ds a)) (as : List α) :
    Reads (as.mapM f) (fun s => as.map fun a => v a s) fun s => as.flatMap fun a => ds a s := by
  induction as with
  | nil => exact reads_pure []
  | cons a as ih =>
    intro c
    rw [List.mapM_cons]
    exact ((hf a).bind fun b => ih.map fun bs => b :: bs) c

theorem reads_withGenerics {m : Check α} {v : TypeScope → α} {ds : TypeScope → List Diagnostic}
    (names : List String) (hm : Reads m v ds) :
    Reads (withGenerics names m) (fun s => v (s.binding names)) fun s => ds (s.binding names) := by
  intro c
  have h := hm { c with generics := c.generics ++ names }
  change (fun r : α × Context => (r.1, { r.2 with generics := c.generics })) (m.run _) = _
  rw [h]
  rfl

theorem reads_params (reports : Bool) (ps : List Param) :
    Reads (params reports ps) (fun s => ps.map fun p => ⟨p.name, s.typeOf p.type⟩)
      fun s => ps.flatMap fun p => if reports then s.faults p.type else [] := by
  unfold params
  exact reads_mapM (fun p => (reads_resolveType reports p.type).map (TypedParam.mk p.name)) ps

theorem reads_optionalType (reports : Bool) (r : Option TypeRef) :
    Reads (optionalType reports r) (fun s => r.map s.typeOf)
      fun s => r.toList.flatMap fun r => if reports then s.faults r else [] := by
  cases r with
  | none => exact reads_pure none
  | some r =>
    change Reads (resolveType reports r >>= fun t => pure (some t)) _ _
    exact ((reads_resolveType reports r).map some).congr (fun _ => rfl) fun _ => by simp

/-- The signature that is written, and reports on it if they are asked for. -/
theorem reads_signature (reports : Bool) (head : FunctionHead) :
    Reads (signature reports head) head.signatureIn
      fun s => if reports then head.faultsIn s else [] := by
  unfold signature
  have h := reads_withGenerics head.typeParams
    ((reads_params reports head.params).bind fun ps =>
      (reads_optionalType reports head.returnType).map fun ret => (ps, ret.getD .unit))
  refine h.congr (fun _ => rfl) fun s => ?_
  cases reports with
  | true => simp [FunctionHead.faultsIn, FunctionHead.typeRefs, List.flatMap_map]
  | false => simp

theorem reads_cases (isPublic : Bool) (cs : List CaseDecl) :
    Reads (cases isPublic cs)
      (fun s => cs.map fun c => ⟨c.name,
        c.fields.map fun f => ⟨f.name, s.typeOf f.type, f.isPublic || isPublic⟩, c.isPublic || isPublic⟩)
      fun s => cs.flatMap fun c => c.fields.flatMap fun f => s.faults f.type := by
  have hfields (fs : List FieldDecl) : Reads (fields isPublic fs)
      (fun s => fs.map fun f => ⟨f.name, s.typeOf f.type, f.isPublic || isPublic⟩)
      fun s => fs.flatMap fun f => s.faults f.type := by
    unfold fields
    exact reads_mapM (fun f => (reads_resolveType true f.type).map fun t =>
      Field.mk f.name t (f.isPublic || isPublic)) fs
  unfold cases
  exact reads_mapM (fun c => (hfields c.fields).map fun fs =>
    Case.mk c.name fs (c.isPublic || isPublic)) cs

theorem run_definition (decl : DataDecl) (c : Context) :
    (definition decl).run c =
      (decl.definitionIn c.path c.typeScope, c.later c.ns (decl.faultsIn c.typeScope)) := by
  have h := reads_withGenerics decl.typeParams (reads_cases decl.isPublic decl.cases) c
  change (fun r : List Case × Context =>
    ((⟨r.2.path, decl.name, decl.typeParams, decl.isPublic, r.1⟩ : Definition), r.2))
      ((withGenerics decl.typeParams (cases decl.isPublic decl.cases)).run c) = _
  rw [h, DataDecl.faultsIn, DataDecl.typeRefs]
  simp only [List.flatMap_assoc, List.flatMap_map]
  rfl

end Check

end Tern
