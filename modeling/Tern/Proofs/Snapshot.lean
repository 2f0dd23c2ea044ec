import Tern.Snapshot.Json
import Tern.Proofs.Coherence
import Tern.Proofs.Json
import Tern.Proofs.Ty.Rule

/-!
A namespace is restored from its image, and from the text of the image as far as the reader goes into
nested values.
-/

set_option autoImplicit false

namespace Tern

namespace Json

mutual
/-- How many brackets are open at the deepest place. -/
def nesting : Json → Nat
  | null => 0
  | bool _ => 0
  | number _ _ _ _ => 0
  | string _ => 0
  | array xs => nestingAll xs + 1
  | object fs => nestingFields fs + 1
  | unreadable => 0
def nestingAll : List Json → Nat
  | [] => 0
  | x :: xs => max x.nesting (nestingAll xs)
def nestingFields : List (String × Json) → Nat
  | [] => 0
  | (_, x) :: fs => max x.nesting (nestingFields fs)
end

theorem nesting_le_of_mem {x : Json} {xs : List Json} (h : x ∈ xs) : x.nesting ≤ nestingAll xs := by
  induction xs with
  | nil => cases h
  | cons y ys ih =>
    rw [nestingAll]
    rcases List.mem_cons.mp h with rfl | h
    · exact Nat.le_max_left _ _
    · exact Nat.le_trans (ih h) (Nat.le_max_right _ _)

theorem allPlain_of_forall {xs : List Json} (h : ∀ x ∈ xs, x.Plain) : AllPlain xs := by
  induction xs with
  | nil => trivial
  | cons x xs ih =>
    rw [List.forall_mem_cons] at h
    exact ⟨h.1, ih h.2⟩

section Reading

variable {α : Type} {depth : Nat} {write : α → Json}

theorem mapM_map {β γ : Type} {write : α → β} {read : β → Option γ} {value : α → γ} {as : List α}
    (h : ∀ a ∈ as, read (write a) = some (value a)) :
    (as.map write).mapM read = some (as.map value) := by
  induction as with
  | nil => rfl
  | cons a as ih =>
    rw [List.forall_mem_cons] at h
    rw [List.map_cons, List.mapM_cons, h.1, ih h.2]
    rfl

/-- A list is read if its members are, one level further down. -/
theorem elements?_map {read : Json → Option α} {as : List α}
    (hdepth : (array (as.map write)).nesting < depth)
    (h : ∀ a ∈ as, (write a).nesting < depth - 1 → read (write a) = some a) :
    ((array (as.map write)).elements? depth).bind (fun xs => xs.mapM read) = some as := by
  rw [nesting] at hdepth
  have hread : ∀ a ∈ as, read (write a) = some (id a) := by
    intro a ha
    have hle := nesting_le_of_mem (List.mem_map_of_mem (f := write) ha)
    exact h a ha (by omega)
  rw [elements?, if_pos (by omega), Option.bind_some, mapM_map hread, List.map_id]

theorem list?_map {read : Nat → Json → Option α}
    (h : ∀ a d, (write a).nesting < d → read d (write a) = some a) (as : List α)
    (hdepth : (array (as.map write)).nesting < depth) :
    (array (as.map write)).list? depth read = some as :=
  elements?_map hdepth fun a _ ha => h a (depth - 1) ha

theorem strings?_strings {xs : List String} (hdepth : (strings xs).nesting < depth) :
    (strings xs).strings? depth = some xs := elements?_map hdepth fun _ _ _ => rfl

theorem single?_of_mem {fields : List (String × Json)} (hnames : (fields.map Prod.fst).Nodup) :
    ∀ f ∈ fields, single? f.1 fields = some (some f.2) := by
  have hfilter : ∀ f ∈ fields, fields.filter (fun g => g.1 == f.1) = [f] := by
    induction fields with
    | nil => simp
    | cons g gs ih =>
      rw [List.map_cons, List.nodup_cons] at hnames
      intro f hf
      rcases List.mem_cons.mp hf with rfl | hf
      · have hnone : gs.filter (fun g => g.1 == f.1) = [] := by
          rw [List.filter_eq_nil_iff]
          intro g hg
          have hne : g.1 ≠ f.1 := fun h => hnames.1 (h ▸ List.mem_map_of_mem hg)
          simpa using hne
        rw [List.filter_cons_of_pos (by simp), hnone]
      · have hne : g.1 ≠ f.1 := fun h => hnames.1 (h ▸ List.mem_map_of_mem hf)
        rw [List.filter_cons_of_neg (by simpa using hne)]
        exact ih hnames.2 f hf
  intro f hf
  rw [single?, hfilter f hf]

/-- The fields of a record are read by their names. -/
theorem record?_object {names : List String} (values : List Json) (least : Nat)
    (hnames : names.Nodup) (hlength : values.length = names.length) (hdepth : 2 ≤ depth) :
    (object (names.zip values)).record? depth names least = some (values.map some) := by
  have hfst : (names.zip values).map Prod.fst = names := List.map_fst_zip (by omega)
  have hsnd : (names.zip values).map Prod.snd = values := List.map_snd_zip (by omega)
  have hread : ((names.zip values).map Prod.fst).mapM (single? · (names.zip values)) =
      some ((names.zip values).map fun f => some f.2) :=
    mapM_map (single?_of_mem (by rwa [hfst]))
  have hvalues : (names.zip values).map (fun f => some f.2) = values.map some :=
    List.map_map.symm.trans (congrArg (List.map some) hsnd)
  rw [hfst, hvalues] at hread
  rw [record?, if_pos hdepth]
  exact hread

theorem tagged?_object (tag : String) (content : Json) (hdepth : 2 ≤ depth) :
    (object [(tag, content)]).tagged? depth = some (tag, content) := by
  rw [tagged?, if_pos hdepth]

theorem two_le_of_nesting_object {fields : List (String × Json)}
    (h : (object fields).nesting < depth) : 2 ≤ depth := by
  rw [nesting] at h
  omega

/-- The values of fields are one level further down. -/
theorem nesting_field_lt {fields : List (String × Json)} {k : String} {x : Json}
    (h : (object fields).nesting < depth) (hmem : (k, x) ∈ fields) : x.nesting < depth - 1 := by
  have hle : x.nesting ≤ nestingFields fields := by
    clear h
    induction fields with
    | nil => cases hmem
    | cons f fields ih =>
      rw [nestingFields]
      rcases List.mem_cons.mp hmem with rfl | hmem
      · exact Nat.le_max_left _ _
      · exact Nat.le_trans (ih hmem) (Nat.le_max_right _ _)
  rw [nesting] at h
  omega

end Reading

end Json

/-! Types and declarations -/

theorem Ty.toJsons_eq_map (ts : List Ty) : Ty.toJsons ts = ts.map Ty.toJson := by
  induction ts with
  | nil => rfl
  | cons t ts ih => rw [Ty.toJsons, ih, List.map_cons]

theorem Signature.toJsons_eq_map (ss : List Signature) :
    Signature.toJsons ss = ss.map Signature.toJson := by
  induction ss with
  | nil => rfl
  | cons s ss ih => rw [Signature.toJsons, ih, List.map_cons]

theorem Primitive.ofTag?_tag (p : Primitive) : Primitive.ofTag? p.tag = some p := by
  cases p <;> rfl

def Ty.Readable (t : Ty) : Prop :=
  ∀ depth, t.toJson.nesting < depth → Ty.ofJson? depth t.toJson = some t

def Signature.Readable (s : Signature) : Prop :=
  ∀ depth, s.toJson.nesting < depth → Signature.ofJson? depth s.toJson = some s

theorem variantRecord (head : VariantHead) (args : List Json) {depth : Nat} (hdepth : 2 ≤ depth) :
    (head.toJson args).record? depth
        ["module", "package", "name", "type_params", "type_args", "case"] 6 =
      some [some (.string head.path.module), some (.string head.path.package), some (.string head.name),
        some (.strings head.typeParams), some (.array args), some (.ofOption .string head.case)] :=
  Json.record?_object [_, _, _, _, _, _] 6 (by decide) rfl hdepth

theorem Signature.readable {s : Signature} (hparams : ∀ t ∈ s.params, t.Readable)
    (hret : s.ret.Readable) : s.Readable := by
  obtain ⟨params, ret⟩ := s
  intro depth hdepth
  rw [Signature.toJson, Ty.toJsons_eq_map] at hdepth ⊢
  have htwo := Json.two_le_of_nesting_object hdepth
  have hrecord : (Json.object [("params", .array (params.map Ty.toJson)), ("ret", ret.toJson)]).record?
      depth ["params", "ret"] 2 = some [some (.array (params.map Ty.toJson)), some ret.toJson] :=
    Json.record?_object [_, _] 2 (by decide) rfl htwo
  have helements : ((Json.array (params.map Ty.toJson)).elements? (depth - 1)).bind
      (fun xs => xs.mapM fun x => Ty.ofJson? (depth - 2) x) = some params :=
    Json.elements?_map (Json.nesting_field_lt hdepth List.mem_cons_self) fun t ht => hparams t ht _
  have hresult : Ty.ofJson? (depth - 1) ret.toJson = some ret :=
    hret _ (Json.nesting_field_lt hdepth (List.mem_cons_of_mem _ List.mem_cons_self))
  rw [Signature.ofJson?, dif_neg (by omega), hrecord]
  simp only [helements, hresult]

theorem Ty.readable (t : Ty) : t.Readable := by
  induction t using Ty.byParts with
  | primitive p =>
    intro depth hdepth
    rw [Ty.toJson] at hdepth ⊢
    have htwo := Json.two_le_of_nesting_object hdepth
    rw [Ty.ofJson?, dif_neg (by omega), Json.tagged?_object _ _ htwo]
    simp only [Primitive.ofJson?, Primitive.ofTag?_tag, Option.map_some]
  | function s hparams hret =>
    intro depth hdepth
    rw [Ty.toJson] at hdepth ⊢
    have htwo := Json.two_le_of_nesting_object hdepth
    have hs := Signature.readable hparams hret _ (Json.nesting_field_lt hdepth List.mem_cons_self)
    rw [Ty.ofJson?, dif_neg (by omega), Json.tagged?_object _ _ htwo]
    simp only [hs, Option.map_some]
  | overloaded ss hss =>
    intro depth hdepth
    rw [Ty.toJson, Signature.toJsons_eq_map] at hdepth ⊢
    have htwo := Json.two_le_of_nesting_object hdepth
    have hset := Json.nesting_field_lt hdepth List.mem_cons_self
    have hrecord : (Json.object [("members", .array (ss.map Signature.toJson))]).record? (depth - 1)
        ["members"] 1 = some [some (.array (ss.map Signature.toJson))] :=
      Json.record?_object [_] 1 (by decide) rfl (Json.two_le_of_nesting_object hset)
    have hmembers := Json.nesting_field_lt hset List.mem_cons_self
    have helements : ((Json.array (ss.map Signature.toJson)).elements? (depth - 2)).bind
        (fun xs => xs.mapM fun x => Signature.ofJson? (depth - 3) x) = some ss :=
      Json.elements?_map hmembers fun s hs => Signature.readable (hss s hs).1 (hss s hs).2 _
    rw [Ty.ofJson?, dif_neg (by omega), Json.tagged?_object _ _ htwo]
    simp only [hrecord, helements, Option.map_some]
  | param x =>
    intro depth hdepth
    rw [Ty.toJson] at hdepth ⊢
    have htwo := Json.two_le_of_nesting_object hdepth
    rw [Ty.ofJson?, dif_neg (by omega), Json.tagged?_object _ _ htwo]
    simp only [Json.string?, Option.map_some]
  | variant head args hargs =>
    intro depth hdepth
    rw [Ty.toJson, Ty.toJsons_eq_map, VariantHead.toJson] at hdepth ⊢
    have htwo := Json.two_le_of_nesting_object hdepth
    have hfields := Json.nesting_field_lt hdepth List.mem_cons_self
    have hrecord := variantRecord head (args.map Ty.toJson) (Json.two_le_of_nesting_object hfields)
    have hparams : (Json.strings head.typeParams).strings? (depth - 2) = some head.typeParams :=
      Json.strings?_strings (Json.nesting_field_lt (k := "type_params") hfields (by simp))
    have helements : ((Json.array (args.map Ty.toJson)).elements? (depth - 2)).bind
        (fun xs => xs.mapM fun x => Ty.ofJson? (depth - 3) x) = some args :=
      Json.elements?_map (Json.nesting_field_lt (k := "type_args") hfields (by simp))
        fun t ht => hargs t ht _
    rw [VariantHead.toJson] at hrecord
    rw [Ty.ofJson?, dif_neg (by omega), Json.tagged?_object _ _ htwo]
    simp only [hrecord, Json.string?, hparams, helements]
    cases head with
    | mk path name typeParams case => cases case <;> rfl
  | array t ht =>
    intro depth hdepth
    rw [Ty.toJson] at hdepth ⊢
    have htwo := Json.two_le_of_nesting_object hdepth
    have helement := ht _ (Json.nesting_field_lt hdepth List.mem_cons_self)
    rw [Ty.ofJson?, dif_neg (by omega), Json.tagged?_object _ _ htwo]
    simp only [helement, Option.map_some]

theorem Symbol.ofJson?_toJson (s : Symbol) (depth : Nat) (h : s.toJson.nesting < depth) :
    Symbol.ofJson? depth s.toJson = some s := by
  have hrecord : s.toJson.record? depth ["name", "ty", "public", "mutable"] 4 =
      some [some (.string s.name), some s.type.toJson, some (.bool s.isPublic), some (.bool s.isMutable)] :=
    Json.record?_object [_, _, _, _] 4 (by decide) rfl (Json.two_le_of_nesting_object h)
  have htype := s.type.readable _ (Json.nesting_field_lt (k := "ty") h (by simp))
  rw [Symbol.ofJson?, hrecord]
  simp only [Json.string?, Json.bool?, htype]
  rfl

theorem Field.ofJson?_toJson (f : Field) (depth : Nat) (h : f.toJson.nesting < depth) :
    Field.ofJson? depth f.toJson = some f := by
  have hrecord : f.toJson.record? depth ["name", "ty", "public"] 3 =
      some [some (.string f.name), some f.type.toJson, some (.bool f.isPublic)] :=
    Json.record?_object [_, _, _] 3 (by decide) rfl (Json.two_le_of_nesting_object h)
  have htype := f.type.readable _ (Json.nesting_field_lt (k := "ty") h (by simp))
  rw [Field.ofJson?, hrecord]
  simp only [Json.string?, Json.bool?, htype]
  rfl

theorem Case.ofJson?_toJson (c : Case) (depth : Nat) (h : c.toJson.nesting < depth) :
    Case.ofJson? depth c.toJson = some c := by
  have hrecord : c.toJson.record? depth ["name", "fields", "public"] 3 =
      some [some (.string c.name), some (.array (c.fields.map Field.toJson)), some (.bool c.isPublic)] :=
    Json.record?_object [_, _, _] 3 (by decide) rfl (Json.two_le_of_nesting_object h)
  have hfields := Json.list?_map Field.ofJson?_toJson c.fields
    (Json.nesting_field_lt (k := "fields") h (by simp))
  rw [Case.ofJson?, hrecord]
  simp only [Json.string?, Json.bool?, hfields]
  rfl

theorem Definition.ofJson?_toJson (d : Definition) (depth : Nat) (h : d.toJson.nesting < depth) :
    Definition.ofJson? depth d.toJson = some d := by
  have hrecord : d.toJson.record? depth ["module", "package", "name", "type_params", "public", "cases"] 6 =
      some [some (.string d.path.module), some (.string d.path.package), some (.string d.name),
        some (.strings d.typeParams), some (.bool d.isPublic), some (.array (d.cases.map Case.toJson))] :=
    Json.record?_object [_, _, _, _, _, _] 6 (by decide) rfl (Json.two_le_of_nesting_object h)
  have hparams : (Json.strings d.typeParams).strings? (depth - 1) = some d.typeParams :=
    Json.strings?_strings (Json.nesting_field_lt (k := "type_params") h (by simp))
  have hcases := Json.list?_map Case.ofJson?_toJson d.cases (Json.nesting_field_lt (k := "cases") h (by simp))
  rw [Definition.ofJson?, hrecord]
  simp only [Json.string?, Json.bool?, hparams, hcases]
  rfl

theorem PackageImage.ofJson?_toJson (p : PackageImage) (depth : Nat) (h : p.toJson.nesting < depth) :
    PackageImage.ofJson? depth p.toJson = some p := by
  have hrecord : p.toJson.record? depth ["name", "symbols", "variants"] 1 =
      some [some (.string p.name), some (.array (p.symbols.map Symbol.toJson)),
        some (.array (p.definitions.map Definition.toJson))] :=
    Json.record?_object [_, _, _] 1 (by decide) rfl (Json.two_le_of_nesting_object h)
  have hsymbols := Json.list?_map Symbol.ofJson?_toJson p.symbols
    (Json.nesting_field_lt (k := "symbols") h (by simp))
  have hdefinitions := Json.list?_map Definition.ofJson?_toJson p.definitions
    (Json.nesting_field_lt (k := "variants") h (by simp))
  rw [PackageImage.ofJson?, hrecord]
  simp only [Json.string?, Option.getD_some, hsymbols, hdefinitions]
  rfl

theorem ModuleImage.ofJson?_toJson (m : ModuleImage) (depth : Nat) (h : m.toJson.nesting < depth) :
    ModuleImage.ofJson? depth m.toJson = some m := by
  have hrecord : m.toJson.record? depth ["name", "packages"] 2 =
      some [some (.string m.name), some (.array (m.packages.map PackageImage.toJson))] :=
    Json.record?_object [_, _] 2 (by decide) rfl (Json.two_le_of_nesting_object h)
  have hpackages := Json.list?_map PackageImage.ofJson?_toJson m.packages
    (Json.nesting_field_lt (k := "packages") h (by simp))
  rw [ModuleImage.ofJson?, hrecord]
  simp only [Json.string?, hpackages]
  rfl

theorem Snapshot.ofJson?_toJson (s : Snapshot) (h : s.toJson.nesting < Json.maxDepth) :
    Snapshot.ofJson? s.toJson = some s := by
  have hrecord : s.toJson.record? Json.maxDepth ["modules"] 1 =
      some [some (.array (s.modules.map ModuleImage.toJson))] :=
    Json.record?_object [_] 1 (by decide) rfl (Json.two_le_of_nesting_object h)
  have hmodules := Json.list?_map ModuleImage.ofJson?_toJson s.modules
    (Json.nesting_field_lt (k := "modules") h (by simp))
  rw [Snapshot.ofJson?, hrecord]
  simp only [hmodules, Option.map_some]

/-! There are no numbers in the text of an image. -/

theorem Json.plain_strings (xs : List String) : (Json.strings xs).Plain := by
  refine Json.allPlain_of_forall ?_
  simp [Json.Plain]

theorem Json.plain_array {α : Type} {write : α → Json} (h : ∀ a, (write a).Plain) (as : List α) :
    (Json.array (as.map write)).Plain := by
  refine Json.allPlain_of_forall ?_
  simpa using fun a _ => h a

theorem Signature.plain_toJson {s : Signature} (hparams : ∀ t ∈ s.params, t.toJson.Plain)
    (hret : s.ret.toJson.Plain) : s.toJson.Plain := by
  obtain ⟨params, ret⟩ := s
  have hall : Json.AllPlain (params.map Ty.toJson) :=
    Json.allPlain_of_forall (List.forall_mem_map.mpr hparams)
  rw [Signature.toJson, Ty.toJsons_eq_map]
  exact ⟨hall, hret, trivial⟩

theorem Ty.plain_toJson (t : Ty) : t.toJson.Plain := by
  induction t using Ty.byParts with
  | primitive p => exact ⟨trivial, trivial⟩
  | function s hparams hret => exact ⟨Signature.plain_toJson hparams hret, trivial⟩
  | overloaded ss hss =>
    have hall : Json.AllPlain (ss.map Signature.toJson) := by
      refine Json.allPlain_of_forall (List.forall_mem_map.mpr ?_)
      exact fun s hs => Signature.plain_toJson (hss s hs).1 (hss s hs).2
    rw [Ty.toJson, Signature.toJsons_eq_map]
    exact ⟨⟨hall, trivial⟩, trivial⟩
  | param x => exact ⟨trivial, trivial⟩
  | variant head args hargs =>
    have hall : Json.AllPlain (args.map Ty.toJson) :=
      Json.allPlain_of_forall (List.forall_mem_map.mpr hargs)
    have hcase : (Json.ofOption Json.string head.case).Plain := by
      cases head.case <;> trivial
    rw [Ty.toJson, Ty.toJsons_eq_map]
    exact ⟨⟨trivial, trivial, trivial, Json.plain_strings _, hall, hcase, trivial⟩, trivial⟩
  | array t ht => exact ⟨ht, trivial⟩

theorem Symbol.plain_toJson (s : Symbol) : s.toJson.Plain :=
  ⟨trivial, s.type.plain_toJson, trivial, trivial, trivial⟩

theorem Definition.plain_toJson (d : Definition) : d.toJson.Plain := by
  have hfield (f : Field) : f.toJson.Plain := ⟨trivial, f.type.plain_toJson, trivial, trivial⟩
  have hcase (c : Case) : c.toJson.Plain :=
    ⟨trivial, Json.plain_array hfield c.fields, trivial, trivial⟩
  exact ⟨trivial, trivial, trivial, Json.plain_strings _, trivial, Json.plain_array hcase d.cases, trivial⟩

theorem Snapshot.plain_toJson (s : Snapshot) : s.toJson.Plain := by
  have hpackage (p : PackageImage) : p.toJson.Plain :=
    ⟨trivial, Json.plain_array Symbol.plain_toJson p.symbols,
      Json.plain_array Definition.plain_toJson p.definitions, trivial⟩
  have hmodule (m : ModuleImage) : m.toJson.Plain :=
    ⟨trivial, Json.plain_array hpackage m.packages, trivial⟩
  exact ⟨Json.plain_array hmodule s.modules, trivial⟩

/-- Namespaces that are reached from the empty one. -/
inductive Namespace.Reached : Namespace → Prop
  | empty : Reached Namespace.empty
  | ensurePackage {ns : Namespace} (path : PackagePath) : Reached ns → Reached (ns.ensurePackage path)
  | addSymbol {ns : Namespace} (path : PackagePath) (s : Symbol) :
      Reached ns → Reached (ns.addSymbol path s)
  | define {ns : Namespace} (path : PackagePath) (d : Definition) :
      Reached ns → Reached (ns.define path d)
  | loadPrelude {ns : Namespace} : Reached ns → Reached ns.loadPrelude
  | load {ns : Namespace} (s : Snapshot) : Reached ns → Reached (ns.load s)
  | check {ns : Namespace} (u : SourceUnit) (default : PackagePath) :
      Reached ns → Reached (u.check ns default).2.ns

namespace Namespace

theorem Reached.coherent {ns : Namespace} (h : ns.Reached) : ns.Coherent := by
  induction h with
  | empty => exact coherent_empty
  | ensurePackage path _ ih => exact ih.step (.ensurePackage _)
  | addSymbol path s _ ih => exact ih.step (.addSymbol _ s)
  | define path d _ ih => exact ih.step (.define _ d)
  | loadPrelude _ ih => exact ih.loadPrelude
  | load s _ ih => exact ih.load s
  | check u default _ ih => exact ih.steps (u.grows_check _ default).steps

/-- Everything in a namespace is restored from its image and has its place again, and also from the
text of the image if that is not nested deeper than the reader goes. -/
theorem restored_of_reached {ns : Namespace} (h : ns.Reached) :
    ofSnapshot ns.snapshot = ns ∧
      (ns.snapshot.toJson.nesting < Json.maxDepth → ofJson? ns.toJson = some ns) := by
  have hrestored := h.coherent.ofSnapshot_snapshot
  refine ⟨hrestored, ?_⟩
  intro hdepth
  rw [ofJson?, toJson, Json.ofText?_pretty ns.snapshot.plain_toJson, Option.bind_some,
    Snapshot.ofJson?_toJson _ hdepth, Option.map_some, hrestored]

/-- An image with a module that has no packages, and with a name that is given twice. -/
def oddImage : Snapshot :=
  ⟨[⟨"empty", []⟩, ⟨"lib", [⟨"math",
    [⟨"f", .function (.mk [.int] .int), true, false⟩, ⟨"f", .function (.mk [.bool] .int), true, false⟩],
    [⟨⟨"other", "place"⟩, "Box", ["T"], true, [⟨"B", [⟨"x", .param "T", true⟩], true⟩]⟩]⟩]⟩]⟩

/-- What is there after the image is loaded and a unit is checked. -/
def afterOddImage : Namespace := (pairing.check (withPrelude.load oddImage) ⟨"user", "default"⟩).2.ns

theorem restored_of_reached_afterOddImage :
    afterOddImage.Reached ∧ afterOddImage.modules.map Module.name = ["std", "lib", "user"] ∧
      afterOddImage.snapshot.toJson.nesting = 14 ∧
      ofSnapshot afterOddImage.snapshot = afterOddImage ∧
      ofJson? afterOddImage.toJson = some afterOddImage := by
  have hreached : afterOddImage.Reached := .check pairing _ (.load oddImage (.loadPrelude .empty))
  have hnesting : afterOddImage.snapshot.toJson.nesting = 14 := by cbv
  obtain ⟨himage, htext⟩ := restored_of_reached hreached
  exact ⟨hreached, by cbv, hnesting, himage, htext (by rw [hnesting]; decide)⟩

end Namespace

end Tern
