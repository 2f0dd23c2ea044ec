import Tern.Proofs.Check.Walk
import Tern.Proofs.Parse.Spans

/-!
Where the reports on a unit point. Checking takes its places from the unit and from the expressions
it has made, and it only ever joins them; so what it reports has a place in the text, if the unit was
read from the text.
-/

set_option autoImplicit false

namespace Tern

/-- The reports and the expressions made so far have places in the text. -/
structure Context.Placed (text : List Char) (c : Context) : Prop where
  reports : ∀ d ∈ c.diagnostics, d.span.Fits text
  exprs : ∀ e ∈ c.program.exprs, e.expr.span.Fits text

theorem Context.Placed.span {text : List Char} {c : Context} (h : c.Placed text) (id : Nat) :
    (c.program.span id).Fits text := by
  unfold Program.span Program.expr?
  cases he : c.program.exprs[id]? with
  | none => exact Span.fits_zero text
  | some e => exact h.exprs e (Array.mem_of_getElem? he)

namespace Imports

variable {fits : Span → Prop}

theorem fits_addEntry {package : Package} {path : PackagePath} {sameModule : Bool} {o : Outcome}
    {entry : ImportEntry} (ho : ∀ d ∈ o.2, fits d.span) (h : fits entry.span) :
    ∀ d ∈ (addEntry package path sameModule o entry).2, fits d.span := by
  unfold addEntry
  split
  · exact ho
  · intro d hd
    rcases List.mem_append.mp hd with hd | hd
    · exact ho d hd
    · obtain rfl := List.mem_singleton.mp hd
      exact h

theorem fits_addDecl {ns : Namespace} {module : String} {o : Outcome} {decl : ImportDecl}
    (ho : ∀ d ∈ o.2, fits d.span) (h : ∀ s ∈ decl.places, fits s) :
    ∀ d ∈ (addDecl ns module o decl).2, fits d.span := by
  obtain ⟨hdecl, hentries⟩ := List.forall_mem_cons.mp h
  unfold addDecl
  split
  · intro d hd
    rcases List.mem_append.mp hd with hd | hd
    · exact ho d hd
    · obtain rfl := List.mem_singleton.mp hd
      exact hdecl
  · exact List.foldlRecOn (motive := fun o : Outcome => ∀ d ∈ o.2, fits d.span) decl.entries _ ho
      fun o ho e he => fits_addEntry ho (hentries _ (List.mem_map_of_mem he))

theorem fits_ofDecls {ns : Namespace} {module : String} {decls : List ImportDecl}
    (h : ∀ d ∈ decls, ∀ s ∈ d.places, fits s) : ∀ d ∈ (ofDecls ns module decls).2, fits d.span :=
  List.foldlRecOn (motive := fun o : Outcome => ∀ d ∈ o.2, fits d.span) decls _ (by simp)
    fun _ ho d hd => fits_addDecl ho (h d hd)

end Imports

namespace Check

variable {text : List Char} {α : Type}

/-- The step puts what it reports and makes into the text. -/
def Places (text : List Char) (m : Check α) : Prop :=
  ∀ c : Context, c.Placed text → (m.run c).2.Placed text

/-- A change that leaves reports and expressions alone. -/
theorem places_modify {f : Context → Context}
    (hreports : ∀ c, (f c).diagnostics = c.diagnostics)
    (hexprs : ∀ c, (f c).program.exprs = c.program.exprs) : Places text (modify f : Check Unit) := by
  intro c hc
  refine ⟨?_, ?_⟩
  · change ∀ d ∈ (f c).diagnostics, _
    rw [hreports]
    exact hc.reports
  · change ∀ e ∈ (f c).program.exprs, _
    rw [hexprs]
    exact hc.exprs

theorem places_alloc {e : Expr} (t : Ty) (h : e.span.Fits text) : Places text (alloc e t) := by
  intro c hc
  refine ⟨hc.reports, ?_⟩
  intro x hx
  rcases Array.mem_push.mp hx with hx | rfl
  · exact hc.exprs x hx
  · exact h

/-- Places in the text lead to places in the text. -/
def placesRule (text : List Char) : StepRule where
  fits := Span.Fits text
  relates _ _ _ m _ := Places text m
  join := Span.Fits.join
  done _ _ h := h
  bind hm hf c hc := hf _ _ (hm c hc)
  mono h _ := h
  look h c hc := h c c hc
  spanOf id h c hc := h _ (hc.span id) c hc
  report problem hs c hc := by
    refine ⟨?_, hc.exprs⟩
    intro d hd
    rcases List.mem_append.mp hd with hd | hd
    · exact hc.reports d hd
    · obtain rfl := List.mem_singleton.mp hd
      exact hs
  alloc t h _ := places_alloc t h
  call _ _ t h c hc := places_alloc (t.erase c.generics) h c hc
  imports h c hc := by
    refine ⟨?_, hc.exprs⟩
    intro d hd
    rcases List.mem_append.mp hd with hd | hd
    · exact hc.reports d hd
    · exact Imports.fits_ofDecls h d hd
  known _ := places_modify (fun _ => rfl) fun _ => rfl
  symbol _ _ := places_modify (fun _ => rfl) fun _ => rfl
  parameter _ _ _ := places_modify (fun _ => rfl) fun _ => rfl
  item _ := places_modify (fun _ => rfl) fun _ => rfl
  scope kind h c hc :=
    have hstep := h c.program.scopes.size (c.enter kind) ⟨hc.reports, hc.exprs⟩
    ⟨hstep.reports, hstep.exprs⟩
  result t h c hc :=
    have hstep := h { c with returnTypes := t :: c.returnTypes } ⟨hc.reports, hc.exprs⟩
    ⟨hstep.reports, hstep.exprs⟩
  generics {_ _ _ _ _ head} h c hc :=
    have hstep := h { c with generics := c.generics ++ head.typeParams } ⟨hc.reports, hc.exprs⟩
    ⟨hstep.reports, hstep.exprs⟩

end Check

/-! What was read from a text -/

section

variable {text : List Char} {outer : Span}

theorem TypeRef.allSpans_eq_flatMap (rs : List TypeRef) :
    TypeRef.allSpans rs = rs.flatMap TypeRef.spans := by
  induction rs with
  | nil => rfl
  | cons r rs ih => rw [TypeRef.allSpans, ih, List.flatMap_cons]

theorem TypeRef.Lies.spans {r : TypeRef} (h : r.Lies text outer) : ∀ s ∈ r.spans, s.Fits text := by
  induction h with
  | named hs => simpa [TypeRef.spans] using hs.fits
  | function hs _ _ hparams hret =>
    rw [TypeRef.spans, TypeRef.allSpans_eq_flatMap, List.forall_mem_cons, List.forall_mem_append,
      List.forall_mem_flatMap]
    exact ⟨hs.fits, hparams, hret⟩
  | applied hs _ _ hbase hargs =>
    rw [TypeRef.spans, TypeRef.allSpans_eq_flatMap, List.forall_mem_cons, List.forall_mem_append,
      List.forall_mem_flatMap]
    exact ⟨hs.fits, hbase, hargs⟩
  | selected hs _ hbase =>
    rw [TypeRef.spans, List.forall_mem_cons]
    exact ⟨hs.fits, hbase⟩

theorem TypeRef.fits_optionSpans {r : Option TypeRef} (h : ∀ t ∈ r, t.Lies text outer) :
    ∀ s ∈ TypeRef.optionSpans r, s.Fits text := by
  refine List.forall_mem_flatMap.mpr fun t ht => (h t ?_).spans
  simpa using ht

theorem Param.fits_allSpans {ps : List Param} (h : ∀ p ∈ ps, p.Lies text outer) :
    ∀ s ∈ Param.allSpans ps, s.Fits text :=
  List.forall_mem_flatMap.mpr fun p hp => (h p hp).type.spans

theorem CaseDecl.fits_allSpans {cs : List CaseDecl} (h : ∀ c ∈ cs, c.Lies text outer) :
    ∀ s ∈ CaseDecl.allSpans cs, s.Fits text :=
  List.forall_mem_flatMap.mpr fun c hc =>
    List.forall_mem_flatMap.mpr fun f hf => ((h c hc).fields f hf).type.spans

theorem ImportDecl.Lies.places {d : ImportDecl} (h : d.Lies text) : ∀ s ∈ d.places, s.Fits text :=
  List.forall_mem_cons.mpr ⟨h.span, List.forall_mem_map.mpr fun e he => (h.entries e he).fits⟩

/-- The places of the node itself are in the text. -/
theorem Node.Lies.places {n : Node} (h : n.Lies text outer) : ∀ s ∈ n.places, s.Fits text := by
  have hspan := h.span.fits
  cases h with
  | qualified _ hname =>
    rw [Node.places]
    simpa using ⟨hspan, hname.fits⟩
  | member _ _ hmember =>
    rw [Node.places]
    simpa using ⟨hspan, hmember.fits⟩
  | assign _ hname _ =>
    rw [Node.places]
    simpa using ⟨hspan, hname.fits⟩
  | define _ htype _ =>
    rw [Node.places, List.forall_mem_cons]
    exact ⟨hspan, TypeRef.fits_optionSpans htype⟩
  | function _ hhead _ =>
    rw [Node.places, List.forall_mem_cons, List.forall_mem_append]
    exact ⟨hspan, Param.fits_allSpans hhead.params, TypeRef.fits_optionSpans hhead.returnType⟩
  | data _ hcases =>
    rw [Node.places, List.forall_mem_cons]
    exact ⟨hspan, CaseDecl.fits_allSpans hcases⟩
  | lambda _ hparams hret _ =>
    rw [Node.places, List.forall_mem_cons, List.forall_mem_append]
    exact ⟨hspan, Param.fits_allSpans hparams, TypeRef.fits_optionSpans hret⟩
  | _ => exact List.forall_mem_singleton.mpr hspan

theorem Node.Lies.admits {n : Node} (h : n.Lies text outer) :
    (Check.placesRule text).Admits n.nodes := by
  have hall {ns : List Node} (h : ∀ n ∈ ns, (Check.placesRule text).Admits n.nodes) :=
    (StepRule.admits_allNodes _).mpr h
  induction h with
  | literal hs => exact List.forall_mem_singleton.mpr (literal hs).places
  | name hs hreads => exact List.forall_mem_singleton.mpr (name hs hreads).places
  | qualified hs hname => exact List.forall_mem_singleton.mpr (qualified hs hname).places
  | data hs hcases => exact List.forall_mem_singleton.mpr (data hs hcases).places
  | interpolation hs hparts ih =>
    refine List.forall_mem_cons.mpr ⟨(interpolation hs hparts).places, fun m hm => ?_⟩
    obtain ⟨n, hn, hm⟩ := Part.mem_allNodes.mp hm
    exact ih n hn m hm
  | define hs htype hvalue ih =>
    exact List.forall_mem_cons.mpr ⟨(define hs htype hvalue).places, ih⟩
  | function hs hhead hbody ih =>
    exact List.forall_mem_cons.mpr ⟨(function hs hhead hbody).places, hall ih⟩
  | lambda hs hparams hret hbody ih =>
    exact List.forall_mem_cons.mpr ⟨(lambda hs hparams hret hbody).places, hall ih⟩
  | block hs hbody ih => exact List.forall_mem_cons.mpr ⟨(block hs hbody).places, hall ih⟩
  | call hs hcallee hargs ihcallee ihargs =>
    exact List.forall_mem_cons.mpr
      ⟨(call hs hcallee hargs).places, List.forall_mem_append.mpr ⟨ihcallee, hall ihargs⟩⟩
  | member hs hreceiver hmember ih =>
    exact List.forall_mem_cons.mpr ⟨(member hs hreceiver hmember).places, ih⟩
  | index hs hreceiver hindex ihreceiver ihindex =>
    exact List.forall_mem_cons.mpr
      ⟨(index hs hreceiver hindex).places, List.forall_mem_append.mpr ⟨ihreceiver, ihindex⟩⟩
  | assign hs hname hvalue ih =>
    exact List.forall_mem_cons.mpr ⟨(assign hs hname hvalue).places, ih⟩
  | assignIndex hs hreceiver hindex hvalue ihreceiver ihindex ihvalue =>
    refine List.forall_mem_cons.mpr ⟨(assignIndex hs hreceiver hindex hvalue).places, ?_⟩
    exact List.forall_mem_append.mpr ⟨ihreceiver, List.forall_mem_append.mpr ⟨ihindex, ihvalue⟩⟩
  | binary hs hleft hright ihleft ihright =>
    exact List.forall_mem_cons.mpr
      ⟨(binary hs hleft hright).places, List.forall_mem_append.mpr ⟨ihleft, ihright⟩⟩
  | unary hs hoperand ih => exact List.forall_mem_cons.mpr ⟨(unary hs hoperand).places, ih⟩
  | branch hs hcondition hthen helse ihcondition ihthen ihelse =>
    refine List.forall_mem_cons.mpr ⟨(branch hs hcondition hthen helse).places, ?_⟩
    refine List.forall_mem_append.mpr ⟨ihcondition, List.forall_mem_append.mpr ⟨ihthen, ?_⟩⟩
    exact (StepRule.admits_optionNodes _).mpr ihelse
  | loop hs hcondition hbody ihcondition ihbody =>
    exact List.forall_mem_cons.mpr
      ⟨(loop hs hcondition hbody).places, List.forall_mem_append.mpr ⟨ihcondition, ihbody⟩⟩
  | ret hs hvalue ih =>
    refine List.forall_mem_cons.mpr ⟨(ret hs hvalue).places, ?_⟩
    exact (StepRule.admits_optionNodes _).mpr ih
  | test hs hvalue ih => exact List.forall_mem_cons.mpr ⟨(test hs hvalue).places, ih⟩
  | array hs helements ih => exact List.forall_mem_cons.mpr ⟨(array hs helements).places, hall ih⟩

end

/-- All that is read from a text, and all that is reported about it, has a place in the text: between
two of its characters, in order, and inside of what it is a part of. The reports are those on the
form and those on the meaning, in whatever namespace the unit is checked. -/
theorem Parsed.lies_in_source (source : String) (ns : Namespace) (default : PackagePath) :
    (ofSource source).unit.Lies source.toList ∧
      (∀ e ∈ (ofSource source).errors, e.span.Fits source.toList) ∧
      ∀ d ∈ ((ofSource source).unit.check ns default).2.diagnostics, d.span.Fits source.toList := by
  obtain ⟨hunit, herrors⟩ := lies_ofSource source
  have himports : ∀ d ∈ (ofSource source).unit.imports, ∀ s ∈ d.places, s.Fits source.toList :=
    fun d hd => (hunit.imports d hd).places
  have hplaced := Check.relates_unit (Check.placesRule source.toList) himports
    (fun n hn => (hunit.items n hn).admits) (Context.init ns ((ofSource source).unit.path default))
    ⟨by simp [Context.init], by simp [Context.init, Program.init]⟩
  exact ⟨hunit, herrors, hplaced.reports⟩

end Tern
