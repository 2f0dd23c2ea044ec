import Tern.Tree
import Tern.Parse.Cursor

/-!
Reading types, type parameters and parameter lists.
-/

set_option autoImplicit false

namespace Tern.Parse

open Cursor

/-- The case after a type, as in `Option.Just`. -/
def selectedCase (start : Span) (type : TypeRef) (c : Cursor) : Outcome 0 c TypeRef :=
  match c.eat? (.mark .dot) with
  | none => .done type
  | some ⟨d, hd⟩ =>
    ((d.expectName "case name").andThen fun (case, _) e _ =>
      .done (.selected type case (e.spanFrom start))).relax.weaken (weight_le hd)

/-- A function type, or a name with its arguments and case. A bracket on a new line is not an
argument list. -/
def typeRef (c : Cursor) : Outcome 1 c TypeRef :=
  let start := c.currentSpan
  match c.eat? (.mark .leftParen) with
  | some ⟨d, hd⟩ =>
    Outcome.weaken (weight_le hd) <|
      (commaList .rightParen d fun e _ => typeRef e).andThen fun params e _ =>
        ((e.expect (.mark .arrow)).andThen fun _ f _ =>
          (typeRef f).relax.thenMaybe fun ret g _ =>
            .done (.function params ret (g.spanFrom start))).relax
  | none =>
    (c.expectName "type").andThen fun (name, span) d _ =>
      let base := TypeRef.named name span
      if d.isAtLineStart then selectedCase start base d
      else
        match d.eat? (.mark .leftBracket) with
        | none => selectedCase start base d
        | some ⟨e, he⟩ =>
          Outcome.weaken (weight_le he) <|
            (commaList .rightBracket e fun f _ => typeRef f).relax.thenMaybe fun args f _ =>
              selectedCase start (.applied base args (f.spanFrom start)) f
termination_by c.weight
decreasing_by all_goals omega

def typeAfterColon (c : Cursor) : Outcome 0 c (Option TypeRef) :=
  match c.eat? (.mark .colon) with
  | none => .done none
  | some ⟨d, hd⟩ => ((typeRef d).map some).relax.weaken (weight_le hd)

def typeParams (c : Cursor) : Outcome 0 c (List String) :=
  match c.eat? (.mark .leftBracket) with
  | none => .done []
  | some ⟨d, hd⟩ =>
    (commaList .rightBracket d fun e _ =>
      (e.expectName "type parameter").map (·.1)).relax.weaken (weight_le hd)

def param (c : Cursor) : Outcome 1 c Param :=
  (c.expectName "parameter name").andThen fun (name, span) d _ =>
    ((d.expect (.mark .colon)).andThen fun _ e _ =>
      (typeRef e).relax.thenMaybe fun type f _ => .done ⟨name, type, f.spanFrom span⟩).relax

def params (c : Cursor) : Outcome 1 c (List Param) :=
  (c.expect (.mark .leftParen)).andThen fun _ d _ =>
    (commaList .rightParen d fun e _ => param e).relax

end Tern.Parse
