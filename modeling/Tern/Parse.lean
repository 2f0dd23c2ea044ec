import Tern.Parse.Expr

/-!
Reading a whole source unit: the package line, the imports and the items. Reading never stops at an
error; it is reported, and reading goes on at the next line.
-/

set_option autoImplicit false

namespace Tern

namespace Parse

open Cursor

/-- `module/package` after a keyword. -/
def packagePath (c : Cursor) : Outcome 1 c PackagePath :=
  (c.expectName "module name").andThen fun (module, _) d _ =>
    ((d.expect (.mark .slash)).andThen fun _ e _ =>
      ((e.expectName "package name").map fun (package, _) => ⟨module, package⟩).relax).relax

def packageDecl (c : Cursor) : Outcome 1 c PackageDecl :=
  (c.expect (.keyword .package)).andThen fun start d _ =>
    (packagePath d).relax.thenMaybe fun path e _ => .done ⟨path, e.spanFrom start⟩

/-- A name after `as`, if there is an `as`. -/
def nameAfterAs (what : String) (c : Cursor) : Outcome 0 c (Option String) :=
  match c.eat? (.keyword .asWord) with
  | none => .done none
  | some ⟨d, hd⟩ =>
    ((d.expectName what).map fun (name, _) => some name).relax.weaken (weight_le hd)

def importEntry (c : Cursor) : Outcome 1 c ImportEntry :=
  (c.expectName "imported name").andThen fun (name, span) d _ =>
    (nameAfterAs "local name" d).thenMaybe fun newName e _ => .done ⟨name, newName, e.spanFrom span⟩

/-- Imported names in braces, if there is a brace. -/
def importEntries (c : Cursor) : Outcome 0 c (List ImportEntry) :=
  match c.eat? (.mark .leftBrace) with
  | none => .done []
  | some ⟨d, hd⟩ =>
    (commaList .rightBrace d fun e _ => importEntry e).relax.weaken (weight_le hd)

def importDecl (c : Cursor) : Outcome 1 c ImportDecl :=
  (c.expect (.keyword .importWord)).andThen fun start d _ =>
    (packagePath d).relax.thenMaybe fun path e _ =>
      (nameAfterAs "package alias" e).thenMaybe fun packageName f _ =>
        (importEntries f).thenMaybe fun entries g _ =>
          .done ⟨path, packageName, entries, g.spanFrom start⟩

/-- Import declarations, as long as the next token starts one. -/
def importDecls (c : Cursor) : List ImportDecl × Cursor :=
  if h : c.isAt (.keyword .importWord) = true then
    match c.statement (weight_pos_of_isAt h) (importDecl c) with
    | (decl?, ⟨d, _⟩) =>
      let (decls, e) := importDecls d
      (decl?.toList ++ decls, e)
  else ([], c)
termination_by c.weight

/-- Items up to the end; a closing brace without an open one is reported and passed. -/
def items (c : Cursor) : List Node × Cursor :=
  if h : c.isAtEnd = true then ([], c)
  else
    have hpos : 0 < c.weight := weight_pos_of_not_isAtEnd (by simpa using h)
    if c.isAtMark .rightBrace then
      have : (c.reportExpected "declaration or expression").advance.weight < c.weight :=
        weight_advance_lt (c := c.reportExpected "declaration or expression") hpos
      items (c.reportExpected "declaration or expression").advance
    else
      match c.statement hpos (statement c) with
      | (node?, ⟨d, _⟩) =>
        let (nodes, e) := items d
        (node?.toList ++ nodes, e)
termination_by c.weight

/-- The package line, if the first token starts one. -/
def packageLine (c : Cursor) : Option PackageDecl × Cursor :=
  if c.isAt (.keyword .package) then
    let r := packageDecl c
    (r.value, r.cursor)
  else (none, c)

def sourceUnit (c : Cursor) : SourceUnit × Cursor :=
  let (package, c) := packageLine c
  let (imports, c) := importDecls c.separators.val
  let (items, c) := items c
  (⟨package, imports, items⟩, c)

end Parse

/-- A unit, as far as it could be read, and what is wrong with its form. -/
structure Parsed where
  unit : SourceUnit
  errors : List ParseError

namespace Parsed

def isOk (p : Parsed) : Bool := p.errors.isEmpty

def ofSource (source : String) : Parsed :=
  let (unit, c) := Parse.sourceUnit (Parse.Cursor.start source.toList 0)
  ⟨unit, c.errors⟩

end Parsed

end Tern
