import Tern.Check
import Tern.Options
import Tern.Parse
import Tern.Program.Lower
import Tern.Report

/-!
Compiling a source text into a namespace. A text that does not parse leaves the namespace as it was;
one that does adds its declarations even if something is reported, so that a later unit can refer to
them.
-/

set_option autoImplicit false

namespace Tern

/-- Why there is nothing to show for a source. -/
inductive CompileError
  | parse (errors : List ParseError)
  | check (fault : CheckFault)
  | lower (fault : LowerFault)

structure Compilation where
  program : Program
  /-- Only a program without reports is lowered. -/
  lowered : Option LoweredProgram
  diagnostics : List Diagnostic

namespace CompileError

def message : CompileError → String
  | parse errors => "source has " ++ toString errors.length ++ " parse error(s)"
  | check fault => fault.message
  | lower fault => fault.message

def render (options : Options) (source : String) (e : CompileError) : String :=
  match e with
  | parse errors => Report.renderAll options.fileName source (errors.map ParseError.report)
  | other => "internal compiler error: " ++ other.message

end CompileError

namespace Compilation

def isOk (c : Compilation) : Bool := c.diagnostics.isEmpty

def reports (c : Compilation) : List Report := c.diagnostics.map Diagnostic.report

def render (options : Options) (source : String) (c : Compilation) : String :=
  Report.renderAll options.fileName source c.reports

/-- A line for each report. -/
def summaries (options : Options) (source : String) (c : Compilation) : List String :=
  c.reports.map (Report.summary options.fileName source)

/-- What becomes of a checked unit. -/
def ofContext (c : Context) : Except CompileError Compilation :=
  if c.diagnostics.isEmpty then
    match c.program.lower with
    | .ok lowered => .ok ⟨c.program, some lowered, []⟩
    | .error fault => .error (.lower fault)
  else .ok ⟨c.program, none, c.diagnostics⟩

end Compilation

/-- The result, and the namespace with the declarations of the unit. -/
def compile (options : Options) (source : String) (ns : Namespace) :
    Except CompileError Compilation × Namespace :=
  let parsed := Parsed.ofSource source
  if parsed.isOk then
    match parsed.unit.check ns options.defaultPath with
    | (.ok _, c) => (Compilation.ofContext c, c.ns)
    | (.error fault, c) => (.error (.check fault), c.ns)
  else (.error (.parse parsed.errors), ns)

/-- A namespace and options that are kept from one unit to the next. -/
structure Session where
  ns : Namespace
  options : Options

namespace Session

def init (options : Options) : Session := ⟨options.freshNamespace, options⟩

def compile (s : Session) (source : String) : Except CompileError Compilation × Session :=
  let (result, ns) := Tern.compile s.options source s.ns
  (result, { s with ns })

end Session

end Tern
