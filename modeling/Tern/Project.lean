import Tern.Compile
import Tern.Options.Read
import Tern.Text.Quoted

/-!
Projects: several units that are compiled into one namespace, with what is expected of them.
-/

set_option autoImplicit false

namespace Tern

structure SourceFile where
  name : String
  text : String
  deriving DecidableEq, Repr

inductive Expectation
  /-- The text of the lowered units; nothing is reported. -/
  | lowered (text : String)
  /-- The codes of all reports, in order. -/
  | diagnostics (codes : List String)
  deriving DecidableEq, Repr

structure Project where
  name : String
  units : List SourceFile
  expected : Expectation
  options : Options
  deriving DecidableEq, Repr

inductive Verdict
  | pass
  | fail (reason : String)
  deriving DecidableEq, Repr

namespace Project

structure Compiled where
  file : SourceFile
  result : Compilation

/-- Reports name the file they are about. -/
def optionsFor (p : Project) (file : SourceFile) : Options :=
  { p.options with fileName := file.name }

/-- Compiles units one after the other, up to the first one that does not compile. -/
def compileUnits (p : Project) (ns : Namespace) :
    List SourceFile → Except (SourceFile × CompileError) (List Compiled)
  | [] => .ok []
  | file :: files =>
    match compile (p.optionsFor file) file.text ns with
    | (.error e, _) => .error (file, e)
    | (.ok result, ns) => (p.compileUnits ns files).map (⟨file, result⟩ :: ·)

def Compiled.render (p : Project) (c : Compiled) : String :=
  c.result.render (p.optionsFor c.file) c.file.text

def Compiled.summaries (p : Project) (c : Compiled) : List String :=
  c.result.summaries (p.optionsFor c.file) c.file.text

def loweredText (units : List Compiled) : String :=
  String.join ((units.filterMap fun c => c.result.lowered).map LoweredProgram.text)

def codes (units : List Compiled) : List String :=
  units.flatMap fun c => c.result.reports.map Report.code

/-- Compares what was compiled with what is expected; blanks around the text do not count. -/
def judge (p : Project) (units : List Compiled) : Verdict :=
  match p.expected with
  | .lowered expected =>
    let reports := String.join (units.map (Compiled.render p))
    let actual := loweredText units
    if !reports.isEmpty then .fail ("unexpected diagnostics:\n" ++ reports)
    else if Text.trim actual == Text.trim expected then .pass
    else .fail ("LIR mismatch\n--- expected\n" ++ expected ++ "\n--- actual\n" ++ actual)
  | .diagnostics expected =>
    let actual := codes units
    if actual == expected then .pass
    else .fail ("expected diagnostics " ++ Text.quotedList expected ++ ", found "
      ++ Text.quotedList actual ++ "\n"
      ++ "\n".intercalate (units.flatMap (Compiled.summaries p)))

def run (p : Project) : Verdict :=
  match p.compileUnits p.options.freshNamespace p.units with
  | .error (file, e) =>
    .fail (file.name ++ " failed to compile:\n" ++ e.render (p.optionsFor file) file.text)
  | .ok units => p.judge units

end Project

end Tern
