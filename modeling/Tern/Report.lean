import Tern.Diagnostic
import Tern.Parse.Error
import Tern.Report.Excerpt

/-!
Reports for a reader: what is wrong, with the place in the source.
-/

set_option autoImplicit false

namespace Tern

structure Report where
  code : String
  message : String
  /-- What stands under the place. -/
  label : String
  help : Option String
  span : Span
  deriving DecidableEq, Repr

def ParseError.report (e : ParseError) : Report := ⟨e.code, e.message, e.label, e.help?, e.span⟩

def Diagnostic.report (d : Diagnostic) : Report :=
  ⟨d.problem.code, d.problem.message, d.problem.label, none, d.span⟩

namespace Report

open Text (blanks alignRight ofLines)

/-- The report on one line. -/
def summary (file source : String) (r : Report) : String :=
  file ++ ":" ++ (Position.ofOffset source r.span.start).text ++ ": " ++ r.message

/-- A line under the columns from `start` to `stop`, with a mark in the middle. -/
def underline (mark : String) (start stop : Nat) : String :=
  let middle := (start + stop) / 2
  let bar (n : Nat) := String.ofList (List.replicate n '─')
  blanks start ++ bar (middle - start) ++ mark ++ bar (stop - (middle + 1))

/-- A line with its number, and under it the mark if it holds the place. A place takes at least one
column. -/
def lineLayout (width : Nat) (r : Report) (line : ExcerptLine) : List String :=
  let margin := blanks (width + 2)
  let start := line.column r.span.start
  let stop := max (line.column r.span.stop) (start + 1)
  let mark := if r.span.start < r.span.stop then "┬" else "▲"
  (" " ++ alignRight width (toString line.number) ++ " │ "
      ++ String.ofList (Text.expandTabs line.text))
    :: if line.Holds r.span then
      [margin ++ "· " ++ underline mark start stop,
        margin ++ "· " ++ blanks ((start + stop) / 2) ++ "╰── " ++ r.label]
    else []

/-- The lines of the whole report. A place that goes over several lines is not marked. -/
def layout (file source : String) (r : Report) : List String :=
  let shown := Excerpt.around source r.span
  let margin := blanks (shown.numberWidth + 2)
  [r.code, "", "  × " ++ r.message, margin ++ "╭─[" ++ file ++ ":" ++ shown.place.text ++ "]"]
    ++ shown.lines.flatMap (lineLayout shown.numberWidth r)
    ++ [margin ++ "╰────"]
    ++ (r.help.map ("  help: " ++ ·)).toList

def render (file source : String) (r : Report) : String := ofLines (r.layout file source)

/-- Several reports, with an empty line between them. -/
def renderAll (file source : String) (rs : List Report) : String :=
  "\n".intercalate (rs.map (render file source))

end Report

end Tern
