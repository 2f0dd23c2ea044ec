import Tern.Span

/-!
What can be wrong with the form of a source text, and the words in which it is reported.
-/

set_option autoImplicit false

namespace Tern

inductive NumberKind
  | integer
  | float
  deriving DecidableEq, Repr

def NumberKind.text : NumberKind → String
  | .integer => "integer"
  | .float => "float"

inductive ParseError
  | unrecognized (text : String) (span : Span)
  | unexpected (expected found : String) (span : Span)
  | endOfInput (expected : String) (span : Span)
  | invalidLiteral (kind : NumberKind) (text : String) (span : Span)
  | unclosedInterpolation (span : Span)
  deriving DecidableEq, Repr

namespace ParseError

def span : ParseError → Span
  | unrecognized _ s | unexpected _ _ s | endOfInput _ s | invalidLiteral _ _ s
  | unclosedInterpolation s => s

def code : ParseError → String
  | unrecognized .. => "parser::unrecognized_input"
  | unexpected .. => "parser::unexpected_token"
  | endOfInput .. => "parser::unexpected_eof"
  | invalidLiteral .. => "parser::invalid_literal"
  | unclosedInterpolation .. => "parser::unterminated_interpolation"

def message : ParseError → String
  | unrecognized text _ => "unrecognized input `" ++ text ++ "`"
  | unexpected expected found _ => "expected " ++ expected ++ ", found `" ++ found ++ "`"
  | endOfInput expected _ => "expected " ++ expected ++ ", found end of file"
  | invalidLiteral kind text _ => "invalid " ++ kind.text ++ " literal `" ++ text ++ "`"
  | unclosedInterpolation _ => "unterminated interpolation"

def label : ParseError → String
  | unrecognized .. => "not a valid token"
  | unexpected expected _ _ => "expected " ++ expected ++ " here"
  | endOfInput .. => "input ends here"
  | invalidLiteral .. => "cannot be represented"
  | unclosedInterpolation .. => "opened here"

def help? : ParseError → Option String
  | unclosedInterpolation _ => some "close the expression with `\x7d`"
  | _ => none

end ParseError

end Tern
