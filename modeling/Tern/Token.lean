import Tern.Span

/-!
Tokens of the language: keywords, marks, and the four kinds of token that carry their own text.
-/

set_option autoImplicit false

namespace Tern

inductive Keyword
  | package | importWord | asWord | pub | fn | val | var | data
  | ifWord | elseWord | whileWord | returnWord | isWord | trueWord | falseWord
  deriving DecidableEq, Repr

namespace Keyword

def text : Keyword → String
  | package => "package"
  | importWord => "import"
  | asWord => "as"
  | pub => "pub"
  | fn => "fn"
  | val => "val"
  | var => "var"
  | data => "data"
  | ifWord => "if"
  | elseWord => "else"
  | whileWord => "while"
  | returnWord => "return"
  | isWord => "is"
  | trueWord => "true"
  | falseWord => "false"

def all : List Keyword :=
  [package, importWord, asWord, pub, fn, val, var, data, ifWord, elseWord, whileWord, returnWord,
    isWord, trueWord, falseWord]

def ofText? (word : String) : Option Keyword := all.find? fun k => k.text == word

end Keyword

inductive Mark
  | leftParen | rightParen | leftBrace | rightBrace | leftBracket | rightBracket
  | comma | colon | semicolon | dot | arrow | pipe | equal
  | equalEqual | notEqual | less | lessEqual | greater | greaterEqual
  | plus | minus | star | slash | percent | bang | andAnd | orOr
  deriving DecidableEq, Repr

namespace Mark

def text : Mark → String
  | leftParen => "("
  | rightParen => ")"
  | leftBrace => "\x7b"
  | rightBrace => "\x7d"
  | leftBracket => "["
  | rightBracket => "]"
  | comma => ","
  | colon => ":"
  | semicolon => ";"
  | dot => "."
  | arrow => "->"
  | pipe => "|"
  | equal => "="
  | equalEqual => "=="
  | notEqual => "!="
  | less => "<"
  | lessEqual => "<="
  | greater => ">"
  | greaterEqual => ">="
  | plus => "+"
  | minus => "-"
  | star => "*"
  | slash => "/"
  | percent => "%"
  | bang => "!"
  | andAnd => "&&"
  | orOr => "||"

/-- The marks of two characters come first, so that the first one that fits is the longest. -/
def all : List Mark :=
  [arrow, equalEqual, notEqual, lessEqual, greaterEqual, andAnd, orOr,
    leftParen, rightParen, leftBrace, rightBrace, leftBracket, rightBracket, comma, colon,
    semicolon, dot, pipe, equal, less, greater, plus, minus, star, slash, percent, bang]

/-- The longest mark that the text starts with. -/
def ofStart? (cs : List Char) : Option Mark := all.find? fun m => m.text.toList.isPrefixOf cs

end Mark

inductive Token
  | keyword (word : Keyword)
  | mark (mark : Mark)
  | float (text : String)
  | integer (text : String)
  | string (text : String)
  | identifier (text : String)
  deriving DecidableEq, Repr

namespace Token

/-- The token as it is written. -/
def text : Token → String
  | keyword k => k.text
  | mark m => m.text
  | float s | integer s | string s | identifier s => s

def startsExpression : Token → Bool
  | identifier _ | integer _ | float _ | string _ => true
  | keyword .trueWord | keyword .falseWord | keyword .ifWord | keyword .whileWord
  | keyword .returnWord | keyword .fn => true
  | mark .leftParen | mark .leftBrace | mark .leftBracket | mark .bang | mark .minus => true
  | _ => false

/-- A positive lower bound for the number of characters of the token. -/
def size : Token → Nat
  | keyword _ | mark _ => 1
  | float s | integer s | string s | identifier s => max 1 s.length

theorem size_pos (t : Token) : 0 < t.size := by
  cases t <;> simp only [size] <;> omega

end Token

/-- A token in its place. -/
structure Lexeme where
  token : Token
  span : Span
  /-- A line break stands between this token and what comes before it. -/
  startsLine : Bool
  deriving DecidableEq, Repr

/-- A lower bound for the number of characters of all tokens. -/
def Lexeme.totalSize : List Lexeme → Nat
  | [] => 0
  | l :: ls => l.token.size + totalSize ls

end Tern
