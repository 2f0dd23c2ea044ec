import Tern.Parse.TypeRef
import Tern.Parse.Template

/-!
Reading expressions and statements. Binary operators have six levels; all of them group to the left,
and none is continued on a new line. Assignment groups to the right.
-/

set_option autoImplicit false

namespace Tern.Parse

open Cursor

inductive Level
  | or | and | equality | comparison | sum | product
  deriving DecidableEq, Repr

namespace Level

def height : Level → Nat
  | or => 5
  | and => 4
  | equality => 3
  | comparison => 2
  | sum => 1
  | product => 0

theorem height_le (l : Level) : l.height ≤ 5 := by cases l <;> simp [height]

def operator? : Level → Mark → Option BinaryOp
  | or, .orOr => some .or
  | and, .andAnd => some .and
  | equality, .equalEqual => some .eq
  | equality, .notEqual => some .notEq
  | comparison, .less => some .lt
  | comparison, .lessEqual => some .ltEq
  | comparison, .greater => some .gt
  | comparison, .greaterEqual => some .gtEq
  | sum, .plus => some .add
  | sum, .minus => some .sub
  | product, .star => some .mul
  | product, .slash => some .div
  | product, .percent => some .rem
  | _, _ => none

end Level

/-- The operator of the level that comes next on the same line. -/
def operator? (l : Level) (c : Cursor) :
    Option (BinaryOp × { d : Cursor // d.weight < c.weight }) :=
  if c.isAtLineStart then none
  else
    match h : c.peek? with
    | some (.mark m) =>
      (l.operator? m).map fun op => (op, ⟨c.advance, weight_advance_lt (weight_pos_of_peek? h)⟩)
    | _ => none

def signOperator? (c : Cursor) : Option (UnaryOp × { d : Cursor // d.weight < c.weight }) :=
  match c.eat? (.mark .bang), c.eat? (.mark .minus) with
  | some d, _ => some (.not, d)
  | none, some d => some (.negate, d)
  | none, none => none

/-- A path `module/package.name` written without blanks. -/
def qualifiedName? (c : Cursor) : Option (Node × { d : Cursor // d.weight < c.weight }) :=
  match h : c.rest with
  | ⟨.identifier m, s₁, _⟩ :: ⟨.mark .slash, s₂, _⟩ :: ⟨.identifier p, s₃, _⟩ ::
      ⟨.mark .dot, s₄, _⟩ :: ⟨.identifier n, s₅, _⟩ :: rest =>
    if s₁.stop = s₂.start ∧ s₂.stop = s₃.start ∧ s₃.stop = s₄.start ∧ s₄.stop = s₅.start then
      some (.qualified ⟨m, p⟩ n s₅ (s₁.join s₅),
        ⟨{ c with rest, lastStop := s₅.stop }, by
          have := Token.size_pos (.identifier m)
          simp only [weight, h, Lexeme.totalSize]
          omega⟩)
    else none
  | _ => none

/-- The digits of a number without underscores. -/
def digitsOf (text : String) : List Char := text.toList.filter Piece.isDigit

def naturalOf (digits : List Char) : Nat :=
  digits.foldl (fun n d => n * 10 + (d.toNat - '0'.toNat)) 0

/-- The largest integer of the language, in 64 bits with a sign. -/
def largestInteger : Nat := 9223372036854775807

def integerOf? (text : String) : Option Int :=
  let n := naturalOf (digitsOf text)
  if n ≤ largestInteger then some n else none

def floatOf (text : String) : Binary64 :=
  let fraction := text.toList.dropWhile (· ≠ '.')
  .ofDecimal false (naturalOf (digitsOf text)) (-((fraction.filter Piece.isDigit).length : Int))

/-- The parts of a string, in order, and the errors inside its holes. -/
def fill {n : Nat}
    (run : (code : List Char) → Nat → code.length < n → Option Node × List ParseError)
    (holes : List (String × Hole)) (h : ∀ x ∈ holes, x.2.size < n) :
    List Part × List ParseError :=
  match holes with
  | [] => ([], [])
  | (text, hole) :: rest =>
    let more := fill run rest fun x hx => h x (List.mem_cons_of_mem _ hx)
    let before := if text.isEmpty then [] else [Part.text text]
    match hole, h (text, hole) List.mem_cons_self with
    | .name name span, _ => (before ++ Part.expr (.name name span) :: more.1, more.2)
    | .code code offset, hlt =>
      let (node?, errors) := run code offset hlt
      (before ++ (node?.map Part.expr).toList ++ more.1, errors ++ more.2)

/-- A string without holes is a literal. -/
def stringNode (span : Span) (parts : List Part) (tail : String) : Node :=
  if parts.isEmpty then .literal (.string tail) span
  else .interpolation (if tail.isEmpty then parts else parts ++ [.text tail]) span

/-- The node that assigns `value` to `target`, if `target` can be assigned to. -/
def assignTo? (target value : Node) : Option Node :=
  let span := target.span.join value.span
  match target with
  | .name name nameSpan => some (.assign name nameSpan value span)
  | .index receiver index _ => some (.assignIndex receiver index value span)
  | _ => none

def caseField (c : Cursor) : Outcome 1 c FieldDecl :=
  let start := c.currentSpan
  match c.skip (.keyword .pub) with
  | (isPublic, ⟨d, hd⟩) =>
    Outcome.weaken hd <|
      (d.expectName "field name").andThen fun (name, _) e _ =>
        ((e.expect (.mark .colon)).andThen fun _ f _ =>
          (typeRef f).relax.thenMaybe fun type g _ =>
            .done ⟨name, isPublic, type, g.spanFrom start⟩).relax

def caseDecl (c : Cursor) : Outcome 1 c CaseDecl :=
  let start := c.currentSpan
  match c.skip (.keyword .pub) with
  | (isPublic, ⟨d, hd⟩) =>
    Outcome.weaken hd <|
      (d.expectName "case name").andThen fun (name, _) e _ =>
        match e.eat? (.mark .leftParen) with
        | none => .done ⟨name, isPublic, [], e.spanFrom start⟩
        | some ⟨f, hf⟩ =>
          Outcome.weaken (weight_le hf) <|
            (commaList .rightParen f fun g _ => caseField g).relax.thenMaybe fun fields g _ =>
              .done ⟨name, isPublic, fields, g.spanFrom start⟩

def caseDecls (c : Cursor) : Outcome 1 c (List CaseDecl) :=
  (caseDecl c).andThen fun first d _ =>
    match d.eat? (.mark .pipe) with
    | none => .done [first]
    | some ⟨e, he⟩ => ((caseDecls e).map (first :: ·)).relax.weaken (weight_le he)
termination_by c.weight

/-- A `data` declaration; `start` is where it starts, at its modifier if it has one. -/
def dataDecl (isPublic : Bool) (start : Span) (c : Cursor) : Outcome 1 c Node :=
  (c.expect (.keyword .data)).andThen fun _ d _ =>
    ((d.expectName "type name").andThen fun (name, _) e _ =>
      (typeParams e).thenMaybe fun typeParams f _ =>
        ((f.expect (.mark .equal)).andThen fun _ g _ =>
          (caseDecls g).relax.thenMaybe fun cases i _ =>
            .done (.data ⟨name, isPublic, typeParams, cases⟩ (i.spanFrom start))).relax).relax

mutual

def statement (c : Cursor) : Outcome 1 c Node :=
  let start := c.currentSpan
  match c.skip (.keyword .pub) with
  | (isPublic, ⟨d, hd⟩) =>
    Outcome.weaken hd <|
      match d.rest with
      | ⟨.keyword .fn, _, _⟩ :: ⟨.identifier _, _, _⟩ :: _ => functionDecl isPublic start d
      | ⟨.keyword .val, _, _⟩ :: _ => variableDecl isPublic false start (.keyword .val) d
      | ⟨.keyword .var, _, _⟩ :: _ => variableDecl isPublic true start (.keyword .var) d
      | ⟨.keyword .data, _, _⟩ :: _ => dataDecl isPublic start d
      | _ =>
        if isPublic then
          .fail (d.reportExpected "`fn`, `val`, `var` or `data` after `pub`") (Nat.le_refl _)
        else assignment d
termination_by 32 * c.weight + 25

def functionDecl (isPublic : Bool) (start : Span) (c : Cursor) : Outcome 1 c Node :=
  (c.expect (.keyword .fn)).andThen fun _ d _ =>
    ((d.expectName "function name").andThen fun (name, _) e _ =>
      (typeParams e).thenMaybe fun typeParams f _ =>
        ((params f).andThen fun params g _ =>
          (typeAfterColon g).thenMaybe fun returnType i _ =>
            (blockBody i).relax.thenMaybe fun (body, _) j _ =>
              .done (.function ⟨name, isPublic, typeParams, params, returnType⟩ body
                (j.spanFrom start))).relax).relax
termination_by 32 * c.weight + 24

def variableDecl (isPublic isMutable : Bool) (start : Span) (word : Token) (c : Cursor) :
    Outcome 1 c Node :=
  (c.expect word).andThen fun _ d _ =>
    ((d.expectName "variable name").andThen fun (name, _) e _ =>
      (typeAfterColon e).thenMaybe fun type f _ =>
        ((f.expect (.mark .equal)).andThen fun _ g _ =>
          (binary .or g).relax.thenMaybe fun value i _ =>
            .done (.define ⟨name, isPublic, isMutable, type⟩ value (i.spanFrom start))).relax).relax
termination_by 32 * c.weight + 24
decreasing_by all_goals (try simp only [Level.height]); all_goals omega

def assignment (c : Cursor) : Outcome 1 c Node :=
  (binary .or c).andThen fun target d _ =>
    match d.eat? (.mark .equal) with
    | none => .done target
    | some ⟨e, he⟩ =>
      Outcome.weaken (weight_le he) <|
        (assignment e).relax.thenMaybe fun value f _ =>
          match assignTo? target value with
          | some node => .done node
          | none =>
            .fail (f.report (.unexpected "assignable expression" target.describe target.span))
              (Nat.le_refl _)
termination_by 32 * c.weight + 22
decreasing_by all_goals (try simp only [Level.height]); all_goals omega

def binary (l : Level) (c : Cursor) : Outcome 1 c Node :=
  (operand l c).andThen fun left d _ => binaryTail l left d
termination_by 32 * c.weight + 6 + 3 * l.height
decreasing_by all_goals omega

def binaryTail (l : Level) (left : Node) (c : Cursor) : Outcome 0 c Node :=
  match operator? l c with
  | none => .done left
  | some (op, ⟨d, hd⟩) =>
    have := l.height_le
    Outcome.weaken (weight_le hd) <|
      (operand l d).relax.thenMaybe fun right e _ =>
        binaryTail l (.binary op left right (left.span.join right.span)) e
termination_by 32 * c.weight
decreasing_by all_goals omega

def operand (l : Level) (c : Cursor) : Outcome 1 c Node :=
  match l with
  | .or => binary .and c
  | .and => binary .equality c
  | .equality => binary .comparison c
  | .comparison => caseTest c
  | .sum => binary .product c
  | .product => unary c
termination_by 32 * c.weight + 5 + 3 * l.height
decreasing_by all_goals (try simp only [Level.height]); all_goals omega

/-- A sum, or a test for its case. -/
def caseTest (c : Cursor) : Outcome 1 c Node :=
  (binary .sum c).andThen fun value d _ =>
    if d.isAtLineStart then .done value
    else
      match d.eat? (.keyword .isWord) with
      | none => .done value
      | some ⟨e, he⟩ =>
        ((e.expectName "case name").andThen fun (case, caseSpan) _ _ =>
          .done (.test value case (value.span.join caseSpan))).relax.weaken (weight_le he)
termination_by 32 * c.weight + 10
decreasing_by all_goals (try simp only [Level.height]); all_goals omega

def unary (c : Cursor) : Outcome 1 c Node :=
  match signOperator? c with
  | none => suffixed c
  | some (op, ⟨d, hd⟩) =>
    Outcome.weaken (weight_le hd) <|
      (unary d).andThen fun operand _ _ =>
        .done (.unary op operand (c.currentSpan.join operand.span))
termination_by 32 * c.weight + 4

/-- A primary expression with calls, indices and members. -/
def suffixed (c : Cursor) : Outcome 1 c Node :=
  (primary c).andThen fun node d _ => suffixTail node d
termination_by 32 * c.weight + 3

def suffixTail (node : Node) (c : Cursor) : Outcome 0 c Node :=
  match c.eat? (.mark .leftParen), c.eat? (.mark .leftBracket), c.eat? (.mark .dot) with
  | some ⟨d, hd⟩, _, _ =>
    if c.isAtLineStart then .done node
    else
      Outcome.weaken (weight_le hd) <|
        (commaList .rightParen d fun e _ => binary .or e).relax.thenMaybe fun args e _ =>
          suffixTail (.call node args (e.spanFrom node.span)) e
  | none, some ⟨d, hd⟩, _ =>
    if c.isAtLineStart then .done node
    else
      Outcome.weaken (weight_le hd) <|
        (binary .or d).relax.thenMaybe fun index e _ =>
          (e.expect (.mark .rightBracket)).relax.thenMaybe fun _ f _ =>
            suffixTail (.index node index (f.spanFrom node.span)) f
  | none, none, some ⟨d, hd⟩ =>
    Outcome.weaken (weight_le hd) <|
      (d.expectName "member name").relax.thenMaybe fun (member, memberSpan) e _ =>
        suffixTail (.member node member memberSpan (node.span.join memberSpan)) e
  | none, none, none => .done node
termination_by 32 * c.weight
decreasing_by all_goals (try simp only [Level.height]); all_goals omega

def primary (c : Cursor) : Outcome 1 c Node :=
  let span := c.currentSpan
  match h : c.peek? with
  | none => .fail (c.reportExpected "expression") (Nat.le_refl _)
  | some token =>
    have hlt : c.advance.weight < c.weight := weight_advance_lt (weight_pos_of_peek? h)
    let take (node : Node) : Outcome 1 c Node := .found node c.advance hlt
    match token, h with
    | .integer text, _ =>
      match integerOf? text with
      | some n => take (.literal (.int n) span)
      | none =>
        .found (.literal (.int 0) span) (c.advance.report (.invalidLiteral .integer text span)) hlt
    | .float text, _ => take (.literal (.float (floatOf text)) span)
    | .string raw, h =>
      have : raw.length ≤ c.weight :=
        Nat.le_trans (Nat.le_max_right 1 raw.length) (size_le_weight_of_peek? h)
      let template := Template.ofToken raw span.start
      let run (code : List Char) (offset : Nat) (_ : code.length < raw.length) :
          Option Node × List ParseError :=
        have := Cursor.weight_start_le code offset
        let inner := binary .or (Cursor.start code offset)
        let closed :=
          if inner.value.isSome && !inner.cursor.isAtEnd then inner.cursor.reportExpected "`\x7d`"
          else inner.cursor
        (inner.value, closed.errors)
      let (parts, errors) := fill run template.holes fun _ => Template.size_lt_of_mem_ofToken
      let unclosed := template.unclosed.map fun p => ParseError.unclosedInterpolation ⟨p, p + 2⟩
      .found (stringNode span parts template.tail)
        (c.advance.reportAll (errors ++ unclosed.toList)) hlt
    | .keyword .trueWord, _ => take (.literal (.bool true) span)
    | .keyword .falseWord, _ => take (.literal (.bool false) span)
    | .identifier name, _ =>
      if name = "unit" then take (.literal .unit span)
      else
        match qualifiedName? c with
        | some (node, ⟨d, hd⟩) => .found node d hd
        | none => take (.name name span)
    | .mark .leftParen, _ =>
      Outcome.weaken (weight_le hlt) <|
        (binary .or c.advance).andThen fun inner d _ =>
          ((d.expect (.mark .rightParen)).map fun _ => inner).relax
    | .mark .leftBrace, _ => (blockBody c).map fun (body, span) => .block body span
    | .mark .leftBracket, _ =>
      Outcome.weaken (weight_le hlt) <|
        (commaList .rightBracket c.advance fun d _ => binary .or d).andThen fun elements d _ =>
          .done (.array elements (d.spanFrom span))
    | .keyword .ifWord, _ => branch c
    | .keyword .whileWord, _ =>
      (c.expect (.keyword .whileWord)).andThen fun start d _ =>
        (condition d).thenMaybe fun condition e _ =>
          (blockBody e).relax.thenMaybe fun (body, bodySpan) f _ =>
            .done (.loop condition (.block body bodySpan) (f.spanFrom start))
    | .keyword .returnWord, _ =>
      (c.expect (.keyword .returnWord)).andThen fun start d _ =>
        if !d.isAtLineStart && d.peek?.any Token.startsExpression then
          (binary .or d).relax.thenMaybe fun value e _ =>
            .done (.ret (some value) (e.spanFrom start))
        else .done (.ret none (d.spanFrom start))
    | .keyword .fn, _ =>
      (c.expect (.keyword .fn)).andThen fun start d _ =>
        ((params d).andThen fun params e _ =>
          (typeAfterColon e).thenMaybe fun returnType f _ =>
            (blockBody f).relax.thenMaybe fun (body, _) g _ =>
              .done (.lambda params returnType body (g.spanFrom start))).relax
    | _, _ => .fail (c.reportExpected "expression") (Nat.le_refl _)
termination_by 32 * c.weight + 2
decreasing_by all_goals (try simp only [Level.height]); all_goals omega

def condition (c : Cursor) : Outcome 0 c Node :=
  ((c.expect (.mark .leftParen)).andThen fun _ d _ =>
    (binary .or d).relax.thenMaybe fun condition e _ =>
      ((e.expect (.mark .rightParen)).map fun _ => condition).relax).relax
termination_by 32 * c.weight
decreasing_by all_goals (try simp only [Level.height]); all_goals omega

def branch (c : Cursor) : Outcome 1 c Node :=
  (c.expect (.keyword .ifWord)).andThen fun start d _ =>
    (condition d).thenMaybe fun condition e _ =>
      (blockBody e).relax.thenMaybe fun (body, bodySpan) f _ =>
        let thenBranch := Node.block body bodySpan
        match f.eat? (.keyword .elseWord) with
        | none => .done (.branch condition thenBranch none (f.spanFrom start))
        | some ⟨g, hg⟩ =>
          Outcome.weaken (weight_le hg) <|
            let other :=
              if g.isAt (.keyword .ifWord) then branch g
              else (blockBody g).map fun (body, span) => Node.block body span
            other.relax.thenMaybe fun elseBranch i _ =>
              .done (.branch condition thenBranch (some elseBranch) (i.spanFrom start))
termination_by 32 * c.weight + 1

def blockBody (c : Cursor) : Outcome 1 c (List Node × Span) :=
  (c.expect (.mark .leftBrace)).andThen fun start d _ =>
    let e := d.separators
    have he := e.property
    match e.val.statements fun f _ => statement f with
    | (body, ⟨f, hf⟩) =>
      Outcome.weaken (Nat.le_trans hf he) <|
        (f.expect (.mark .rightBrace)).relax.thenMaybe fun _ g _ =>
          .done (body, g.spanFrom start)
termination_by 32 * c.weight + 1

end

def expression (c : Cursor) : Outcome 1 c Node := binary .or c

end Tern.Parse
