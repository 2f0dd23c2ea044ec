import Mathlib.Data.List.Basic
import Tern.Parse

/-!
Moving a text inside of a longer one. All places move by the same number of bytes, and nothing else
changes; this holds for the tokens of a text and for the holes of its strings.
-/

set_option autoImplicit false

namespace Tern

/-- What has places in a text, and moves with the text. -/
class Shift (α : Type) where
  /-- Moves all places by a number of bytes. -/
  shift : Nat → α → α

export Shift (shift)

section Instances

variable {α β : Type} [Shift α] [Shift β]

instance : Shift String := ⟨fun _ s => s⟩

instance : Shift PackagePath := ⟨fun _ p => p⟩

instance : Shift (Option α) := ⟨fun k => Option.map (shift k)⟩

instance : Shift (List α) := ⟨fun k => List.map (shift k)⟩

instance : Shift (α × β) := ⟨fun k x => (shift k x.1, shift k x.2)⟩

@[simp] theorem shift_string (k : Nat) : (shift k : String → String) = id := rfl

@[simp] theorem shift_path (k : Nat) : (shift k : PackagePath → PackagePath) = id := rfl

@[simp] theorem shift_option (k : Nat) (a : Option α) : shift k a = a.map (shift k) := rfl

@[simp] theorem shift_list (k : Nat) (as : List α) : shift k as = as.map (shift k) := rfl

@[simp] theorem shift_prod (k : Nat) (a : α) (b : β) : shift k (a, b) = (shift k a, shift k b) := rfl

end Instances

/-! Places and trees -/

def Span.shift (k : Nat) (s : Span) : Span := ⟨s.start + k, s.stop + k⟩

instance : Shift Span := ⟨Span.shift⟩

@[simp] theorem shift_span (k : Nat) : (shift k : Span → Span) = Span.shift k := rfl

theorem Span.shift_join (k : Nat) (s t : Span) : (s.join t).shift k = (s.shift k).join (t.shift k) := by
  simp only [Span.shift, Span.join, Span.mk.injEq]
  omega

def Lexeme.shift (k : Nat) (l : Lexeme) : Lexeme := { l with span := l.span.shift k }

instance : Shift Lexeme := ⟨Lexeme.shift⟩

@[simp] theorem shift_lexeme (k : Nat) : (shift k : Lexeme → Lexeme) = Lexeme.shift k := rfl

def ParseError.shift (k : Nat) : ParseError → ParseError
  | unrecognized text s => .unrecognized text (s.shift k)
  | unexpected expected found s => .unexpected expected found (s.shift k)
  | endOfInput expected s => .endOfInput expected (s.shift k)
  | invalidLiteral kind text s => .invalidLiteral kind text (s.shift k)
  | unclosedInterpolation s => .unclosedInterpolation (s.shift k)

mutual

def TypeRef.shift (k : Nat) : TypeRef → TypeRef
  | named name s => .named name (s.shift k)
  | function params ret s => .function (TypeRef.shiftAll k params) (TypeRef.shift k ret) (s.shift k)
  | applied base args s => .applied (TypeRef.shift k base) (TypeRef.shiftAll k args) (s.shift k)
  | selected base case s => .selected (TypeRef.shift k base) case (s.shift k)

def TypeRef.shiftAll (k : Nat) : List TypeRef → List TypeRef
  | [] => []
  | r :: rs => TypeRef.shift k r :: TypeRef.shiftAll k rs

end

instance : Shift TypeRef := ⟨TypeRef.shift⟩

@[simp] theorem shift_typeRef (k : Nat) : (shift k : TypeRef → TypeRef) = TypeRef.shift k := rfl

@[simp] theorem TypeRef.shiftAll_eq (k : Nat) (rs : List TypeRef) :
    shiftAll k rs = rs.map (TypeRef.shift k) := by
  induction rs with
  | nil => rfl
  | cons r rs ih => rw [shiftAll, ih, List.map_cons]

def Param.shift (k : Nat) (p : Param) : Param := ⟨p.name, p.type.shift k, p.span.shift k⟩

instance : Shift Param := ⟨Param.shift⟩

@[simp] theorem shift_param (k : Nat) : (shift k : Param → Param) = Param.shift k := rfl

def FieldDecl.shift (k : Nat) (f : FieldDecl) : FieldDecl :=
  ⟨f.name, f.isPublic, f.type.shift k, f.span.shift k⟩

instance : Shift FieldDecl := ⟨FieldDecl.shift⟩

@[simp] theorem shift_fieldDecl (k : Nat) : (shift k : FieldDecl → FieldDecl) = FieldDecl.shift k := rfl

def CaseDecl.shift (k : Nat) (c : CaseDecl) : CaseDecl :=
  ⟨c.name, c.isPublic, c.fields.map (FieldDecl.shift k), c.span.shift k⟩

instance : Shift CaseDecl := ⟨CaseDecl.shift⟩

@[simp] theorem shift_caseDecl (k : Nat) : (shift k : CaseDecl → CaseDecl) = CaseDecl.shift k := rfl

def VariableHead.shift (k : Nat) (head : VariableHead) : VariableHead :=
  { head with type := head.type.map (TypeRef.shift k) }

def FunctionHead.shift (k : Nat) (head : FunctionHead) : FunctionHead :=
  { head with
    params := head.params.map (Param.shift k)
    returnType := head.returnType.map (TypeRef.shift k) }

def DataDecl.shift (k : Nat) (decl : DataDecl) : DataDecl :=
  { decl with cases := decl.cases.map (CaseDecl.shift k) }

mutual

def Node.shift (k : Nat) : Node → Node
  | .literal value s => .literal value (s.shift k)
  | .interpolation parts s => .interpolation (Part.shiftAll k parts) (s.shift k)
  | .name x s => .name x (s.shift k)
  | .qualified path x nameSpan s => .qualified path x (nameSpan.shift k) (s.shift k)
  | .define head value s => .define (head.shift k) (Node.shift k value) (s.shift k)
  | .function head body s => .function (head.shift k) (Node.shiftAll k body) (s.shift k)
  | .data decl s => .data (decl.shift k) (s.shift k)
  | .lambda params ret body s =>
    .lambda (params.map (Param.shift k)) (ret.map (TypeRef.shift k)) (Node.shiftAll k body) (s.shift k)
  | .block body s => .block (Node.shiftAll k body) (s.shift k)
  | .call callee args s => .call (Node.shift k callee) (Node.shiftAll k args) (s.shift k)
  | .member receiver x memberSpan s =>
    .member (Node.shift k receiver) x (memberSpan.shift k) (s.shift k)
  | .index receiver i s => .index (Node.shift k receiver) (Node.shift k i) (s.shift k)
  | .assign x nameSpan value s => .assign x (nameSpan.shift k) (Node.shift k value) (s.shift k)
  | .assignIndex receiver i value s =>
    .assignIndex (Node.shift k receiver) (Node.shift k i) (Node.shift k value) (s.shift k)
  | .binary op left right s => .binary op (Node.shift k left) (Node.shift k right) (s.shift k)
  | .unary op operand s => .unary op (Node.shift k operand) (s.shift k)
  | .branch condition thenBranch elseBranch s =>
    .branch (Node.shift k condition) (Node.shift k thenBranch) (Node.shiftOption k elseBranch)
      (s.shift k)
  | .loop condition body s => .loop (Node.shift k condition) (Node.shift k body) (s.shift k)
  | .ret value s => .ret (Node.shiftOption k value) (s.shift k)
  | .test value case s => .test (Node.shift k value) case (s.shift k)
  | .array elements s => .array (Node.shiftAll k elements) (s.shift k)

def Node.shiftAll (k : Nat) : List Node → List Node
  | [] => []
  | n :: ns => Node.shift k n :: Node.shiftAll k ns

def Node.shiftOption (k : Nat) : Option Node → Option Node
  | none => none
  | some n => some (Node.shift k n)

def Part.shift (k : Nat) : Part → Part
  | .text s => .text s
  | .expr n => .expr (Node.shift k n)

def Part.shiftAll (k : Nat) : List Part → List Part
  | [] => []
  | p :: ps => Part.shift k p :: Part.shiftAll k ps

end

instance : Shift Node := ⟨Node.shift⟩

@[simp] theorem shift_node (k : Nat) : (shift k : Node → Node) = Node.shift k := rfl

@[simp] theorem Node.shiftAll_eq (k : Nat) (ns : List Node) :
    shiftAll k ns = ns.map (Node.shift k) := by
  induction ns with
  | nil => rfl
  | cons n ns ih => rw [shiftAll, ih, List.map_cons]

@[simp] theorem Node.shiftOption_eq (k : Nat) (n : Option Node) :
    shiftOption k n = n.map (Node.shift k) := by
  cases n <;> rfl

@[simp] theorem Part.shiftAll_eq (k : Nat) (ps : List Part) :
    shiftAll k ps = ps.map (Part.shift k) := by
  induction ps with
  | nil => rfl
  | cons p ps ih => rw [shiftAll, ih, List.map_cons]

@[simp] theorem Node.span_shift (k : Nat) (n : Node) : (n.shift k).span = n.span.shift k := by
  cases n <;> rfl

@[simp] theorem Node.describe_shift (k : Nat) (n : Node) : (n.shift k).describe = n.describe := by
  cases n <;> rfl

def PackageDecl.shift (k : Nat) (d : PackageDecl) : PackageDecl := { d with span := d.span.shift k }

instance : Shift PackageDecl := ⟨PackageDecl.shift⟩

@[simp] theorem shift_packageDecl (k : Nat) :
    (shift k : PackageDecl → PackageDecl) = PackageDecl.shift k := rfl

def ImportEntry.shift (k : Nat) (e : ImportEntry) : ImportEntry := { e with span := e.span.shift k }

instance : Shift ImportEntry := ⟨ImportEntry.shift⟩

@[simp] theorem shift_importEntry (k : Nat) :
    (shift k : ImportEntry → ImportEntry) = ImportEntry.shift k := rfl

def ImportDecl.shift (k : Nat) (d : ImportDecl) : ImportDecl :=
  { d with entries := d.entries.map (ImportEntry.shift k), span := d.span.shift k }

instance : Shift ImportDecl := ⟨ImportDecl.shift⟩

@[simp] theorem shift_importDecl (k : Nat) :
    (shift k : ImportDecl → ImportDecl) = ImportDecl.shift k := rfl

/-! A text that is not moved -/

mutual

theorem TypeRef.shift_zero (r : TypeRef) : r.shift 0 = r := by
  cases r with
  | named name s => rfl
  | function params ret s => rw [shift, shiftAll_zero params, shift_zero ret]; rfl
  | applied base args s => rw [shift, shift_zero base, shiftAll_zero args]; rfl
  | selected base case s => rw [shift, shift_zero base]; rfl

theorem TypeRef.shiftAll_zero (rs : List TypeRef) : shiftAll 0 rs = rs := by
  cases rs with
  | nil => rfl
  | cons r rs => rw [shiftAll, shift_zero r, shiftAll_zero rs]

end

theorem Param.shift_zero (p : Param) : p.shift 0 = p := by
  rw [Param.shift, TypeRef.shift_zero]
  rfl

theorem FieldDecl.shift_zero (f : FieldDecl) : f.shift 0 = f := by
  rw [FieldDecl.shift, TypeRef.shift_zero]
  rfl

theorem CaseDecl.shift_zero (c : CaseDecl) : c.shift 0 = c := by
  rw [CaseDecl.shift, List.map_id'' FieldDecl.shift_zero]
  rfl

theorem TypeRef.map_shift_zero (r : Option TypeRef) : r.map (TypeRef.shift 0) = r := by
  cases r with
  | none => rfl
  | some r => rw [Option.map_some, shift_zero]

theorem VariableHead.shift_zero (head : VariableHead) : head.shift 0 = head := by
  rw [VariableHead.shift, TypeRef.map_shift_zero]

theorem FunctionHead.shift_zero (head : FunctionHead) : head.shift 0 = head := by
  rw [FunctionHead.shift, List.map_id'' Param.shift_zero, TypeRef.map_shift_zero]

theorem DataDecl.shift_zero (decl : DataDecl) : decl.shift 0 = decl := by
  rw [DataDecl.shift, List.map_id'' CaseDecl.shift_zero]

mutual

theorem Node.shift_zero (n : Node) : n.shift 0 = n := by
  cases n with
  | literal value s => rfl
  | interpolation parts s => rw [Node.shift, Part.shiftAll_zero parts]; rfl
  | name x s => rfl
  | qualified path x nameSpan s => rfl
  | define head value s => rw [Node.shift, head.shift_zero, Node.shift_zero value]; rfl
  | function head body s => rw [Node.shift, head.shift_zero, Node.shiftAll_zero body]; rfl
  | data decl s => rw [Node.shift, decl.shift_zero]; rfl
  | lambda params ret body s =>
    rw [Node.shift, List.map_id'' Param.shift_zero, TypeRef.map_shift_zero, Node.shiftAll_zero body]
    rfl
  | block body s => rw [Node.shift, Node.shiftAll_zero body]; rfl
  | call callee args s => rw [Node.shift, Node.shift_zero callee, Node.shiftAll_zero args]; rfl
  | member receiver x memberSpan s => rw [Node.shift, Node.shift_zero receiver]; rfl
  | index receiver i s => rw [Node.shift, Node.shift_zero receiver, Node.shift_zero i]; rfl
  | assign x nameSpan value s => rw [Node.shift, Node.shift_zero value]; rfl
  | assignIndex receiver i value s =>
    rw [Node.shift, Node.shift_zero receiver, Node.shift_zero i, Node.shift_zero value]
    rfl
  | binary op left right s => rw [Node.shift, Node.shift_zero left, Node.shift_zero right]; rfl
  | unary op operand s => rw [Node.shift, Node.shift_zero operand]; rfl
  | branch condition thenBranch elseBranch s =>
    rw [Node.shift, Node.shift_zero condition, Node.shift_zero thenBranch,
      Node.shiftOption_zero elseBranch]
    rfl
  | loop condition body s => rw [Node.shift, Node.shift_zero condition, Node.shift_zero body]; rfl
  | ret value s => rw [Node.shift, Node.shiftOption_zero value]; rfl
  | test value case s => rw [Node.shift, Node.shift_zero value]; rfl
  | array elements s => rw [Node.shift, Node.shiftAll_zero elements]; rfl

theorem Node.shiftAll_zero (ns : List Node) : Node.shiftAll 0 ns = ns := by
  cases ns with
  | nil => rfl
  | cons n ns => rw [Node.shiftAll, Node.shift_zero n, Node.shiftAll_zero ns]

theorem Node.shiftOption_zero (n : Option Node) : Node.shiftOption 0 n = n := by
  cases n with
  | none => rfl
  | some n => rw [Node.shiftOption, Node.shift_zero n]

theorem Part.shift_zero (p : Part) : p.shift 0 = p := by
  cases p with
  | text s => rfl
  | expr n => rw [Part.shift, Node.shift_zero n]

theorem Part.shiftAll_zero (ps : List Part) : Part.shiftAll 0 ps = ps := by
  cases ps with
  | nil => rfl
  | cons p ps => rw [Part.shiftAll, Part.shift_zero p, Part.shiftAll_zero ps]

end

theorem PackageDecl.shift_zero (d : PackageDecl) : d.shift 0 = d := rfl

theorem ImportDecl.shift_zero (d : ImportDecl) : d.shift 0 = d := by
  have hentries : d.entries.map (ImportEntry.shift 0) = d.entries := List.map_id'' (fun _ => rfl) _
  rw [ImportDecl.shift, hentries]
  rfl

theorem Lexeme.shift_zero (l : Lexeme) : l.shift 0 = l := rfl

/-! Tokens and holes -/

namespace Scan

/-- The tokens of a text do not depend on where it stands. -/
theorem read_shift (k : Nat) (cs : List Char) (pos : Nat) (fresh : Bool) :
    read cs (pos + k) fresh = ⟨(read cs pos fresh).lexemes.map (Lexeme.shift k),
      (read cs pos fresh).errors.map (Span.shift k)⟩ := by
  fun_induction read cs pos fresh with
  | case1 pos fresh => rw [read]; rfl
  | case2 pos fresh c rest n taken stop hpiece ih =>
    rw [read, hpiece]
    dsimp only
    have hstop : pos + k + byteLength (c :: rest.take n) = stop + k := Nat.add_right_comm _ _ _
    rw [hstop]
    exact ih
  | case3 pos fresh c rest n taken stop t scan hpiece ih =>
    rw [read, hpiece]
    dsimp only
    have hstop : pos + k + byteLength (c :: rest.take n) = stop + k := Nat.add_right_comm _ _ _
    rw [hstop, ih]
    rfl
  | case4 pos fresh c rest n taken stop scan hpiece ih =>
    rw [read, hpiece]
    dsimp only
    have hstop : pos + k + byteLength (c :: rest.take n) = stop + k := Nat.add_right_comm _ _ _
    rw [hstop, ih]
    rfl

end Scan

namespace Parse

def Hole.shift (k : Nat) : Hole → Hole
  | .name x span => .name x (span.shift k)
  | .code text offset => .code text (offset + k)

@[simp] theorem Hole.shift_name (k : Nat) (x : String) (span : Span) :
    (Hole.name x span).shift k = .name x (span.shift k) := rfl

@[simp] theorem Hole.shift_code (k : Nat) (text : List Char) (offset : Nat) :
    (Hole.code text offset).shift k = .code text (offset + k) := rfl

def Template.shift (k : Nat) (t : Template) : Template :=
  ⟨t.holes.map fun x => (x.1, x.2.shift k), t.tail, t.unclosed.map (· + k)⟩

namespace Template

theorem read_shift (k : Nat) (cs : List Char) (pos : Nat) (text : List Char) :
    read cs (pos + k) text = (read cs pos text).shift k := by
  fun_induction read cs pos text with
  | case1 pos text => rw [read]; rfl
  | case2 pos text => rw [read]; rfl
  | case3 pos text e rest ih =>
    rw [read, ← ih]
    simp only [if_true]
    congr 1
    omega
  | case4 pos text c rest h1 h2 code hcode =>
    rw [read.eq_def]
    simp only [if_neg h1, if_pos h2]
    rw [hcode]
    rfl
  | case5 pos text c rest h1 h2 code n hn inside ih =>
    rw [read.eq_def]
    simp only [if_neg h1, if_pos h2]
    rw [hn]
    have hstop : pos + k + 3 + byteLength inside = pos + 3 + byteLength inside + k := by omega
    have hstart : pos + k + 2 = pos + 2 + k := by omega
    dsimp only
    rw [hstop, hstart, ih]
    rfl
  | case6 pos text c rest h1 h2 h3 name stop ih =>
    rw [read.eq_def]
    simp only [if_neg h1, if_neg h2, if_pos h3]
    have hstop : pos + k + 1 + byteLength name = stop + k := by omega
    have hstart : pos + k + 1 = pos + 1 + k := by omega
    rw [hstop, hstart, ih]
    rfl
  | case7 pos text c rest h1 h2 h3 ih =>
    rw [read.eq_def]
    simp only [if_neg h1, if_neg h2, if_neg h3]
    rw [← ih]
    congr 1
    omega

theorem ofToken_shift (k : Nat) (raw : String) (pos : Nat) :
    ofToken raw (pos + k) = (ofToken raw pos).shift k := by
  unfold ofToken
  rw [← read_shift]
  congr 1
  omega

end Template

/-- A text that is moved as a whole has the same beginning. -/
theorem Cursor.start_shift (k : Nat) (text : List Char) (offset : Nat) :
    start text (offset + k) =
      { rest := (start text offset).rest.map (Lexeme.shift k)
        lastStop := (start text offset).lastStop + k
        textStop := (start text offset).textStop + k
        errors := (start text offset).errors.map (ParseError.shift k) } := by
  simp only [start, Scan.ofText, Scan.read_shift k text offset false, List.map_map]
  have hstop : offset + k + byteLength text = offset + byteLength text + k := by omega
  rw [hstop]
  congr 1
  apply List.map_congr_left
  intro s _
  have hstart : s.start + k - (offset + k) = s.start - offset := by omega
  have hend : s.stop + k - (offset + k) = s.stop - offset := by omega
  simp only [Function.comp_apply, Span.shift, ParseError.shift, hstart, hend]

end Parse

/-! A text after a line break -/

namespace Piece

variable {cs : List Char} {n : Nat}

theorem takeWhile_append_newline {p : Char → Bool} (hp : p '\n' = false) (cs b : List Char) :
    (cs ++ '\n' :: b).takeWhile p = cs.takeWhile p := by
  induction cs with
  | nil => simp [hp]
  | cons c cs ih => simp only [List.cons_append, List.takeWhile_cons, ih]

theorem length_takeWhile_le (p : Char → Bool) (cs : List Char) :
    (cs.takeWhile p).length ≤ cs.length := (List.takeWhile_sublist p).length_le

theorem numberLength_append (cs b : List Char) : numberLength (cs ++ '\n' :: b) = numberLength cs := by
  unfold numberLength
  dsimp only
  rw [takeWhile_append_newline rfl, List.drop_append_of_le_length (length_takeWhile_le _ _)]
  generalize cs.drop (cs.takeWhile isNumberPart).length = rest
  rcases rest with _ | ⟨c, _ | ⟨d, rest⟩⟩
  · rfl
  · by_cases hc : c = '.'
    · subst hc
      rfl
    · simp [hc]
  · by_cases hc : c = '.'
    · subst hc
      simp only [List.cons_append, takeWhile_append_newline (p := isNumberPart) rfl rest b]
    · simp [hc]

theorem numberLength_le (cs : List Char) : (numberLength cs).2 ≤ cs.length := by
  have hwhole := length_takeWhile_le isNumberPart cs
  unfold numberLength
  dsimp only
  split
  · rename_i d rest heq
    have hlength := congrArg List.length heq
    have hrest := length_takeWhile_le isNumberPart rest
    simp only [List.length_drop, List.length_cons] at hlength
    split
    · dsimp only
      omega
    · exact hwhole
  · exact hwhole

/-- A character that neither ends the string nor escapes the next one. -/
theorem stringLength_cons {c : Char} (hquote : c ≠ '"') (hslash : c ≠ '\\') (cs : List Char) :
    stringLength (c :: cs) = ((stringLength cs).1, (stringLength cs).2 + 1) := by
  rw [stringLength]
  · exact hquote
  · exact fun h => absurd h hslash
  · exact fun _ _ h => absurd h hslash

theorem stringLength_append (b : List Char) (h : stringLength cs = (true, n)) :
    stringLength (cs ++ b) = (true, n) ∧ n ≤ cs.length := by
  induction cs using stringLength.induct generalizing n with
  | case1 => simp [stringLength] at h
  | case2 cs =>
    simp only [stringLength, Prod.mk.injEq, true_and] at h
    subst h
    exact ⟨rfl, by simp⟩
  | case3 => simp [stringLength] at h
  | case4 cs => simp [stringLength] at h
  | case5 c cs hc closed m hm ih =>
    simp only [stringLength, if_neg hc, hm, Prod.mk.injEq] at h
    obtain ⟨rfl, rfl⟩ := h
    obtain ⟨happend, hle⟩ := ih hm
    refine ⟨?_, by simpa using hle⟩
    simp [stringLength, hc, happend]
  | case6 c cs hquote hlast hescape closed m hm ih =>
    have hslash : c ≠ '\\' := by
      rintro rfl
      cases cs with
      | nil => exact hlast rfl rfl
      | cons d cs => exact hescape d cs rfl rfl
    rw [stringLength_cons hquote hslash, hm, Prod.mk.injEq] at h
    obtain ⟨rfl, rfl⟩ := h
    obtain ⟨happend, hle⟩ := ih hm
    refine ⟨?_, by simpa using hle⟩
    rw [List.cons_append, stringLength_cons hquote hslash, happend]

theorem commentLength?_append (b : List Char) (h : commentLength? cs = some n) :
    commentLength? (cs ++ '\n' :: b) = some n ∧ n ≤ cs.length := by
  induction cs using commentLength?.induct generalizing n with
  | case1 => simp [commentLength?] at h
  | case2 cs =>
    simp only [commentLength?, Option.some.injEq] at h
    subst h
    exact ⟨rfl, by simp⟩
  | case3 c cs hc ih =>
    rw [commentLength?] at h
    · obtain ⟨m, hm, rfl⟩ := Option.map_eq_some_iff.mp h
      obtain ⟨happend, hle⟩ := ih hm
      refine ⟨?_, by simpa using hle⟩
      rw [List.cons_append, commentLength?, happend]
      · rfl
      · rintro tail rfl heq
        cases cs with
        | nil => simp at heq
        | cons d cs =>
          simp only [List.cons_append, List.cons.injEq] at heq
          exact hc cs rfl (by rw [heq.1])
    · exact hc

theorem isPrefixOf_append_newline {word : List Char} (hword : '\n' ∉ word) (cs b : List Char) :
    word.isPrefixOf (cs ++ '\n' :: b) = word.isPrefixOf cs := by
  induction word generalizing cs with
  | nil => simp
  | cons d word ih =>
    obtain ⟨hd, hword⟩ : '\n' ≠ d ∧ '\n' ∉ word := by simpa using hword
    cases cs with
    | nil => simp [List.isPrefixOf, Ne.symm hd]
    | cons c cs => simp only [List.cons_append, List.isPrefixOf, ih hword]

theorem ofStart?_append (cs b : List Char) :
    Mark.ofStart? (cs ++ '\n' :: b) = Mark.ofStart? cs := by
  unfold Mark.ofStart?
  congr 1
  funext m
  apply isPrefixOf_append_newline
  cases m <;> decide

theorem length_text_le_of_ofStart? {c : Char} {cs : List Char} {m : Mark}
    (h : Mark.ofStart? (c :: cs) = some m) :
    m.text.length - 1 ≤ cs.length := by
  have hfits : m.text.toList.isPrefixOf (c :: cs) = true :=
    List.find?_some (p := fun m : Mark => m.text.toList.isPrefixOf (c :: cs)) h
  have := (List.isPrefixOf_iff_prefix.mp hfits).length_le
  simp only [String.length_toList, List.length_cons] at this
  omega

theorem mark_append {c : Char} {piece : Piece} (b : List Char)
    (h : (match Mark.ofStart? (c :: cs) with
      | some m => (token (.mark m), m.text.length - 1)
      | none => (unknown, 0)) = (piece, n)) (hpiece : piece ≠ unknown) :
    (match Mark.ofStart? (c :: (cs ++ '\n' :: b)) with
      | some m => (token (.mark m), m.text.length - 1)
      | none => (unknown, 0)) = (piece, n) ∧ n ≤ cs.length := by
  rw [← List.cons_append, ofStart?_append]
  refine ⟨h, ?_⟩
  split at h
  · rename_i m hm
    cases h
    exact length_text_le_of_ofStart? hm
  · cases h
    exact absurd rfl hpiece

/-- A line break ends every piece that is complete. -/
theorem atStart_append {c : Char} {piece : Piece} (b : List Char) (h : atStart c cs = (piece, n))
    (hpiece : piece ≠ unknown) : atStart c (cs ++ '\n' :: b) = (piece, n) ∧ n ≤ cs.length := by
  unfold atStart at h ⊢
  dsimp only at h ⊢
  split at h
  · rename_i hc
    rw [if_pos hc]
    exact ⟨h, by cases h; simp⟩
  rename_i hblank
  rw [if_neg hblank]
  split at h
  · rename_i hc
    have hle := numberLength_le cs
    rw [if_pos hc, numberLength_append]
    split at h
    all_goals
      rename_i m hm
      rw [hm] at hle
      cases h
      rw [List.take_append_of_le_length hle]
      exact ⟨rfl, hle⟩
  rename_i hdigit
  rw [if_neg hdigit]
  split at h
  · rename_i hc
    have hle := length_takeWhile_le isNamePart cs
    rw [if_pos hc, takeWhile_append_newline rfl, List.take_append_of_le_length hle]
    refine ⟨h, ?_⟩
    split at h
    all_goals
      cases h
      exact hle
  rename_i hname
  rw [if_neg hname]
  split at h
  · rename_i hc
    rw [if_pos hc]
    split at h
    · rename_i m hm
      obtain ⟨happend, hle⟩ := stringLength_append ('\n' :: b) hm
      cases h
      rw [happend]
      dsimp only
      rw [List.take_append_of_le_length hle]
      exact ⟨rfl, hle⟩
    · cases h
      exact absurd rfl hpiece
  rename_i hquote
  rw [if_neg hquote]
  split at h
  · rename_i rest
    cases h
    refine ⟨?_, ?_⟩
    · simp only [List.cons_append, takeWhile_append_newline (p := (· ≠ '\n')) (by simp) rest b]
    · have := length_takeWhile_le (· ≠ '\n') rest
      simp only [List.length_cons]
      omega
  · rename_i rest
    split at h
    · rename_i m hm
      obtain ⟨happend, hle⟩ := commentLength?_append b hm
      cases h
      refine ⟨by simp only [List.cons_append, happend], ?_⟩
      simp only [List.length_cons]
      omega
    · cases h
      exact absurd rfl hpiece
  · rename_i hline hblock
    have hmark := mark_append b h hpiece
    have hne (d : Char) (rest : List Char) (hd : d ≠ '\n') (heq : cs ++ '\n' :: b = d :: rest) :
        ∃ rest', cs = d :: rest' := by
      cases cs with
      | nil => simp [hd.symm] at heq
      | cons e cs => exact ⟨cs, by rw [(List.cons.inj heq).1]⟩
    split
    · rename_i rest heq
      obtain ⟨rest', rfl⟩ := hne '/' rest (by decide) heq
      exact absurd rfl (hline rest' rfl)
    · rename_i rest heq
      obtain ⟨rest', rfl⟩ := hne '*' rest (by decide) heq
      exact absurd rfl (hblock rest' rfl)
    · exact hmark

end Piece

namespace Scan

/-- After a text without errors and a line break, tokens are read as in a text of their own, except
that the first one stands first on its line. -/
theorem read_append_newline (a b : List Char) (pos : Nat) (fresh : Bool)
    (h : (read a pos fresh).errors = []) :
    read (a ++ '\n' :: b) pos fresh =
      ⟨(read a pos fresh).lexemes ++ (read b (pos + byteLength a + 1) true).lexemes,
        (read b (pos + byteLength a + 1) true).errors⟩ := by
  have hlength (c : Char) (rest : List Char) (n : Nat) :
      byteLength (c :: rest.take n) + byteLength (rest.drop n) = byteLength (c :: rest) := by
    rw [← byteLength_append, List.cons_append, List.take_append_drop]
  fun_induction read a pos fresh with
  | case1 pos fresh =>
    rw [List.nil_append, read]
    have hpiece : Piece.atStart '\n' b = (.gap, 0) := rfl
    rw [hpiece]
    dsimp only
    have hfresh : (fresh || ['\n'].contains '\n') = true := by simp
    rw [List.take_zero, List.drop_zero, hfresh]
    rfl
  | case2 pos fresh c rest n taken stop hpiece ih =>
    obtain ⟨happend, hle⟩ := Piece.atStart_append b hpiece (by simp)
    rw [List.cons_append, read, happend]
    dsimp only
    rw [List.take_append_of_le_length hle, List.drop_append_of_le_length hle, ih h]
    rw [Nat.add_assoc pos, hlength]
  | case3 pos fresh c rest n taken stop t scan hpiece ih =>
    obtain ⟨happend, hle⟩ := Piece.atStart_append b hpiece (by simp)
    rw [List.cons_append, read, happend]
    dsimp only
    rw [List.take_append_of_le_length hle, List.drop_append_of_le_length hle, ih h]
    rw [Nat.add_assoc pos, hlength]
    rfl
  | case4 pos fresh c rest n taken stop scan hpiece ih => simp at h

/-- Makes the first token stand first on its line. -/
def freshen : List Lexeme → List Lexeme
  | [] => []
  | l :: ls => { l with startsLine := true } :: ls

theorem read_fresh (cs : List Char) (pos : Nat) (fresh : Bool) (h : (read cs pos fresh).errors = []) :
    read cs pos true = ⟨freshen (read cs pos fresh).lexemes, []⟩ := by
  fun_induction read cs pos fresh with
  | case1 pos fresh => rw [read]; rfl
  | case2 pos fresh c rest n taken stop hpiece ih =>
    rw [read, hpiece]
    exact ih h
  | case3 pos fresh c rest n taken stop t scan hpiece ih =>
    rw [read, hpiece]
    exact congrArg (Scan.mk _) h
  | case4 pos fresh c rest n taken stop scan hpiece ih => simp at h

end Scan

end Tern
