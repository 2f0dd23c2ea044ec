import Tern.Project
import Tern.Proofs.Code.Lines

/-!
Printed code says all about the code but where it came from. Code is found from its outline, line by
line: the first word tells what a line is about, and the parts below it are told apart by how many
there are and where they stand. So programs are printed alike only if they are the same up to
places, and up to types of parameters that are printed alike.
-/

set_option autoImplicit false

namespace Tern

open Text

open Piece (isNamePart isWord)

def Literal.isFloat : Literal → Bool
  | float _ => true
  | _ => false

namespace Code

mutual
/-- All names in the code are words, and no constant is a floating-point number. -/
def isPlain : Code → Bool
  | value v _ => !v.isFloat
  | interpolation parts _ => allPlain parts
  | read s _ => s.isNamed
  | write s v _ => s.isNamed && v.isPlain
  | defineFunction item params f _ => item.isNamed && Ty.allNamed params && f.isPlain
  | defineVariable item v _ => item.isNamed && v.isPlain
  | declareLocal x _ v _ => isWord x && v.isPlain
  | function params body _ => params.all isWord && body.isPlain
  | block body _ => allPlain body
  | call callee args _ => callee.isPlain && allPlain args
  | field receiver x _ => isWord x && receiver.isPlain
  | index receiver i _ => receiver.isPlain && i.isPlain
  | writeIndex receiver i v _ => receiver.isPlain && i.isPlain && v.isPlain
  | binary _ l r _ => l.isPlain && r.isPlain
  | unary _ e _ => e.isPlain
  | branch c t e _ => c.isPlain && t.isPlain && optionPlain e
  | loop c body _ => c.isPlain && body.isPlain
  | ret v _ => optionPlain v
  | test v case _ => isWord case && v.isPlain
  | array es _ => allPlain es
  | defineData path x cases _ => path.isNamed && isWord x && cases.all CaseShape.isNamed
def allPlain : List Code → Bool
  | [] => true
  | c :: cs => c.isPlain && allPlain cs
def optionPlain : Option Code → Bool
  | none => true
  | some c => c.isPlain
end

mutual
/-- The code without places. The types of the parameters of a function are replaced by what is
printed of them. -/
def bare : Code → Code
  | value v _ => value v ⟨0, 0⟩
  | interpolation parts _ => interpolation (bares parts) ⟨0, 0⟩
  | read s _ => read s ⟨0, 0⟩
  | write s v _ => write s v.bare ⟨0, 0⟩
  | defineFunction item params f _ =>
    defineFunction item [.param (", ".intercalate (Ty.texts params))] f.bare ⟨0, 0⟩
  | defineVariable item v _ => defineVariable item v.bare ⟨0, 0⟩
  | declareLocal x isMutable v _ => declareLocal x isMutable v.bare ⟨0, 0⟩
  | function params body _ => function params body.bare ⟨0, 0⟩
  | block body _ => block (bares body) ⟨0, 0⟩
  | call callee args _ => call callee.bare (bares args) ⟨0, 0⟩
  | field receiver x _ => field receiver.bare x ⟨0, 0⟩
  | index receiver i _ => index receiver.bare i.bare ⟨0, 0⟩
  | writeIndex receiver i v _ => writeIndex receiver.bare i.bare v.bare ⟨0, 0⟩
  | binary op l r _ => binary op l.bare r.bare ⟨0, 0⟩
  | unary op e _ => unary op e.bare ⟨0, 0⟩
  | branch c t e _ => branch c.bare t.bare (optionBare e) ⟨0, 0⟩
  | loop c body _ => loop c.bare body.bare ⟨0, 0⟩
  | ret v _ => ret (optionBare v) ⟨0, 0⟩
  | test v case _ => test v.bare case ⟨0, 0⟩
  | array es _ => array (bares es) ⟨0, 0⟩
  | defineData path x cases _ => defineData path x cases ⟨0, 0⟩
def bares : List Code → List Code
  | [] => []
  | c :: cs => c.bare :: bares cs
def optionBare : Option Code → Option Code
  | none => none
  | some c => some c.bare
end

/-! The first word of a line -/

/-- What a line is about. -/
inductive Kind
  | value | interpolation | read | write | define | declareLocal | function | block | call | field
  | index | binary | unary | branch | loop | ret | test | array
  deriving DecidableEq

def kind : Code → Kind
  | value _ _ => .value
  | interpolation _ _ => .interpolation
  | read _ _ => .read
  | write _ _ _ | writeIndex _ _ _ _ => .write
  | defineFunction _ _ _ _ | defineVariable _ _ _ | defineData _ _ _ _ => .define
  | declareLocal _ _ _ _ => .declareLocal
  | function _ _ _ => .function
  | block _ _ => .block
  | call _ _ _ => .call
  | field _ _ _ => .field
  | index _ _ _ => .index
  | binary _ _ _ _ => .binary
  | unary _ _ _ => .unary
  | branch _ _ _ _ => .branch
  | loop _ _ _ => .loop
  | ret _ _ => .ret
  | test _ _ _ => .test
  | array _ _ => .array

def firstWords : List (String × Kind) :=
  [("int", .value), ("float", .value), ("bool", .value), ("string", .value), ("unit", .value),
    ("interpolate", .interpolation), ("read", .read), ("write", .write), ("define", .define),
    ("local", .declareLocal), ("function", .function), ("block", .block), ("call", .call),
    ("field", .field), ("index", .index), ("binary", .binary), ("unary", .unary), ("if", .branch),
    ("while", .loop), ("return", .ret), ("is", .test), ("array", .array)]

def kindOf? (line : String) : Option Kind :=
  (firstWords.find? fun w => w.1.toList == line.toList.takeWhile isNamePart).map Prod.snd

/-- Lines that are about different things begin with different words. -/
theorem kindOf?_outline (c : Code) :
    ∃ line parts, c.outline = .node line parts ∧ kindOf? line = some c.kind := by
  cases c with
  | value v span =>
    cases v with
    | unit => exact ⟨_, _, rfl, rfl⟩
    | _ => exact ⟨_, _, rfl, by rw [valueText, kindOf?, String.toList_append]; rfl⟩
  | read s span => exact ⟨_, _, rfl, by rw [kindOf?, String.toList_append]; rfl⟩
  | write s v span => exact ⟨_, _, rfl, by rw [kindOf?, String.toList_append]; rfl⟩
  | defineFunction item params f span =>
    exact ⟨_, _, rfl, by simp only [kindOf?, String.toList_append, List.append_assoc]; rfl⟩
  | defineVariable item v span =>
    exact ⟨_, _, rfl, by simp only [kindOf?, String.toList_append, List.append_assoc]; rfl⟩
  | declareLocal x isMutable v span =>
    exact ⟨_, _, rfl, by simp only [kindOf?, String.toList_append, List.append_assoc]; rfl⟩
  | function params body span =>
    exact ⟨_, _, rfl, by simp only [kindOf?, String.toList_append, List.append_assoc]; rfl⟩
  | field receiver x span => exact ⟨_, _, rfl, by rw [kindOf?, String.toList_append]; rfl⟩
  | binary op l r span => exact ⟨_, _, rfl, by rw [kindOf?, String.toList_append]; rfl⟩
  | unary op e span => exact ⟨_, _, rfl, by rw [kindOf?, String.toList_append]; rfl⟩
  | test v case span => exact ⟨_, _, rfl, by rw [kindOf?, String.toList_append]; rfl⟩
  | defineData path x cases span =>
    exact ⟨_, _, rfl, by simp only [kindOf?, String.toList_append, List.append_assoc]; rfl⟩
  | _ => exact ⟨_, _, rfl, rfl⟩

theorem kind_eq {c c' : Code} (h : c.outline = c'.outline) : c.kind = c'.kind := by
  obtain ⟨line, parts, hc, hkind⟩ := kindOf?_outline c
  obtain ⟨line', parts', hc', hkind'⟩ := kindOf?_outline c'
  rw [hc, hc', Outline.node.injEq] at h
  rw [h.1, hkind'] at hkind
  exact (Option.some.inj hkind).symm

/-! Lines -/

theorem isLine_valueText {v : Literal} (hv : v.isFloat = false) : IsLine (valueText v) := by
  cases v with
  | int n => exact isLine_append (by decide) (closes_toString_int n)
  | float x => cases hv
  | bool b => cases b <;> decide
  | string s => exact isLine_append (by decide) (closes_quoted s)
  | unit => decide

theorem closes_flag {s word : String} (isSet : Bool) (hs : Closes s) (hword : Closes word) :
    Closes (s ++ flag isSet word) := by
  cases isSet with
  | true => exact (hword.append (by decide)).append hs.unbroken
  | false =>
    rw [flag, if_neg Bool.false_ne_true, String.append_empty]
    exact hs

theorem unbroken_flag {word : String} (isSet : Bool) (hword : Closes word) :
    Unbroken (flag isSet word) := by
  cases isSet with
  | true => exact Unbroken.append (by decide) hword.unbroken
  | false => exact (by decide : Unbroken "")

theorem closes_itemText {item : PackageItem} (h : item.isNamed = true) :
    Closes (itemText item) := by
  rw [PackageItem.isNamed, Bool.and_eq_true] at h
  exact closes_place h.1 h.2

theorem unbroken_variableWord (isMutable : Bool) : Unbroken (variableWord isMutable) := by
  cases isMutable <;> decide

theorem isLine_functionText {item : PackageItem} {params : List Ty} (hitem : item.isNamed = true)
    (hparams : Ty.allNamed params = true) :
    IsLine ("define fn " ++ itemText item ++ "(" ++ ", ".intercalate (Ty.texts params) ++ ")"
      ++ flag item.isPublic "pub" ++ flag item.isMutable "mut") := by
  have hitem := (closes_itemText hitem).unbroken
  have htypes := Unbroken.intercalate (s := ", ") (by decide) (Ty.unbroken_texts params hparams)
  have hopens : Opens ("define fn " ++ itemText item ++ "(" ++
      ", ".intercalate (Ty.texts params)) :=
    ((Opens.append (by decide) hitem).append (by decide)).append htypes
  refine ⟨?_, ?_⟩
  · exact ((hopens.append (by decide)).append (unbroken_flag _ (by decide))).append
      (unbroken_flag _ (by decide))
  · have hclosed : Closes ")" := by decide
    exact closes_flag _ (closes_flag _ (hclosed.append hopens.unbroken) (by decide)) (by decide)

theorem isLine_variableText {item : PackageItem} (hitem : item.isNamed = true) :
    IsLine ("define " ++ variableWord item.isMutable ++ " " ++ itemText item
      ++ flag item.isPublic "pub") := by
  have hopens : Opens ("define " ++ variableWord item.isMutable ++ " ") :=
    (Opens.append (by decide) (unbroken_variableWord _)).append (by decide)
  have hline := isLine_append hopens (closes_itemText hitem)
  exact ⟨hline.1.append (unbroken_flag _ (by decide)), closes_flag _ hline.2 (by decide)⟩

theorem isLine_localText {x : String} (isMutable : Bool) (hx : isWord x = true) :
    IsLine ("local " ++ variableWord isMutable ++ " " ++ x) :=
  isLine_append ((Opens.append (by decide) (unbroken_variableWord _)).append (by decide))
    (closes_of_isWord hx)

theorem isLine_paramsText {params : List String} (hparams : params.all isWord = true) :
    IsLine ("function(" ++ ", ".intercalate params ++ ")") := by
  rw [List.all_eq_true] at hparams
  have hwords : Unbroken (", ".intercalate params) :=
    .intercalate (by decide) fun x hx => (closes_of_isWord (hparams x hx)).unbroken
  exact isLine_append (Opens.append (by decide) hwords) (by decide)

theorem closes_op (op : BinaryOp) : Closes op.text := by cases op <;> decide

theorem isLine_node {line : String} {parts : List Outline} (hline : IsLine line)
    (hparts : ∀ l ∈ Outline.contentsAll parts, IsLine l) :
    ∀ l ∈ (Outline.node line parts).contents, IsLine l := by
  rw [Outline.contents, List.forall_mem_cons]
  exact ⟨hline, hparts⟩

theorem isLine_nil : ∀ l ∈ Outline.contentsAll [], IsLine l := by simp [Outline.contentsAll]

theorem isLine_cons {o : Outline} {os : List Outline} (ho : ∀ l ∈ o.contents, IsLine l)
    (hos : ∀ l ∈ Outline.contentsAll os, IsLine l) :
    ∀ l ∈ Outline.contentsAll (o :: os), IsLine l := by
  rw [Outline.contentsAll, List.forall_mem_append]
  exact ⟨ho, hos⟩

theorem isLine_cases {cases : List CaseShape} (h : ∀ c ∈ cases, c.isNamed = true) :
    ∀ l ∈ Outline.contentsAll (cases.map fun c => .leaf c.text), IsLine l := by
  induction cases with
  | nil => exact isLine_nil
  | cons c cases ih =>
    rw [List.forall_mem_cons] at h
    exact isLine_cons (isLine_node (c.isLine_text h.1) isLine_nil) (ih h.2)

mutual

theorem isLine_outline (c : Code) (hc : c.isPlain = true) : ∀ l ∈ c.outline.contents, IsLine l := by
  cases c with
  | value v span =>
    exact isLine_node (isLine_valueText (by simpa [isPlain] using hc)) isLine_nil
  | interpolation parts span => exact isLine_node (by decide) (isLine_outlines parts hc)
  | read s span => exact isLine_node (isLine_append (by decide) (s.closes_text hc)) isLine_nil
  | write s v span =>
    rw [isPlain, Bool.and_eq_true] at hc
    exact isLine_node (isLine_append (by decide) (Storage.closes_text hc.1))
      (isLine_cons (isLine_outline v hc.2) isLine_nil)
  | defineFunction item params f span =>
    simp only [isPlain, Bool.and_eq_true] at hc
    exact isLine_node (isLine_functionText hc.1.1 hc.1.2)
      (isLine_cons (isLine_outline f hc.2) isLine_nil)
  | defineVariable item v span =>
    rw [isPlain, Bool.and_eq_true] at hc
    exact isLine_node (isLine_variableText hc.1) (isLine_cons (isLine_outline v hc.2) isLine_nil)
  | declareLocal x isMutable v span =>
    rw [isPlain, Bool.and_eq_true] at hc
    exact isLine_node (isLine_localText isMutable hc.1)
      (isLine_cons (isLine_outline v hc.2) isLine_nil)
  | function params body span =>
    rw [isPlain, Bool.and_eq_true] at hc
    exact isLine_node (isLine_paramsText hc.1) (isLine_cons (isLine_outline body hc.2) isLine_nil)
  | block body span => exact isLine_node (by decide) (isLine_outlines body hc)
  | call callee args span =>
    rw [isPlain, Bool.and_eq_true] at hc
    exact isLine_node (by decide)
      (isLine_cons (isLine_outline callee hc.1) (isLine_outlines args hc.2))
  | field receiver x span =>
    rw [isPlain, Bool.and_eq_true] at hc
    exact isLine_node (isLine_append (by decide) (closes_of_isWord hc.1))
      (isLine_cons (isLine_outline receiver hc.2) isLine_nil)
  | index receiver i span =>
    rw [isPlain, Bool.and_eq_true] at hc
    exact isLine_node (by decide) (isLine_cons (isLine_outline receiver hc.1)
      (isLine_cons (isLine_outline i hc.2) isLine_nil))
  | writeIndex receiver i v span =>
    simp only [isPlain, Bool.and_eq_true] at hc
    exact isLine_node (by decide) (isLine_cons (isLine_outline receiver hc.1.1)
      (isLine_cons (isLine_outline i hc.1.2) (isLine_cons (isLine_outline v hc.2) isLine_nil)))
  | binary op l r span =>
    rw [isPlain, Bool.and_eq_true] at hc
    exact isLine_node (isLine_append (by decide) (closes_op op))
      (isLine_cons (isLine_outline l hc.1) (isLine_cons (isLine_outline r hc.2) isLine_nil))
  | unary op e span =>
    refine isLine_node (isLine_append (by decide) ?_) (isLine_cons (isLine_outline e hc) isLine_nil)
    cases op <;> decide
  | branch c t e span =>
    simp only [isPlain, Bool.and_eq_true] at hc
    exact isLine_node (by decide) (isLine_cons (isLine_outline c hc.1.1)
      (isLine_cons (isLine_outline t hc.1.2) (isLine_outlineOption e hc.2)))
  | loop c body span =>
    rw [isPlain, Bool.and_eq_true] at hc
    exact isLine_node (by decide) (isLine_cons (isLine_outline c hc.1)
      (isLine_cons (isLine_outline body hc.2) isLine_nil))
  | ret v span => exact isLine_node (by decide) (isLine_outlineOption v hc)
  | test v case span =>
    rw [isPlain, Bool.and_eq_true] at hc
    exact isLine_node (isLine_append (by decide) (closes_of_isWord hc.1))
      (isLine_cons (isLine_outline v hc.2) isLine_nil)
  | array es span => exact isLine_node (by decide) (isLine_outlines es hc)
  | defineData path x cases span =>
    simp only [isPlain, Bool.and_eq_true, List.all_eq_true] at hc
    have hpath : Opens ("define data " ++ path.text ++ ".") :=
      (Opens.append (by decide) (closes_path hc.1.1).unbroken).append (by decide)
    exact isLine_node (isLine_append hpath (closes_of_isWord hc.1.2)) (isLine_cases hc.2)
termination_by structural c

theorem isLine_outlines (cs : List Code) (hcs : allPlain cs = true) :
    ∀ l ∈ Outline.contentsAll (outlines cs), IsLine l := by
  cases cs with
  | nil => exact isLine_nil
  | cons c cs =>
    rw [allPlain, Bool.and_eq_true] at hcs
    exact isLine_cons (isLine_outline c hcs.1) (isLine_outlines cs hcs.2)
termination_by structural cs

theorem isLine_outlineOption (c? : Option Code) (hc : optionPlain c? = true) :
    ∀ l ∈ Outline.contentsAll (outlineOption c?), IsLine l := by
  cases c? with
  | none => exact isLine_nil
  | some c => exact isLine_cons (isLine_outline c hc) isLine_nil
termination_by structural c?

end

/-! Lines that are the same -/

theorem valueText_inj {v w : Literal} (hv : v.isFloat = false) (hw : w.isFloat = false)
    (h : valueText v = valueText w) : v = w := by
  have htext := String.toList_inj.mpr h
  cases v with
  | int n =>
    cases w with
    | int m => rw [int_repr_inj ((String.append_right_inj _).mp h)]
    | _ => simp [valueText] at htext
  | float x => cases hv
  | bool b =>
    cases w with
    | bool d => cases b <;> cases d <;> first | rfl | exact absurd h (by decide)
    | _ => simp [valueText] at htext
  | string s =>
    cases w with
    | string t => rw [quoted_inj ((String.append_right_inj _).mp h)]
    | _ => simp [valueText] at htext
  | unit =>
    cases w with
    | unit => rfl
    | _ => simp [valueText] at htext

theorem opText_inj {op op' : BinaryOp} (h : op.text = op'.text) : op = op' := by
  cases op <;> cases op' <;> first | rfl | simp [BinaryOp.text] at h

/-- Behind the last closing bracket of a line are the flags. -/
theorem bracket_append_inj {types types' flags flags' : List Char} (hflags : ')' ∉ flags)
    (hflags' : ')' ∉ flags')
    (h : types ++ (")".toList ++ flags) = types' ++ (")".toList ++ flags')) :
    types = types' ∧ flags = flags' := by
  have hstops {flags : List Char} (h : ')' ∉ flags) :
      ∀ c ∈ flags.reverse, decide (c = ')') = false :=
    fun c hc => decide_eq_false fun heq => h (heq ▸ List.mem_reverse.mp hc)
  have hreverse := congrArg List.reverse h
  simp only [List.reverse_append, List.append_assoc] at hreverse
  obtain ⟨hends, hstarts⟩ :=
    append_inj_of_stops (hstops hflags) (hstops hflags') (by simp) (by simp) hreverse
  exact ⟨List.reverse_injective (List.append_cancel_left hstarts), List.reverse_injective hends⟩

theorem flags_inj : ∀ a b a' b' : Bool,
    flag a "pub" ++ flag b "mut" = flag a' "pub" ++ flag b' "mut" → a = a' ∧ b = b' := by decide

theorem bracket_not_mem_flags : ∀ a b : Bool, ')' ∉ (flag a "pub" ++ flag b "mut").toList := by
  decide

theorem functionText_inj {item item' : PackageItem} {types types' : String}
    (hitem : item.isNamed = true) (hitem' : item'.isNamed = true)
    (h : "define fn " ++ itemText item ++ "(" ++ types ++ ")" ++ flag item.isPublic "pub"
        ++ flag item.isMutable "mut" =
      "define fn " ++ itemText item' ++ "(" ++ types' ++ ")" ++ flag item'.isPublic "pub"
        ++ flag item'.isMutable "mut") : item = item' ∧ types = types' := by
  rw [PackageItem.isNamed, Bool.and_eq_true] at hitem hitem'
  rw [← String.toList_inj] at h
  simp only [itemText, String.toList_append, List.append_assoc, List.append_cancel_left_eq] at h
  obtain ⟨hpath, hname, hrest⟩ := place_append_inj hitem.1 hitem'.1 hitem.2 hitem'.2
    (ends_append (by decide)) (ends_append (by decide)) h
  obtain ⟨htypes, hflags⟩ := bracket_append_inj (bracket_not_mem_flags _ _)
    (bracket_not_mem_flags _ _)
    (by simpa only [String.toList_append] using List.append_cancel_left hrest)
  obtain ⟨hpublic, hmutable⟩ := flags_inj _ _ _ _ (String.toList_inj.mp hflags)
  cases item
  cases item'
  rw [PackageItem.mk.injEq]
  exact ⟨⟨hpath, hname, hpublic, hmutable⟩, String.toList_inj.mp htypes⟩

theorem isWord_variableWord (isMutable : Bool) : isWord (variableWord isMutable) = true := by
  cases isMutable <;> decide

theorem variableWord_inj : ∀ a b : Bool, variableWord a = variableWord b → a = b := by decide

theorem variableText_inj {item item' : PackageItem} (hitem : item.isNamed = true)
    (hitem' : item'.isNamed = true)
    (h : "define " ++ variableWord item.isMutable ++ " " ++ itemText item
        ++ flag item.isPublic "pub" =
      "define " ++ variableWord item'.isMutable ++ " " ++ itemText item'
        ++ flag item'.isPublic "pub") : item = item' := by
  rw [PackageItem.isNamed, Bool.and_eq_true] at hitem hitem'
  rw [← String.toList_inj] at h
  simp only [itemText, String.toList_append, List.append_assoc, List.append_cancel_left_eq] at h
  obtain ⟨hword, hrest⟩ := word_append_inj (isWord_variableWord _) (isWord_variableWord _)
    (ends_append (by decide)) (ends_append (by decide)) h
  have hends (isPublic : Bool) : Ends (flag isPublic "pub").toList := by
    cases isPublic <;> simp [Ends, flag]
    decide
  obtain ⟨hpath, hname, hflag⟩ := place_append_inj hitem.1 hitem'.1 hitem.2 hitem'.2
    (hends _) (hends _) (List.append_cancel_left hrest)
  have hflags : ∀ a b : Bool, flag a "pub" = flag b "pub" → a = b := by decide
  cases item
  cases item'
  rw [PackageItem.mk.injEq]
  exact ⟨hpath, hname, hflags _ _ (String.toList_inj.mp hflag), variableWord_inj _ _ hword⟩

theorem localText_inj {x y : String} {a b : Bool}
    (h : "local " ++ variableWord a ++ " " ++ x = "local " ++ variableWord b ++ " " ++ y) :
    x = y ∧ a = b := by
  rw [← String.toList_inj] at h
  simp only [String.toList_append, List.append_assoc, List.append_cancel_left_eq] at h
  obtain ⟨hword, hrest⟩ := word_append_inj (isWord_variableWord _) (isWord_variableWord _)
    (ends_append (by decide)) (ends_append (by decide)) h
  exact ⟨String.toList_inj.mp (List.append_cancel_left hrest), variableWord_inj _ _ hword⟩

theorem dataText_inj {p q : PackagePath} {x y : String} (hp : p.isNamed = true)
    (hq : q.isNamed = true) (hx : isWord x = true) (hy : isWord y = true)
    (h : "define data " ++ p.text ++ "." ++ x = "define data " ++ q.text ++ "." ++ y) :
    p = q ∧ x = y := by
  rw [← String.toList_inj] at h
  simp only [String.toList_append, List.append_assoc, List.append_cancel_left_eq] at h
  rw [← List.append_nil x.toList, ← List.append_nil y.toList] at h
  obtain ⟨hpath, hname, _⟩ := place_append_inj hp hq hx hy ends_nil ends_nil h
  exact ⟨hpath, hname⟩

theorem paramsText_inj {params params' : List String} (hparams : ∀ x ∈ params, isWord x = true)
    (hparams' : ∀ x ∈ params', isWord x = true)
    (h : "function(" ++ ", ".intercalate params ++ ")" =
      "function(" ++ ", ".intercalate params' ++ ")") : params = params' := by
  rw [← String.toList_inj] at h
  simp only [String.toList_append, List.append_assoc, List.append_cancel_left_eq] at h
  exact words_append_inj hparams hparams' h

/-- What is defined is told by the second word. -/
theorem define_lines_ne (s t : String) (isMutable : Bool) :
    "define fn " ++ s ≠ "define " ++ (variableWord isMutable ++ t) ∧
      "define fn " ++ s ≠ "define data " ++ t ∧
      "define " ++ (variableWord isMutable ++ s) ≠ "define data " ++ t := by
  simp only [ne_eq, ← String.toList_inj]
  cases isMutable <;> simp [variableWord]

/-! Outlines that are the same -/

mutual

theorem bare_eq (c c' : Code) (hc : c.isPlain = true) (hc' : c'.isPlain = true)
    (h : c.outline = c'.outline) : c.bare = c'.bare := by
  have hkind := kind_eq h
  cases c with
  | value v span =>
    cases c' with
    | value v' span' =>
      simp only [outline, Outline.leaf, Outline.node.injEq, and_true] at h
      rw [bare, bare, valueText_inj (by simpa [isPlain] using hc) (by simpa [isPlain] using hc') h]
    | _ => cases hkind
  | interpolation parts span =>
    cases c' with
    | interpolation parts' span' =>
      simp only [outline, Outline.node.injEq, true_and] at h
      rw [bare, bare, bares_eq parts parts' hc hc' h]
    | _ => cases hkind
  | read s span =>
    cases c' with
    | read s' span' =>
      simp only [outline, Outline.leaf, Outline.node.injEq, and_true] at h
      rw [bare, bare, Storage.text_inj hc hc' ((String.append_right_inj _).mp h)]
    | _ => cases hkind
  | write s v span =>
    cases c' with
    | write s' v' span' =>
      rw [isPlain, Bool.and_eq_true] at hc hc'
      simp only [outline, Outline.node.injEq, List.cons.injEq, and_true] at h
      rw [bare, bare, Storage.text_inj hc.1 hc'.1 ((String.append_right_inj _).mp h.1),
        bare_eq v v' hc.2 hc'.2 h.2]
    | writeIndex r' i' v' span' => simp [outline] at h
    | _ => cases hkind
  | defineFunction item params f span =>
    cases c' with
    | defineFunction item' params' f' span' =>
      simp only [isPlain, Bool.and_eq_true] at hc hc'
      simp only [outline, Outline.node.injEq, List.cons.injEq, and_true] at h
      obtain ⟨hitem, htypes⟩ := functionText_inj hc.1.1 hc'.1.1 h.1
      rw [bare, bare, hitem, htypes, bare_eq f f' hc.2 hc'.2 h.2]
    | defineVariable item' v' span' =>
      simp only [outline, Outline.node.injEq, String.append_assoc] at h
      exact ((define_lines_ne _ _ _).1 h.1).elim
    | defineData path' x' cases' span' =>
      simp only [outline, Outline.node.injEq, String.append_assoc] at h
      exact ((define_lines_ne _ _ true).2.1 h.1).elim
    | _ => cases hkind
  | defineVariable item v span =>
    cases c' with
    | defineFunction item' params' f' span' =>
      simp only [outline, Outline.node.injEq, String.append_assoc] at h
      exact ((define_lines_ne _ _ _).1 h.1.symm).elim
    | defineVariable item' v' span' =>
      rw [isPlain, Bool.and_eq_true] at hc hc'
      simp only [outline, Outline.node.injEq, List.cons.injEq, and_true] at h
      rw [bare, bare, variableText_inj hc.1 hc'.1 h.1, bare_eq v v' hc.2 hc'.2 h.2]
    | defineData path' x' cases' span' =>
      simp only [outline, Outline.node.injEq, String.append_assoc] at h
      exact ((define_lines_ne _ _ _).2.2 h.1).elim
    | _ => cases hkind
  | declareLocal x isMutable v span =>
    cases c' with
    | declareLocal x' isMutable' v' span' =>
      rw [isPlain, Bool.and_eq_true] at hc hc'
      simp only [outline, Outline.node.injEq, List.cons.injEq, and_true] at h
      obtain ⟨hname, hword⟩ := localText_inj h.1
      rw [bare, bare, hname, hword, bare_eq v v' hc.2 hc'.2 h.2]
    | _ => cases hkind
  | function params body span =>
    cases c' with
    | function params' body' span' =>
      rw [isPlain, Bool.and_eq_true, List.all_eq_true] at hc hc'
      simp only [outline, Outline.node.injEq, List.cons.injEq, and_true] at h
      rw [bare, bare, paramsText_inj hc.1 hc'.1 h.1, bare_eq body body' hc.2 hc'.2 h.2]
    | _ => cases hkind
  | block body span =>
    cases c' with
    | block body' span' =>
      simp only [outline, Outline.node.injEq, true_and] at h
      rw [bare, bare, bares_eq body body' hc hc' h]
    | _ => cases hkind
  | call callee args span =>
    cases c' with
    | call callee' args' span' =>
      rw [isPlain, Bool.and_eq_true] at hc hc'
      simp only [outline, Outline.node.injEq, List.cons.injEq, true_and] at h
      rw [bare, bare, bare_eq callee callee' hc.1 hc'.1 h.1, bares_eq args args' hc.2 hc'.2 h.2]
    | _ => cases hkind
  | field receiver x span =>
    cases c' with
    | field receiver' x' span' =>
      rw [isPlain, Bool.and_eq_true] at hc hc'
      simp only [outline, Outline.node.injEq, List.cons.injEq, and_true] at h
      rw [bare, bare, (String.append_right_inj _).mp h.1,
        bare_eq receiver receiver' hc.2 hc'.2 h.2]
    | _ => cases hkind
  | index receiver i span =>
    cases c' with
    | index receiver' i' span' =>
      rw [isPlain, Bool.and_eq_true] at hc hc'
      simp only [outline, Outline.node.injEq, List.cons.injEq, and_true, true_and] at h
      rw [bare, bare, bare_eq receiver receiver' hc.1 hc'.1 h.1, bare_eq i i' hc.2 hc'.2 h.2]
    | _ => cases hkind
  | writeIndex receiver i v span =>
    cases c' with
    | write s' v' span' => simp [outline] at h
    | writeIndex receiver' i' v' span' =>
      simp only [isPlain, Bool.and_eq_true] at hc hc'
      simp only [outline, Outline.node.injEq, List.cons.injEq, and_true, true_and] at h
      rw [bare, bare, bare_eq receiver receiver' hc.1.1 hc'.1.1 h.1,
        bare_eq i i' hc.1.2 hc'.1.2 h.2.1, bare_eq v v' hc.2 hc'.2 h.2.2]
    | _ => cases hkind
  | binary op l r span =>
    cases c' with
    | binary op' l' r' span' =>
      rw [isPlain, Bool.and_eq_true] at hc hc'
      simp only [outline, Outline.node.injEq, List.cons.injEq, and_true] at h
      rw [bare, bare, opText_inj ((String.append_right_inj _).mp h.1),
        bare_eq l l' hc.1 hc'.1 h.2.1, bare_eq r r' hc.2 hc'.2 h.2.2]
    | _ => cases hkind
  | unary op e span =>
    cases c' with
    | unary op' e' span' =>
      simp only [outline, Outline.node.injEq, List.cons.injEq, and_true] at h
      have hop : op = op' := by
        cases op <;> cases op' <;> first | rfl | exact absurd h.1 (by decide)
      rw [bare, bare, hop, bare_eq e e' hc hc' h.2]
    | _ => cases hkind
  | branch c t e span =>
    cases c' with
    | branch c' t' e' span' =>
      simp only [isPlain, Bool.and_eq_true] at hc hc'
      simp only [outline, Outline.node.injEq, List.cons.injEq, true_and] at h
      rw [bare, bare, bare_eq c c' hc.1.1 hc'.1.1 h.1, bare_eq t t' hc.1.2 hc'.1.2 h.2.1,
        optionBare_eq e e' hc.2 hc'.2 h.2.2]
    | _ => cases hkind
  | loop c body span =>
    cases c' with
    | loop c' body' span' =>
      rw [isPlain, Bool.and_eq_true] at hc hc'
      simp only [outline, Outline.node.injEq, List.cons.injEq, and_true, true_and] at h
      rw [bare, bare, bare_eq c c' hc.1 hc'.1 h.1, bare_eq body body' hc.2 hc'.2 h.2]
    | _ => cases hkind
  | ret v span =>
    cases c' with
    | ret v' span' =>
      simp only [outline, Outline.node.injEq, true_and] at h
      rw [bare, bare, optionBare_eq v v' hc hc' h]
    | _ => cases hkind
  | test v case span =>
    cases c' with
    | test v' case' span' =>
      rw [isPlain, Bool.and_eq_true] at hc hc'
      simp only [outline, Outline.node.injEq, List.cons.injEq, and_true] at h
      rw [bare, bare, (String.append_right_inj _).mp h.1, bare_eq v v' hc.2 hc'.2 h.2]
    | _ => cases hkind
  | array es span =>
    cases c' with
    | array es' span' =>
      simp only [outline, Outline.node.injEq, true_and] at h
      rw [bare, bare, bares_eq es es' hc hc' h]
    | _ => cases hkind
  | defineData path x cases span =>
    cases c' with
    | defineFunction item' params' f' span' =>
      simp only [outline, Outline.node.injEq, String.append_assoc] at h
      exact ((define_lines_ne _ _ true).2.1 h.1.symm).elim
    | defineVariable item' v' span' =>
      simp only [outline, Outline.node.injEq, String.append_assoc] at h
      exact ((define_lines_ne _ _ _).2.2 h.1.symm).elim
    | defineData path' x' cases' span' =>
      simp only [isPlain, Bool.and_eq_true, List.all_eq_true] at hc hc'
      simp only [outline, Outline.node.injEq] at h
      obtain ⟨hpath, hname⟩ := dataText_inj hc.1.1 hc'.1.1 hc.1.2 hc'.1.2 h.1
      rw [bare, bare, hpath, hname, CaseShape.leaves_inj hc.2 hc'.2 h.2]
    | _ => cases hkind
termination_by structural c

theorem bares_eq (cs cs' : List Code) (hcs : allPlain cs = true) (hcs' : allPlain cs' = true)
    (h : outlines cs = outlines cs') : bares cs = bares cs' := by
  cases cs with
  | nil =>
    cases cs' with
    | nil => rfl
    | cons c' cs' => cases h
  | cons c cs =>
    cases cs' with
    | nil => cases h
    | cons c' cs' =>
      rw [allPlain, Bool.and_eq_true] at hcs hcs'
      rw [outlines, outlines, List.cons.injEq] at h
      rw [bares, bares, bare_eq c c' hcs.1 hcs'.1 h.1, bares_eq cs cs' hcs.2 hcs'.2 h.2]
termination_by structural cs

theorem optionBare_eq (c c' : Option Code) (hc : optionPlain c = true)
    (hc' : optionPlain c' = true) (h : outlineOption c = outlineOption c') :
    optionBare c = optionBare c' := by
  cases c with
  | none =>
    cases c' with
    | none => rfl
    | some c' => cases h
  | some c =>
    cases c' with
    | none => cases h
    | some c' =>
      rw [outlineOption, outlineOption, List.cons.injEq] at h
      rw [optionBare, optionBare, bare_eq c c' hc hc' h.1]
termination_by structural c

end

/-! Code that is the same but for places -/

mutual

/-- Nothing that is left out of the bare code is printed. -/
theorem outline_bare (c : Code) : c.bare.outline = c.outline := by
  cases c with
  | value v span => rfl
  | interpolation parts span => rw [bare, outline, outline, outlines_bares parts]
  | read s span => rfl
  | write s v span => rw [bare, outline, outline, outline_bare v]
  | defineFunction item params f span =>
    simp only [bare, outline, outline_bare f, Ty.texts, Ty.text, String.intercalate_singleton]
  | defineVariable item v span => rw [bare, outline, outline, outline_bare v]
  | declareLocal x isMutable v span => rw [bare, outline, outline, outline_bare v]
  | function params body span => rw [bare, outline, outline, outline_bare body]
  | block body span => rw [bare, outline, outline, outlines_bares body]
  | call callee args span =>
    rw [bare, outline, outline, outline_bare callee, outlines_bares args]
  | field receiver x span => rw [bare, outline, outline, outline_bare receiver]
  | index receiver i span => rw [bare, outline, outline, outline_bare receiver, outline_bare i]
  | writeIndex receiver i v span =>
    rw [bare, outline, outline, outline_bare receiver, outline_bare i, outline_bare v]
  | binary op l r span => rw [bare, outline, outline, outline_bare l, outline_bare r]
  | unary op e span => rw [bare, outline, outline, outline_bare e]
  | branch c t e span =>
    rw [bare, outline, outline, outline_bare c, outline_bare t, outlineOption_optionBare e]
  | loop c body span => rw [bare, outline, outline, outline_bare c, outline_bare body]
  | ret v span => rw [bare, outline, outline, outlineOption_optionBare v]
  | test v case span => rw [bare, outline, outline, outline_bare v]
  | array es span => rw [bare, outline, outline, outlines_bares es]
  | defineData path x cases span => rfl
termination_by structural c

theorem outlines_bares (cs : List Code) : outlines (bares cs) = outlines cs := by
  cases cs with
  | nil => rfl
  | cons c cs => rw [bares, outlines, outlines, outline_bare c, outlines_bares cs]
termination_by structural cs

theorem outlineOption_optionBare (c? : Option Code) :
    outlineOption (optionBare c?) = outlineOption c? := by
  cases c? with
  | none => rfl
  | some c => rw [optionBare, outlineOption, outlineOption, outline_bare c]
termination_by structural c?

end

end Code

/-! Programs -/

/-- A project passes if nothing is reported and the text is the expected one. -/
theorem Project.judge_eq_pass_iff {p : Project} {units : List Project.Compiled} {text : String}
    (h : p.expected = .lowered text) :
    p.judge units = .pass ↔
      String.join (units.map (Project.Compiled.render p)) = "" ∧
        trim (Project.loweredText units) = trim text := by
  rw [Project.judge, h]
  dsimp only
  split_ifs with hreports htext
  · simp only [Bool.not_eq_true', String.isEmpty_eq_false_iff] at hreports
    simp [hreports]
  · simp only [Bool.not_eq_true', Bool.not_eq_false, String.isEmpty_iff] at hreports
    simpa [hreports] using htext
  · simpa using fun _ => htext

namespace LoweredProgram

variable {p q : LoweredProgram} {ps qs : List LoweredProgram}

def isPlain (p : LoweredProgram) : Bool := p.path.isNamed && Code.allPlain p.items

/-- The program without places, and with the types of parameters as they are printed. -/
def bare (p : LoweredProgram) : LoweredProgram := { p with items := Code.bares p.items }

theorem outline_bare (p : LoweredProgram) : p.bare.outline = p.outline := by
  rw [bare, outline, outline, Code.outlines_bares]

theorem bare_eq (hp : p.isPlain = true) (hq : q.isPlain = true) (h : p.outline = q.outline) :
    p.bare = q.bare := by
  rw [isPlain, Bool.and_eq_true] at hp hq
  rw [outline, outline, Outline.node.injEq] at h
  have hline := String.toList_inj.mpr ((String.append_right_inj _).mp h.1)
  rw [← List.append_nil p.path.text.toList, ← List.append_nil q.path.text.toList] at hline
  obtain ⟨hpath, _⟩ := path_append_inj hp.1 hq.1 ends_nil ends_nil hline
  rw [bare, bare, hpath, Code.bares_eq p.items q.items hp.2 hq.2 h.2]

theorem outline_eq_iff (hp : p.isPlain = true) (hq : q.isPlain = true) :
    p.outline = q.outline ↔ p.bare = q.bare :=
  ⟨bare_eq hp hq, fun h => by rw [← outline_bare p, h, outline_bare q]⟩

theorem map_outline_eq_iff (hps : ∀ p ∈ ps, p.isPlain = true) (hqs : ∀ q ∈ qs, q.isPlain = true) :
    ps.map outline = qs.map outline ↔ ps.map bare = qs.map bare := by
  induction ps generalizing qs with
  | nil => cases qs <;> simp
  | cons p ps ih =>
    cases qs with
    | nil => simp
    | cons q qs =>
      rw [List.forall_mem_cons] at hps hqs
      rw [List.map_cons, List.map_cons, List.map_cons, List.map_cons, List.cons.injEq,
        List.cons.injEq, outline_eq_iff hps.1 hqs.1, ih hps.2 hqs.2]

theorem isLine_outlines (hps : ∀ p ∈ ps, p.isPlain = true) :
    ∀ l ∈ Outline.contentsAll (ps.map outline), IsLine l := by
  induction ps with
  | nil => exact Code.isLine_nil
  | cons p ps ih =>
    rw [List.forall_mem_cons] at hps
    obtain ⟨hp, hps⟩ := hps
    rw [isPlain, Bool.and_eq_true] at hp
    have hline : IsLine ("program " ++ p.path.text) :=
      isLine_append (by decide) (closes_path hp.1)
    exact Code.isLine_cons (Code.isLine_node hline (Code.isLine_outlines p.items hp.2)) (ih hps)

/-- Programs one below the other are found from their text, whatever blanks are around it. -/
theorem trim_text_eq_iff (hps : ∀ p ∈ ps, p.isPlain = true) (hqs : ∀ q ∈ qs, q.isPlain = true) :
    trim (String.join (ps.map text)) = trim (String.join (qs.map text)) ↔
      ps.map bare = qs.map bare := by
  have htexts (ps : List LoweredProgram) : ps.map text = (ps.map outline).map Outline.text := by
    rw [List.map_map]
    rfl
  rw [htexts, htexts, ← map_outline_eq_iff hps hqs]
  refine ⟨Outline.trim_text_inj (isLine_outlines hps) (isLine_outlines hqs), fun h => ?_⟩
  rw [h]

theorem text_eq_iff (hp : p.isPlain = true) (hq : q.isPlain = true) :
    p.text = q.text ↔ p.bare = q.bare := by
  refine ⟨fun h => ?_, fun h => ?_⟩
  · have hps : ∀ p' ∈ [p], p'.isPlain = true := by simpa using hp
    have hqs : ∀ q' ∈ [q], q'.isPlain = true := by simpa using hq
    simpa [h] using trim_text_eq_iff hps hqs
  · rw [text, text, (outline_eq_iff hp hq).mpr h]

/-- Programs are printed alike only if they differ in nothing but places and types of parameters
that are printed alike. So a project whose expected text is that of some programs passes only if it
is lowered to these programs. -/
theorem printed_alike_iff (hps : ∀ p ∈ ps, p.isPlain = true) (hqs : ∀ q ∈ qs, q.isPlain = true) :
    (∀ p ∈ ps, ∀ q ∈ qs, p.text = q.text ↔ p.bare = q.bare) ∧
      ∀ (project : Project) (units : List Project.Compiled),
        units.filterMap (fun c => c.result.lowered) = ps →
        project.expected = .lowered (String.join (qs.map text)) →
        (project.judge units = .pass ↔
          String.join (units.map (Project.Compiled.render project)) = "" ∧
            ps.map bare = qs.map bare) := by
  refine ⟨fun p hp q hq => text_eq_iff (hps p hp) (hqs q hq), ?_⟩
  intro project units hunits hexpected
  rw [Project.judge_eq_pass_iff hexpected, Project.loweredText, hunits, trim_text_eq_iff hps hqs]

/-- A function of one parameter with a branch inside another one, and one alternative. -/
def choosing (type : Ty) (ofInner : Bool) (span : Span) : LoweredProgram where
  path := ⟨"user", "default"⟩
  items :=
    let read (x : String) := Code.read (.frame x) span
    let alternative := some (read "d")
    let inner := Code.branch (read "b") (read "c") (if ofInner then alternative else none) span
    let outer := Code.branch (read "a") inner (if ofInner then none else alternative) span
    let item : PackageItem := ⟨⟨"user", "default"⟩, "choose", true, false⟩
    [.defineFunction item [type] (.function ["x"] outer span) span]

/-- A project of one unit, with the text that is expected of a program. -/
def expecting (p : LoweredProgram) : Project :=
  ⟨"choice", [⟨"main", ""⟩], .lowered (String.join ([p].map text)), .default⟩

def compiled (p : LoweredProgram) : Project.Compiled :=
  ⟨⟨"main", ""⟩, ⟨.init p.path, some p, []⟩⟩

/-- Which branch has the alternative makes a difference; the places, and the integer type or a type
parameter of its name, make none. -/
theorem printed_alike_iff_choosing :
    (choosing .int true ⟨0, 9⟩).text = (choosing (.param "int") true ⟨5, 14⟩).text ∧
      (choosing .int true ⟨0, 9⟩).text ≠ (choosing .int false ⟨0, 9⟩).text ∧
      (expecting (choosing (.param "int") true ⟨5, 14⟩)).judge
        [compiled (choosing .int true ⟨0, 9⟩)] = .pass ∧
      (expecting (choosing .int false ⟨0, 9⟩)).judge
        [compiled (choosing .int true ⟨0, 9⟩)] ≠ .pass := by
  have hps : ∀ p ∈ [choosing .int true ⟨0, 9⟩], p.isPlain = true := by simp; decide
  have hqs : ∀ q ∈ [choosing (.param "int") true ⟨5, 14⟩], q.isPlain = true := by simp; decide
  have hqs' : ∀ q ∈ [choosing .int false ⟨0, 9⟩], q.isPlain = true := by simp; decide
  obtain ⟨hsame, hpass⟩ := printed_alike_iff hps hqs
  obtain ⟨hother, hfail⟩ := printed_alike_iff hps hqs'
  have hbare : (choosing .int true ⟨0, 9⟩).bare = (choosing (.param "int") true ⟨5, 14⟩).bare := by
    rfl
  have hbare' : (choosing .int true ⟨0, 9⟩).bare ≠ (choosing .int false ⟨0, 9⟩).bare := by
    simp [choosing, bare, Code.bare, Code.bares, Code.optionBare]
  refine ⟨(hsame _ (by simp) _ (by simp)).mpr hbare, fun h => ?_, ?_, fun h => ?_⟩
  · exact hbare' ((hother _ (by simp) _ (by simp)).mp h)
  · exact (hpass _ [compiled _] rfl rfl).mpr ⟨rfl, by simpa using hbare⟩
  · exact hbare' (by simpa using ((hfail _ [compiled _] rfl rfl).mp h).2)

end LoweredProgram

end Tern
