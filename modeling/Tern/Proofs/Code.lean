import Tern.Code
import Tern.Namespace

/-!
Closed code. A walk through the code in the order in which it is written keeps a frame for every
function around the current place, and one for the item; a use of a variable has to find the variable
in these frames, or in the namespace.
-/

set_option autoImplicit false

namespace Tern

namespace Code

/-- The parts in the order in which they are written. -/
def children : Code → List Code
  | value _ _ | read _ _ | defineData _ _ _ _ => []
  | interpolation cs _ | block cs _ | array cs _ => cs
  | write _ v _ | defineFunction _ _ v _ | defineVariable _ v _ | declareLocal _ _ v _
  | function _ v _ | field v _ _ | unary _ v _ | test v _ _ => [v]
  | index l r _ | binary _ l r _ | loop l r _ => [l, r]
  | writeIndex r i v _ => [r, i, v]
  | call callee args _ => callee :: args
  | branch c t e _ => c :: t :: e.toList
  | ret v _ => v.toList

/-- The storage that is read or written. -/
def storage? : Code → Option Storage
  | read s _ | write s _ _ => some s
  | _ => none

def isFunction : Code → Bool
  | function _ _ _ => true
  | _ => false

/-- A local variable of the name is declared, outside of nested functions. -/
inductive Declares : Code → String → Prop
  | here (x : String) (isMutable : Bool) (v : Code) (span : Span) :
      Declares (.declareLocal x isMutable v span) x
  | child {code k : Code} {x : String} (hf : code.isFunction = false) (hk : k ∈ code.children)
      (h : Declares k x) : Declares code x

end Code

/-- What a function, or an item, has declared up to some place in it. -/
structure Frame where
  params : List String
  declared : String → Prop

namespace Frame

/-- An item before its start. -/
def item : Frame := ⟨[], fun _ => False⟩

/-- More names are declared in the innermost frame. -/
def declare (names : String → Prop) : List Frame → List Frame
  | [] => []
  | f :: fs => ⟨f.params, fun x => f.declared x ∨ names x⟩ :: fs

end Frame

/-- The variable is found where the storage says, seen from the innermost frame. -/
def Storage.FoundIn (ns : Namespace) (frames : List Frame) : Storage → Prop
  | argument index => 1 < frames.length ∧ ∃ f, frames[0]? = some f ∧ index < f.params.length
  | outer name depth => 1 ≤ depth ∧ ∃ f, frames[depth]? = some f ∧ (name ∈ f.params ∨ f.declared name)
  | .frame name => ∃ f, frames[0]? = some f ∧ f.declared name
  | package path name => (ns.symbol? path name).isSome

namespace Code

/-- The frames for the parts of a code: a function has one of its own, and a declaration comes before
its value. -/
def enter : Code → List Frame → List Frame
  | function params _ _, frames => ⟨params, fun _ => False⟩ :: frames
  | declareLocal x _ _ _, frames => Frame.declare (· = x) frames
  | _, frames => frames

/-- Every use of a variable finds it, and every part is closed after the parts before it. -/
inductive Closed (ns : Namespace) : List Frame → Code → Prop
  | intro {frames : List Frame} {code : Code}
      (found : ∀ s, code.storage? = some s → s.FoundIn ns frames)
      (parts : ∀ before k after, code.children = before ++ k :: after →
        Closed ns (Frame.declare (fun x => ∃ b ∈ before, b.Declares x) (code.enter frames)) k) :
      Closed ns frames code

end Code

/-! More declarations do no harm -/

/-- The same frames, perhaps with more names. -/
inductive Frame.Le : List Frame → List Frame → Prop
  | nil : Le [] []
  | cons {f g : Frame} {fs gs : List Frame} (hp : g.params = f.params)
      (hd : ∀ x, f.declared x → g.declared x) (h : Le fs gs) : Le (f :: fs) (g :: gs)

namespace Frame

variable {fs gs : List Frame}

theorem Le.refl (fs : List Frame) : Le fs fs := by
  induction fs with
  | nil => exact .nil
  | cons f fs ih => exact .cons rfl (fun _ h => h) ih

theorem Le.length_eq (h : Le fs gs) : gs.length = fs.length := by
  induction h with
  | nil => rfl
  | cons _ _ _ ih => simp [ih]

theorem Le.getElem? (h : Le fs gs) {i : Nat} {f : Frame} (hf : fs[i]? = some f) :
    ∃ g, gs[i]? = some g ∧ g.params = f.params ∧ ∀ x, f.declared x → g.declared x := by
  induction h generalizing i with
  | nil => simp at hf
  | @cons f' g fs gs hp hd _ ih =>
    cases i with
    | zero =>
      cases hf
      exact ⟨g, rfl, hp, hd⟩
    | succ i => exact ih hf

theorem le_declare (names : String → Prop) (fs : List Frame) : Le fs (declare names fs) := by
  cases fs with
  | nil => exact .nil
  | cons f fs => exact .cons rfl (fun _ h => Or.inl h) (.refl fs)

theorem Le.declare {names names' : String → Prop} (h : Le fs gs)
    (hn : ∀ x, names x → names' x) : Le (declare names fs) (Frame.declare names' gs) := by
  cases h with
  | nil => exact .nil
  | cons hp hd h => exact .cons hp (fun x hx => hx.imp (hd x) (hn x)) h

theorem declare_declare_le {names names' both : String → Prop}
    (hn : ∀ x, names x ∨ names' x → both x) :
    Le (declare names' (declare names fs)) (declare both fs) := by
  cases fs with
  | nil => exact .nil
  | cons f fs =>
    refine .cons rfl (fun x hx => ?_) (.refl fs)
    rcases hx with (hx | hx) | hx
    · exact Or.inl hx
    · exact Or.inr (hn x (Or.inl hx))
    · exact Or.inr (hn x (Or.inr hx))

end Frame

theorem Storage.FoundIn.mono {ns : Namespace} {fs gs : List Frame} {s : Storage}
    (h : s.FoundIn ns fs) (hle : Frame.Le fs gs) : s.FoundIn ns gs := by
  cases s with
  | argument index =>
    obtain ⟨hl, f, hf, hi⟩ := h
    obtain ⟨g, hg, hp, _⟩ := hle.getElem? hf
    exact ⟨hle.length_eq ▸ hl, g, hg, hp ▸ hi⟩
  | outer name depth =>
    obtain ⟨hd, f, hf, hn⟩ := h
    obtain ⟨g, hg, hp, hdecl⟩ := hle.getElem? hf
    exact ⟨hd, g, hg, hn.imp (fun hm => hp ▸ hm) (hdecl name)⟩
  | frame name =>
    obtain ⟨f, hf, hn⟩ := h
    obtain ⟨g, hg, _, hdecl⟩ := hle.getElem? hf
    exact ⟨g, hg, hdecl name hn⟩
  | package path name => exact h

namespace Code

theorem le_enter {fs gs : List Frame} (code : Code) (h : Frame.Le fs gs) :
    Frame.Le (code.enter fs) (code.enter gs) := by
  cases code with
  | function params body span => exact .cons rfl (fun _ h => h) h
  | declareLocal x m v span => exact h.declare fun _ h => h
  | _ => exact h

theorem Closed.mono {ns : Namespace} {fs gs : List Frame} {code : Code} (h : Closed ns fs code)
    (hle : Frame.Le fs gs) : Closed ns gs code := by
  induction h generalizing gs with
  | @intro fs code found _ ih =>
    refine .intro (fun s hs => (found s hs).mono hle) ?_
    intro before k after hk
    exact ih before k after hk ((code.le_enter hle).declare fun _ h => h)

end Code

end Tern
