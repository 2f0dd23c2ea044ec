import Tern.Reference

/-!
The order in which the items of a unit are converted: every declaration comes before what uses it,
and all else keeps its place. Values that need each other before any function is called form a
cycle, which is reported.
-/

set_option autoImplicit false

namespace Tern

structure Cycle where
  names : List String
  span : Span
  deriving DecidableEq, Repr

namespace Order

/-- A use of what another item declares. It is eager if the value is needed at once and the other
item is no function. -/
structure Edge where
  producer : Nat
  eager : Bool
  deriving DecidableEq, Repr

def producer? (items : List Node) (name : String) : Option Nat :=
  items.findIdx? fun item => item.declaredNames.contains name

/-- The uses in the item at `index` of what other items declare, in order. -/
def edges (items : List Node) (index : Nat) (item : Node) : List Edge :=
  (Reference.ofItem item).filterMap fun r =>
    match producer? items r.name with
    | none => none
    | some p =>
      if p = index then none
      else some ⟨p, r.eager && !(items[p]?.any Node.isFunction)⟩

structure State where
  fresh : List Nat
  order : List Nat
  cycles : List Cycle
  deriving Repr

/-- An item on the way to the current one, and whether the step to it was eager. -/
structure Step where
  item : Nat
  eager : Bool

/-- The items from `producer` to the end of the path, which is given from its end, if all steps
between them are eager. -/
def eagerCycle? (producer : Nat) : List Step → Option (List Nat)
  | [] => none
  | s :: rest =>
    if s.item = producer then some [s.item]
    else if s.eager then (eagerCycle? producer rest).map (· ++ [s.item])
    else none

def cycle? (items : List Node) (path : List Step) (e : Edge) : Option Cycle :=
  if e.eager then
    (eagerCycle? e.producer path).map fun cycle =>
      { names := cycle.flatMap fun i => (items[i]?.map Node.declaredNames).getD []
        span := (items[e.producer]?.map Node.span).getD ⟨0, 0⟩ }
  else none

theorem length_erase_lt {n : Nat} {fresh : List Nat} (h : n ∈ fresh) :
    (fresh.erase n).length < fresh.length := by
  have := List.length_pos_of_mem h
  rw [List.length_erase_of_mem h]
  omega

mutual
/-- Puts what the item at `n` uses into the order, and then the item. -/
def visit (items : List Node) (graph : List (List Edge)) (path : List Step) (s : State) (n : Nat)
    (h : n ∈ s.fresh) : { s' : State // s'.fresh.length < s.fresh.length } :=
  let met : State := { s with fresh := s.fresh.erase n }
  have hlt : met.fresh.length < s.fresh.length := length_erase_lt h
  let ⟨done, hle⟩ := follow items graph path met (graph[n]?.getD [])
  ⟨{ done with order := done.order ++ [n] }, Nat.lt_of_le_of_lt hle hlt⟩
termination_by (s.fresh.length, 0)
def follow (items : List Node) (graph : List (List Edge)) (path : List Step) (s : State)
    (es : List Edge) : { s' : State // s'.fresh.length ≤ s.fresh.length } :=
  match es with
  | [] => ⟨s, Nat.le_refl _⟩
  | e :: rest =>
    if h : e.producer ∈ s.fresh then
      let ⟨s', hlt⟩ := visit items graph (⟨e.producer, e.eager⟩ :: path) s e.producer h
      let ⟨s'', hle⟩ := follow items graph path s' rest
      ⟨s'', Nat.le_trans hle (Nat.le_of_lt hlt)⟩
    else
      let s' := { s with cycles := s.cycles ++ (cycle? items path e).toList }
      let ⟨s'', hle⟩ := follow items graph path s' rest
      ⟨s'', hle⟩
termination_by (s.fresh.length, es.length + 1)
end

/-- Visits items in their written order, those first met as they come. -/
def visitAll (items : List Node) (graph : List (List Edge)) : List Nat → State → State
  | [], s => s
  | n :: ns, s =>
    if h : n ∈ s.fresh then
      visitAll items graph ns (visit items graph [⟨n, false⟩] s n h).val
    else visitAll items graph ns s

def graph (items : List Node) : List (List Edge) :=
  items.zipIdx.map fun (item, i) => edges items i item

end Order

structure Order where
  order : List Nat
  cycles : List Cycle
  deriving DecidableEq, Repr

def Order.ofItems (items : List Node) : Order :=
  let all := List.range items.length
  let s := Order.visitAll items (Order.graph items) all ⟨all, [], []⟩
  ⟨s.order, s.cycles⟩

end Tern
