import Termwise.Memory.Heap
import Termwise.Memory.Places
import Termwise.Term.Equality
import Termwise.Term.Node

/-!
# Termwise.Term.Shared

Calls in shared memory.  A value is an atom or a handle of a *node*, and a node
holds the values of a call, the head first.  It also remembers two things about
them, 0 while it does not:

```text
node   items          hash   evaluated   handles
#0     f  1  #1  #1   81..   4           1
#1     g  x           0      0           2
```

A changing operation uses its handle up and writes into the node when that was the
only handle; else it writes into a copy, and the other handles keep the node.  A
node that is copied or changed forgets what it remembered.  `Term` is what a value
comes to when nothing is shared.
-/

namespace Termwise.Shared

open Memory

/-! ## values and nodes -/

/-- An atom, or a handle of a node. -/
inductive Value where
  | atom (t : Term) (isAtom : t.kind ≠ .expr)
  | node (id : Nat)

/-- The items of a call, and what is remembered about them. -/
structure Node where
  /-- The head, and the arguments from 1 on. -/
  items : List Value
  /-- The structural hash. -/
  hash : UInt64 := 0
  /-- The generation of definitions at which the call was fully evaluated. -/
  evaluated : Nat := 0

namespace Value

/-- The empty result. -/
def null : Value := .atom .null (by decide)

/-- The node that a value keeps. -/
def refs : Value → List Nat
  | .atom _ _ => []
  | .node id => [id]

/-- The nodes that values keep. -/
def allRefs (vs : List Value) : List Nat := vs.flatMap refs

end Value

namespace Node

/-- The nodes that a node keeps. -/
def refs (n : Node) : List Nat := Value.allRefs n.items

/-- A node with the same items that remembers nothing. -/
def copy (n : Node) : Node := { items := n.items }

end Node

/-- The nodes in memory. -/
abbrev Store := Heap Node

namespace Store

/-- Let go of values. -/
def dropAll (s : Store) (vs : List Value) : Option Store := s.release Node.refs (Value.allRefs vs)

/-- The items of a call: of the empty result when there are none. -/
def filled (items : List Value) : List Value := if items.isEmpty then [.null] else items

/-! ## changing -/

/-- Replace the items of a node by others, in the node when the handle is its only one.  A change
gives the new items and the old ones that are not among them. -/
def edit (s : Store) (id : Nat) (change : List Value → List Value × List Value) :
    Option (Nat × Store) := do
  let (id, s) ← s.makeUnique Node.refs Node.copy id
  let n ← s.read id
  let (items, dropped) := change n.items
  let s ← s.write id { items }
  let s ← dropAll s dropped
  some (id, s)

/-- Replace an item; an index outside the call changes nothing, and the value is dropped. -/
def set (s : Store) (id i : Nat) (value : Value) : Option (Nat × Store) := do
  let n ← s.read id
  if n.items.length ≤ i then
    let s ← dropAll s [value]
    some (id, s)
  else s.edit id fun items => (items.set i value, items[i]?.toList)

/-- Change the number of arguments, filling up with empty results. -/
def resize (s : Store) (id arity : Nat) : Option (Nat × Store) := do
  let n ← s.read id
  if arity = n.items.length - 1 then some (id, s)
  else s.edit id fun items =>
    (items.take (arity + 1) ++ List.replicate (arity + 1 - items.length) .null,
      items.drop (arity + 1))

/-- Add arguments at the end. -/
def append (s : Store) (id : Nat) (more : List Value) : Option (Nat × Store) :=
  s.edit id fun items => (items ++ more, [])

/-- Take the items out of a node that is to be changed.  The node is out of reach until its items
are put back. -/
def lend (s : Store) (id : Nat) : Option (Nat × List Value × Store) := do
  let (id, s) ← s.makeUnique Node.refs Node.copy id
  let n ← s.read id
  some (id, n.items, s.put id none)

/-- Put items into a node that they were taken out of; without items, a call of the empty
result. -/
def giveBack (s : Store) (id : Nat) (items : List Value) : Store :=
  s.put id (some ⟨{ items := filled items }, 1⟩)

/-! ## reading -/

/-- A call of the same head on `len` arguments from the `start`-th on, clamped. -/
def range (s : Store) (id start len : Nat) : Option (Nat × Store) := do
  let n ← s.read id
  let head ← n.items.head?
  let args := (n.items.tail.drop (start - 1)).take len
  let s ← s.retainAll (Value.allRefs (head :: args))
  some (s.alloc { items := head :: args })

/-- The items of a node whose handle is used up: out of the node when that was the only handle. -/
def intoItems (s : Store) (id : Nat) : Option (List Value × Store) := do
  let n ← s.read id
  if s.handles id = 1 then some (n.items, s.put id none)
  else
    let s ← s.retainAll n.refs
    let s ← dropAll s [.node id]
    some (n.items, s)

/-- Remember that a node is fully evaluated. -/
def mark (s : Store) (id generation : Nat) : Option Store := do
  let n ← s.read id
  s.write id { n with evaluated := generation }

/-- Whether a node is known to be fully evaluated at a generation. -/
def isEvaluated (s : Store) (id generation : Nat) : Bool :=
  ((s.read id).map (·.evaluated)).any (· == generation)

end Store

/-! ## structural hash -/

/-- A piece of what a structural hash is made of. -/
inductive Token where
  | byte (n : Nat)
  | word (w : UInt64)
  | magic (m : Magic)
  | units (us : List UInt16)
deriving DecidableEq, Repr

/-- What an atom puts into a structural hash. -/
def atomTokens (t : Term) : List Token :=
  .byte t.kind.rank :: match t with
    | .magic m => [.magic m]
    | .int _ | .float _ => [.word t.numberBits]
    | .text s => [.units s.units]
    | .symbol s => [.word (UInt64.ofNat s.id)]
    | .host o => [.word o.number]
    | .node .. => []

/-- What a node with a given hash puts into a structural hash. -/
def nodeTokens (hash : UInt64) : List Token := [.byte Term.Kind.expr.rank, .word hash]

/-- The hash of what a node consists of, never 0. -/
def finish (hasher : List Token → UInt64) (tokens : List Token) : UInt64 := max (hasher tokens) 1

namespace Store

variable (hasher : List Token → UInt64)

/-- What a value puts into a structural hash, given how to hash a node. -/
def valueTokens (hash : Store → Nat → Option (UInt64 × Store)) (s : Store) :
    Value → Option (List Token × Store)
  | .atom t _ => some (atomTokens t, s)
  | .node id => do
    let (w, s) ← hash s id
    some (nodeTokens w, s)

/-- What values put into a structural hash. -/
def tokens (hash : Store → Nat → Option (UInt64 × Store)) (s : Store) :
    List Value → Option (List Token × Store)
  | [] => some ([], s)
  | v :: vs => do
    let (ts, s) ← valueTokens hash s v
    let (us, s) ← tokens hash s vs
    some (ts ++ us, s)

/-- The structural hash of a node, computed once and remembered, for calls nested less deeply than
a limit. -/
def hashWithin : Nat → Store → Nat → Option (UInt64 × Store)
  | 0, _, _ => none
  | limit + 1, s, id => do
    let n ← s.read id
    if n.hash ≠ 0 then some (n.hash, s)
    else
      let (ts, s) ← tokens (hashWithin limit) s n.items
      let hash := finish hasher ts
      let n ← s.read id
      let s ← s.write id { n with hash }
      some (hash, s)

/-- The structural hash of a node.  Calls are never nested more deeply than there are nodes. -/
def hash (s : Store) (id : Nat) : Option (UInt64 × Store) :=
  hashWithin hasher s.cells.length s id

/-! ## equality -/

/-- Whether two values are equal, given how to compare nodes. -/
def equalValue (equal : Store → Nat → Nat → Option (Bool × Store)) (s : Store) :
    Value → Value → Option (Bool × Store)
  | .atom t _, .atom u _ => some (t == u, s)
  | .node a, .node b => equal s a b
  | _, _ => some (false, s)

/-- Whether two lists of values are equal.  Later items are compared only when the earlier ones are
equal. -/
def equalItems (equal : Store → Nat → Nat → Option (Bool × Store)) (s : Store) :
    List Value → List Value → Option (Bool × Store)
  | [], [] => some (true, s)
  | x :: xs, y :: ys => do
    let (same, s) ← equalValue equal s x y
    if same then equalItems equal s xs ys else some (false, s)
  | _, _ => some (false, s)

/-- Whether two nodes are equal, for calls nested less deeply than a limit: at once when they are
the same node, else when they have as many items, the same hash, and equal items. -/
def equalWithin : Nat → Store → Nat → Nat → Option (Bool × Store)
  | 0, _, _, _ => none
  | limit + 1, s, a, b =>
    if a = b then some (true, s)
    else do
      let m ← s.read a
      let n ← s.read b
      if m.items.length ≠ n.items.length then some (false, s)
      else
        let (x, s) ← s.hash hasher a
        let (y, s) ← s.hash hasher b
        if x ≠ y then some (false, s)
        else equalItems (equalWithin limit) s m.items n.items

/-- Whether two nodes are equal. -/
def equal (s : Store) (a b : Nat) : Option (Bool × Store) :=
  equalWithin hasher s.cells.length s a b

end Store

/-! ## programs -/

/-- A value that an operation is given: an atom, or the value in a place, used up or not. -/
inductive Operand where
  | atom (t : Term) (isAtom : t.kind ≠ .expr)
  | copy (r : Nat)
  | move (r : Nat)

/-- An operation on the values in places. -/
inductive Op where
  | blank (head : Operand) (arity : Nat)
  | call (head : Operand) (args : List Operand)
  | ofItems (items : List Operand)
  | clone (r : Nat)
  | drop (r : Nat)
  | item (r i : Nat)
  | set (r i : Nat) (value : Operand)
  | resize (r arity : Nat)
  | append (r : Nat) (args : List Operand)
  | lend (r : Nat)
  | giveBack (items : List Operand)
  | range (r start len : Nat)
  | intoItems (r : Nat)
  | hash (r : Nat)
  | mark (r generation : Nat)
  | equal (r other : Nat)

/-- Nodes, the values that a program has, and the nodes that their items were taken out of. -/
structure State where
  store : Store := {}
  places : Places Value := {}
  lent : List Nat := []

namespace State

/-- The value that an operation is given. -/
def operand (st : State) : Operand → Option (Value × State)
  | .atom t isAtom => some (.atom t isAtom, st)
  | .copy r => do
    let v ← st.places.get? r
    let store ← st.store.retainAll v.refs
    some (v, { st with store })
  | .move r => do
    let (v, places) ← st.places.take? r
    some (v, { st with places })

/-- The values that an operation is given, one after the other. -/
def operands (st : State) : List Operand → Option (List Value × State)
  | [] => some ([], st)
  | o :: os => do
    let (v, st) ← st.operand o
    let (vs, st) ← st.operands os
    some (v :: vs, st)

/-- The node in a place. -/
def node? (st : State) (r : Nat) : Option Nat :=
  (st.places.get? r).bind fun
    | .node id => some id
    | .atom _ _ => none

/-- The node in a place, used up. -/
def takeNode? (st : State) (r : Nat) : Option (Nat × State) := do
  let (v, places) ← st.places.take? r
  match v with
  | .node id => some (id, { st with places })
  | .atom _ _ => none

/-- A value for the next place. -/
def add (st : State) (given : Value × Store) : State :=
  { st with store := given.2, places := st.places.add given.1 }

/-- A handle for the next place. -/
def addNode (st : State) (given : Nat × Store) : State := st.add (.node given.1, given.2)

/-- Values for the next places. -/
def addAll (st : State) (given : List Value × Store) : State :=
  { st with store := given.2, places := ⟨st.places.entries ++ given.1.map some⟩ }

variable (hasher : List Token → UInt64)

/-- One operation.  Nothing when there is no value in a place that it names, or an atom where it
takes a call, or when it fails. -/
def step (st : State) : Op → Option State
  | .blank head arity => do
    let (v, st) ← st.operand head
    some (st.addNode (st.store.alloc { items := v :: List.replicate arity .null }))
  | .call head args => do
    let (v, st) ← st.operand head
    let (vs, st) ← st.operands args
    some (st.addNode (st.store.alloc { items := v :: vs }))
  | .ofItems items => do
    let (vs, st) ← st.operands items
    some (st.addNode (st.store.alloc { items := Store.filled vs }))
  | .clone r => do
    let (v, st) ← st.operand (.copy r)
    some (st.add (v, st.store))
  | .drop r => do
    let (v, st) ← st.operand (.move r)
    let store ← st.store.dropAll [v]
    some { st with store }
  | .item r i => do
    let n ← st.store.read (← st.node? r)
    let v := n.items.getD i .null
    let store ← st.store.retainAll v.refs
    some (st.add (v, store))
  | .set r i value => do
    let (id, st) ← st.takeNode? r
    let (v, st) ← st.operand value
    some (st.addNode (← st.store.set id i v))
  | .resize r arity => do
    let (id, st) ← st.takeNode? r
    some (st.addNode (← st.store.resize id arity))
  | .append r args => do
    let (id, st) ← st.takeNode? r
    let (vs, st) ← st.operands args
    some (st.addNode (← st.store.append id vs))
  | .lend r => do
    let (id, st) ← st.takeNode? r
    let (id, given) ← st.store.lend id
    some { st.addAll given with lent := id :: st.lent }
  | .giveBack items => do
    let (vs, st) ← st.operands items
    match st.lent with
    | [] => none
    | id :: lent => some { st.addNode (id, st.store.giveBack id vs) with lent }
  | .range r start len => do
    some (st.addNode (← st.store.range (← st.node? r) start len))
  | .intoItems r => do
    let (id, st) ← st.takeNode? r
    some (st.addAll (← st.store.intoItems id))
  | .hash r => do
    let (_, store) ← st.store.hash hasher (← st.node? r)
    some { st with store }
  | .mark r generation => do
    let store ← st.store.mark (← st.node? r) generation
    some { st with store }
  | .equal r other => do
    let (_, store) ← st.store.equal hasher (← st.node? r) (← st.node? other)
    some { st with store }

/-- The operations of a program, one after the other. -/
def run (st : State) (ops : List Op) : Option State := ops.foldlM (step hasher) st

end State

end Termwise.Shared
