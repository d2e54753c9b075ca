import Mathlib.Data.Int.Notation
import ExchangeLabs.Lib.Links
import ExchangeLabs.Porcupine.Bitset

/-!
# The linearizability checker

`checker.go` and `model.go`: a history of operations becomes a doubly linked list of their
calls and returns, from which `checkSingle` takes operations out and puts them back until it
has found a linearization or tried everything.

A pointer to a node is its number in the order of allocation, and `nil` is `none`.  A function
has no result where the program dereferences `nil` or uses an index that is out of range.

## Main definitions

* `Operation`, `Entry`, `Model` — histories and what is known of the object.
* `Heap` — the nodes; `makeLinkedEntries`, `lift`, `unlift` — the list of them.
* `iterate` — one iteration of the loop of `checkSingle`.
* `checkSingle` — the check of one history.
-/

namespace ExchangeLabs.Porcupine

variable {S I O : Type}

/-! ### Histories -/

/-- `Operation`: an input and an output, with the times of invocation and response. -/
structure Operation (I O : Type) where
  clientId : ℤ
  input : I
  call : ℤ
  output : O
  ret : ℤ
  deriving DecidableEq

/-- `entryKind`. -/
inductive EntryKind
  | callEntry
  | returnEntry
  deriving DecidableEq

structure Entry (I O : Type) where
  kind : EntryKind
  value : I ⊕ O
  id : ℕ
  time : ℤ
  clientId : ℤ

/-- `Model`, once `fillDefault` has filled it in.  How operations and states are described is
left out. -/
structure Model (S I O : Type) where
  /-- A history is linearizable if and only if each of these histories is. -/
  partition : List (Operation I O) → List (List (Operation I O))
  init : S
  /-- Whether the object can take this step, and its state after it. -/
  step : S → I → O → Bool × S
  equal : S → S → Bool

def noPartition (history : List (Operation I O)) : List (List (Operation I O)) := [history]

def shallowEqual [DecidableEq S] (state1 state2 : S) : Bool := state1 == state2

/-- Fill in what a model leaves open. -/
def fillDefault [DecidableEq S]
    (partition : Option (List (Operation I O) → List (List (Operation I O)))) (init : S)
    (step : S → I → O → Bool × S) (equal : Option (S → S → Bool)) : Model S I O where
  partition := partition.getD noPartition
  init := init
  step := step
  equal := equal.getD shallowEqual

/-- `model.Step` on the values of two nodes.  It has no result if the first one is not an input
or the second one not an output. -/
def Model.stepValues (model : Model S I O) (state : S) :
    Option (I ⊕ O) → Option (I ⊕ O) → Option (Bool × S)
  | some (.inl input), some (.inr output) => some (model.step state input output)
  | _, _ => none

/-! ### The list of nodes -/

/-- `node`, but for its pointers to the next and the previous node. -/
structure Node (I O : Type) where
  value : Option (I ⊕ O)
  /-- `match`: call if it is `nil`, otherwise return. -/
  matching : Option ℕ
  id : ℤ

/-- The nodes that were allocated, and their pointers `next` and `prev`. -/
structure Heap (I O : Type) where
  nodes : List (Node I O)
  links : Links ℕ

/-- Allocate a node whose pointers are `nil`. -/
def Heap.alloc (h : Heap I O) (n : Node I O) : ℕ × Heap I O :=
  (h.nodes.length,
    { nodes := h.nodes ++ [n]
      links := (h.links.setNext h.nodes.length none).setPrev h.nodes.length none })

def insertBefore (h : Heap I O) (n : ℕ) : Option ℕ → Heap I O
  | none => h
  | some mark =>
    let beforeMark := h.links.prev mark
    let links := (h.links.setPrev mark (some n)).setNext n (some mark)
    match beforeMark with
    | none => { h with links := links }
    | some before => { h with links := (links.setPrev n (some before)).setNext before (some n) }

/-- `length`, for a list of at most `fuel` nodes. -/
def length (links : Links ℕ) : ℕ → Option ℕ → Option ℕ
  | _, none => some 0
  | 0, some _ => none
  | fuel + 1, some n => (length links fuel (links.next n)).map (· + 1)

/-- The variables of `makeLinkedEntries`. -/
structure Builder (I O : Type) where
  heap : Heap I O
  /-- The map `match` from an operation to the node of its return. -/
  matching : ℕ → Option ℕ
  root : Option ℕ

/-- The body of the loop of `makeLinkedEntries`. -/
def Builder.add (b : Builder I O) (elem : Entry I O) : Builder I O :=
  match elem.kind with
  | .returnEntry =>
    let (entry, heap) := b.heap.alloc { value := some elem.value, matching := none, id := elem.id }
    { heap := insertBefore heap entry b.root
      matching := Function.update b.matching elem.id (some entry)
      root := some entry }
  | .callEntry =>
    let (entry, heap) := b.heap.alloc
      { value := some elem.value, matching := b.matching elem.id, id := elem.id }
    { heap := insertBefore heap entry b.root
      matching := b.matching
      root := some entry }

/-- Link the entries, from the last one to the first one. -/
def makeLinkedEntries (entries : List (Entry I O)) : Builder I O :=
  entries.reverse.foldl Builder.add
    { heap := { nodes := [], links := { next := fun _ => none, prev := fun _ => none } }
      matching := fun _ => none
      root := none }

/-- Take a call and its return out of the list. -/
def lift (h : Heap I O) (entry : ℕ) : Option (Heap I O) := do
  let node ← h.nodes[entry]?
  let links := h.links
  let prev ← links.prev entry
  let links := links.setNext prev (links.next entry)
  let next ← links.next entry
  let links := links.setPrev next (links.prev entry)
  let matching ← node.matching
  let matchPrev ← links.prev matching
  let links := links.setNext matchPrev (links.next matching)
  match links.next matching with
  | none => some { h with links := links }
  | some matchNext => some { h with links := links.setPrev matchNext (links.prev matching) }

/-- Put a call and its return back. -/
def unlift (h : Heap I O) (entry : ℕ) : Option (Heap I O) := do
  let node ← h.nodes[entry]?
  let matching ← node.matching
  let matchPrev ← h.links.prev matching
  let links := h.links.setNext matchPrev (some matching)
  let links := match links.next matching with
    | none => links
    | some matchNext => links.setPrev matchNext (some matching)
  let prev ← links.prev entry
  let links := links.setNext prev (some entry)
  let next ← links.next entry
  some { h with links := links.setPrev next (some entry) }

/-! ### The search -/

structure CacheEntry (S : Type) where
  linearized : Bitset
  state : S

structure CallsEntry (S : Type) where
  entry : ℕ
  state : S

/-- The map from a hash to the cache entries with it. -/
abbrev Cache (S : Type) := BitVec 64 → List (CacheEntry S)

def cacheContains (model : Model S I O) (cache : Cache S) (entry : CacheEntry S) : Bool :=
  (cache entry.linearized.hash).any fun elem =>
    entry.linearized.equals elem.linearized && model.equal entry.state elem.state

/-- The variables of `checkSingle` that its loop changes. -/
structure Search (S I O : Type) where
  heap : Heap I O
  entry : Option ℕ
  state : S
  linearized : Bitset
  cache : Cache S
  calls : List (CallsEntry S)
  /-- For every operation the longest linearizable prefix that includes it. -/
  longest : List (Option (List ℤ))

/-- The operations of the calls. -/
def callIds (h : Heap I O) (calls : List (CallsEntry S)) : Option (List ℤ) :=
  calls.mapM fun v => h.nodes[v.entry]?.map Node.id

/-- The body of the loop over the calls, of which there are `callsLen`. -/
def noteOne (callsLen : ℕ) (seq : List ℤ) (longest : List (Option (List ℤ))) (id : ℤ) :
    Option (List (Option (List ℤ))) := do
  let i ← id.toNat?
  let old ← longest[i]?
  if old.all fun seq' => seq'.length < callsLen then some (longest.set i (some seq))
  else some longest

/-- Remember the calls as the longest prefix for those of them that have no longer one. -/
def noteLongest (h : Heap I O) (calls : List (CallsEntry S)) (longest : List (Option (List ℤ))) :
    Option (List (Option (List ℤ))) := do
  let seq ← callIds h calls
  seq.foldlM (noteOne calls.length seq) longest

/-- What an iteration leads to. -/
inductive Outcome (S I O : Type)
  /-- To the next iteration. -/
  | again (s : Search S I O)
  /-- `checkSingle` returns. -/
  | result (ok : Bool) (longest : List (Option (List ℤ)))

/-- An iteration of the loop, in which `*kill` has been read. -/
def iterate (model : Model S I O) (computePartial : Bool) (headEntry n : ℕ) (kill : Bool)
    (s : Search S I O) : Option (Outcome S I O) :=
  if s.heap.links.next headEntry = none then do
    let seq ← callIds s.heap s.calls
    some (.result true (List.replicate n (some seq)))
  else if kill then some (.result false s.longest)
  else do
    let entry ← s.entry
    let node ← s.heap.nodes[entry]?
    match node.matching with
    -- a call: its operation is linearized, if the model allows it and the state is new
    | some matching =>
      let matchNode ← s.heap.nodes[matching]?
      let (ok, newState) ← model.stepValues s.state node.value matchNode.value
      if ok then
        let id ← node.id.toNat?
        let newLinearized ← s.linearized.set id
        let newCacheEntry := { linearized := newLinearized, state := newState : CacheEntry S }
        if cacheContains model s.cache newCacheEntry then
          some (.again { s with entry := s.heap.links.next entry })
        else
          let hash := newLinearized.hash
          let heap ← lift s.heap entry
          some (.again { s with
            heap := heap
            entry := heap.links.next headEntry
            state := newState
            linearized := newLinearized
            cache := Function.update s.cache hash (s.cache hash ++ [newCacheEntry])
            calls := s.calls ++ [{ entry := entry, state := s.state }] })
      else some (.again { s with entry := s.heap.links.next entry })
    -- a return: the operation that was linearized last is put back
    | none =>
      match s.calls.getLast? with
      | none => some (.result false s.longest)
      | some callsTop =>
        let longest ← if computePartial then noteLongest s.heap s.calls s.longest
          else some s.longest
        let node ← s.heap.nodes[callsTop.entry]?
        let id ← node.id.toNat?
        let linearized ← s.linearized.clear id
        let heap ← unlift s.heap callsTop.entry
        some (.again { s with
          heap := heap
          entry := heap.links.next callsTop.entry
          state := callsTop.state
          linearized := linearized
          calls := s.calls.dropLast
          longest := longest })

/-- What `checkSingle` does before its loop: `headEntry`, `n` and the variables. -/
def prepare (model : Model S I O) (history : List (Entry I O)) :
    Option (ℕ × ℕ × Search S I O) := do
  let b := makeLinkedEntries history
  let len ← length b.heap.links b.heap.nodes.length b.root
  let n := len / 2
  let (headEntry, heap) := b.heap.alloc { value := none, matching := none, id := -1 }
  some (headEntry, n,
    { heap := insertBefore heap headEntry b.root
      entry := b.root
      state := model.init
      linearized := newBitset n
      cache := fun _ => []
      calls := []
      longest := List.replicate n none })

/-- At most `fuel` iterations of the loop, in which the values `kill` are read. -/
def loop (model : Model S I O) (computePartial : Bool) (headEntry n : ℕ) :
    ℕ → (ℕ → Bool) → Search S I O → Option (Bool × List (Option (List ℤ)))
  | 0, _, _ => none
  | fuel + 1, kill, s =>
    match iterate model computePartial headEntry n (kill 0) s with
    | none => none
    | some (.result ok longest) => some (ok, longest)
    | some (.again s') => loop model computePartial headEntry n fuel (fun t => kill (t + 1)) s'

/-- The check of one history. -/
def checkSingle (model : Model S I O) (history : List (Entry I O)) (computePartial : Bool)
    (kill : ℕ → Bool) (fuel : ℕ) : Option (Bool × List (Option (List ℤ))) := do
  let (headEntry, n, s) ← prepare model history
  loop model computePartial headEntry n fuel kill s

end ExchangeLabs.Porcupine
