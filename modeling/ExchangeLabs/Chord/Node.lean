import ExchangeLabs.Lib.Circle
import ExchangeLabs.Lib.Sha1
import ExchangeLabs.Lib.Table

/-!
# Chord nodes

The state of a Chord node, the remote calls, and what a node does with them:
`chord.go`, `rpc.go` and `StartServer` of the Chord lab.

A network is the table of the running nodes under their addresses.  A call to an
address at which no node runs fails.  The addresses in the state of a node are
resolved ones, which every call resolves to themselves, so the calls do not resolve
them again.

## Main definitions

* `hash`, `between` — identifiers and the test of an interval on the circle.
* `Node`, `Network` — one node, and those that run.
* `startServer` — a node creates a ring or joins one.
* `Node.findClosetPredecessor`, `findSuccessor` — the lookup.
* `stabilize`, `Node.notify`, `checkPredecessor`, `fixFingers` — the upkeep of the pointers.

## Main results

* `between_false_iff`, `between_true_iff` — the test compares two ways on the circle.
* `resolveAddress_ne_empty` — no node runs at the empty address.
-/

namespace ExchangeLabs.Chord

/-! ### Identifiers -/

abbrev Address := String

/-- `sha1.Size * 8`. -/
def keySize : ℕ := 160

def maxLookupSteps : ℕ := 32

def hashMod : ℕ := 2 ^ keySize

/-- The SHA-1 hash of a string. -/
def hash (elt : String) : ℕ := (Sha1.sum elt.toUTF8.data.toList).toNat

theorem hash_lt (elt : String) : hash elt < hashMod := (Sha1.sum _).isLt

/-- `elt` is between `start` and `end'`, or at `end'` if that is included. -/
def between (start elt end' : ℕ) (inclusive : Bool) : Bool :=
  if end' > start then
    (start < elt && elt < end') || (inclusive && elt == end')
  else start < elt || elt < end' || (inclusive && elt == end')

/-- A full turn does not count. -/
theorem between_self (start end' : ℕ) : between start start end' false = false := by
  unfold between
  split
  · simp
  · next hle => simpa using hle

section Between

variable {M start elt end' : ℕ} (hs : start < M) (he : elt < M) (hd : end' < M)
include hs he hd

theorem between_false_iff :
    between start elt end' false = true ↔ Circle.arc M start elt < Circle.arc M start end' := by
  rw [Circle.arc_eq hs he, Circle.arc_eq hs hd]
  unfold between
  split_ifs <;> simp <;> omega

theorem between_true_iff :
    between start elt end' true = true ↔ Circle.arc M start elt ≤ Circle.arc M start end' := by
  rw [Circle.arc_eq hs he, Circle.arc_eq hs hd]
  unfold between
  split_ifs <;> simp <;> omega

end Between

/-! ### Addresses -/

def defaultPort : String := "3410"

/-- `net.JoinHostPort`. -/
def joinHostPort (host port : String) : String :=
  if ':' ∈ host.toList then "[" ++ host ++ "]:" ++ port else host ++ ":" ++ port

/-- `:port` gets the local address, and an address without a port the default one. -/
def resolveAddress (localaddress address : String) : Address :=
  match address.toList with
  | ':' :: port => joinHostPort localaddress (String.ofList port)
  | chars => if ':' ∈ chars then address else joinHostPort address defaultPort

theorem joinHostPort_ne_empty (host port : String) : joinHostPort host port ≠ "" := by
  intro h
  have hlist := congrArg String.toList h
  unfold joinHostPort at hlist
  split at hlist <;> simp at hlist

theorem resolveAddress_ne_empty (localaddress address : String) :
    resolveAddress localaddress address ≠ "" := by
  unfold resolveAddress
  split
  · exact joinHostPort_ne_empty _ _
  · split
    · next hmem =>
      rintro rfl
      simp at hmem
    · exact joinHostPort_ne_empty _ _

/-! ### Nodes -/

structure Node where
  id : ℕ
  /-- An address that is `""` is none. -/
  predecessor : Address
  successors : List Address
  /-- The entries `1` to `keySize`; the entry `0` is not used. -/
  fingerTable : Vector Address (keySize + 1)
  bucket : Table String String
  numberOfSuccessors : ℕ

/-- The nodes that run, under their addresses. -/
abbrev Network := Table Address Node

namespace Node

/-- The entries of the finger table that are used. -/
def fingers (n : Node) : List Address := n.fingerTable.toList.tail

/-- The last entry of the finger table that is between the node and `id`, or the
node itself. -/
def findClosetPredecessor (n : Node) (address : Address) (id : ℕ) : Address :=
  -- the loop goes down from `keySize` to `1`
  (n.fingers.reverse.find? fun fingerAddr =>
    fingerAddr != "" && between n.id (hash fingerAddr) id false).getD address

/-- The handler of `Notify`. -/
def notify (n : Node) (cand : Address) : Node :=
  if cand = "" then n
  else if n.predecessor = "" then { n with predecessor := cand }
  else if between (hash n.predecessor) (hash cand) n.id false then { n with predecessor := cand }
  else n

end Node

/-! ### Remote calls -/

section Calls

variable (net : Network) (address : Address)

def callGetPredecessor : Option Address := (net.lookup address).map (·.predecessor)

/-- An empty list is an error. -/
def callGetSuccessorList : Option (List Address) :=
  (net.lookup address).bind fun n => if n.successors = [] then none else some n.successors

def callFindClosetPredecessor (id : ℕ) : Option Address :=
  (net.lookup address).map (·.findClosetPredecessor address id)

/-- The network after the call. -/
def callNotify (currentAddress : Address) : Network :=
  Table.modify address (·.notify currentAddress) net

def getAllKeyValues : Option (Table String String) := (net.lookup address).map (·.bucket)

end Calls

/-! ### Starting a node -/

/-- `StartServer` with the number `r` of successors and, if it is given, the parsed
identifier `id`: it creates a ring if `nprime` is empty and else joins one.  It fails
where the address is in use. -/
def startServer (localaddress : String) (net : Network) (address nprime : String) (r : ℕ)
    (id : Option ℕ) : Option Network :=
  let address := resolveAddress localaddress address
  let node : Node :=
    { id := id.getD (hash address)
      predecessor := ""
      successors := []
      fingerTable := Vector.replicate (keySize + 1) ""
      bucket := ∅
      numberOfSuccessors := r }
  let node :=
    if nprime = "" then { node with successors := [address] }
    else
      let nprime := resolveAddress localaddress nprime
      { node with
        successors := [nprime]
        bucket := (getAllKeyValues net nprime).getD ∅ }
  if address ∈ net then none else some (net.insert address node)

/-! ### Lookups -/

inductive LookupError
  /-- "Node has no succesor" -/
  | noSuccesor
  /-- "Lookup failed, steps exceeded" -/
  | stepsExceeded
  /-- "Node ... has empty successor list" -/
  | emptySuccessorList (address : Address)
  /-- A remote call has failed. -/
  | callFailed (address : Address)
  deriving DecidableEq, Repr

/-- The loop of `findSuccessor`; it gives up when `steps` exceeds `maxLookupSteps`,
that is when `left` is used up. -/
def findSuccessorLoop (net : Network) (id : ℕ) : ℕ → Address → Except LookupError Address
  | 0, _ => .error .stepsExceeded
  | left + 1, currentCandidate =>
    match (callGetSuccessorList net currentCandidate).getD [] with
    | [] => .error (.emptySuccessorList currentCandidate)
    | candidateSuccessor :: _ =>
      if between (hash currentCandidate) id (hash candidateSuccessor) true then
        .ok candidateSuccessor
      else
        match callFindClosetPredecessor net currentCandidate id with
        | none => .error (.callFailed currentCandidate)
        | some nextHop =>
          if nextHop = currentCandidate then .ok candidateSuccessor
          else findSuccessorLoop net id left nextHop

/-- The node at `address` looks up the successor of `id`. -/
def findSuccessor (net : Network) (address : Address) (n : Node) (id : ℕ) :
    Except LookupError Address :=
  let currentCandidate := n.findClosetPredecessor address id
  if currentCandidate = address then
    match n.successors with
    | [] => .error .noSuccesor
    | successor :: _ => .ok successor
  else findSuccessorLoop net id (maxLookupSteps + 1) currentCandidate

/-! ### Upkeep -/

/-- The node at `address` looks for its successor, and tells it. -/
def stabilize (net : Network) (address : Address) : Network :=
  match net.lookup address with
  | none => net
  | some n =>
    let succList := n.successors
    if succList = [] then net
    else
      match succList.findIdx? fun s => (callGetPredecessor net s).isSome with
      | none => Table.modify address (fun n => { n with successors := [address] }) net
      | some succIndex =>
        let net :=
          if succIndex > 0 then
            Table.modify address (fun n =>
              if succIndex < n.successors.length then
                { n with successors := n.successors.drop succIndex }
              else n) net
          else net
        let alive := succList.getD succIndex ""
        let succAddr :=
          match callGetPredecessor net alive with
          | none => alive
          | some x => if x ≠ "" ∧ between n.id (hash x) (hash alive) false then x else alive
        let net := callNotify net succAddr address
        match callGetSuccessorList net succAddr with
        | none => net
        | some remoteList =>
          Table.modify address (fun n =>
            { n with successors := (succAddr :: remoteList).take n.numberOfSuccessors }) net

/-- The node at `address` forgets its predecessor if that does not answer. -/
def checkPredecessor (net : Network) (address : Address) : Network :=
  match net.lookup address with
  | none => net
  | some n =>
    let pred := n.predecessor
    if pred = "" then net
    else if pred ∈ net then net
    else
      Table.modify address (fun n =>
        if n.predecessor = pred then { n with predecessor := "" } else n) net

/-- The finger that `fixFingers` repairs. -/
def fingerIndex (nextFinger : ℤ) : ℕ :=
  if nextFinger < 1 ∨ nextFinger > keySize then 1 else nextFinger.toNat

/-- Where the finger `i` of the node `id` should point to. -/
def fingerTarget (id i : ℕ) : ℕ := (id + 2 ^ (i - 1)) % hashMod

/-- What `fixFingers` does with what it has looked up. -/
def Node.setFinger (n : Node) (i : ℕ) (result : Except LookupError Address) : Node :=
  match result with
  | .error _ => n
  | .ok addr =>
    if addr = "" then n else { n with fingerTable := n.fingerTable.setIfInBounds i addr }

/-- The node at `address` repairs one finger; the result has the next one to repair. -/
def fixFingers (net : Network) (address : Address) (nextFinger : ℤ) : Network × ℤ :=
  match net.lookup address with
  | none => (net, nextFinger)
  | some n =>
    let i := fingerIndex nextFinger
    let result := findSuccessor net address n (fingerTarget n.id i)
    (Table.modify address (·.setFinger i result) net, if i + 1 > keySize then 1 else i + 1)

end ExchangeLabs.Chord
