import ExchangeLabs.Chord.Encryption
import ExchangeLabs.Chord.Routing

/-!
# Stored files

The buckets of the nodes and the shell commands that use them: the handlers in
`chord.go`, the calls in `rpc.go`, and `storefile` and `lookup` of `RunShell`.

A file is stored under its base name at the owner of the name's hash, which then puts it
to its successors, one after the other.  The `lookup` command reads from the owner, and
after a miss from the next two nodes.  A value that is empty counts as a miss.

## Main definitions

* `Node.put`, `Node.get`, `Node.delete` — the handlers.
* `replicateToSuccessors` — how a value gets to the replicas.
* `Aead.storeFile`, `lookupValue`, `Aead.lookupFile` — the shell commands.
* `SamePointers net net'` — the networks differ in their buckets only.

## Main results

* `replicateToSuccessors_spec` — **which nodes have the value afterwards.**
* `SamePointers.findSuccessor_eq` — lookups do not depend on buckets.
* `lookupValue_primary`, `lookupValue_replica1`, `lookupValue_replica2`,
  `lookupValue_miss` — **what `lookup` reads**: the first value of three nodes.
-/

namespace ExchangeLabs.Chord

variable {net net' : Network} {a b address target : Address} {n : Node} {key value : String}

/-! ### Buckets -/

namespace Node

/-- The handler of `Put`, without the replication. -/
def put (n : Node) (key value : String) : Node := { n with bucket := n.bucket.insert key value }

/-- The handler of `Get`; a miss is the empty value. -/
def get (n : Node) (key : String) : String := (n.bucket.lookup key).getD ""

/-- The handler of `Delete`. -/
def delete (n : Node) (key : String) : Node := { n with bucket := n.bucket.erase key }

/-- All of a node but its bucket. -/
def pointers (n : Node) : Node := { n with bucket := ∅ }

@[simp] theorem get_put (n : Node) (key value : String) : (n.put key value).get key = value := by
  simp [put, get]

@[simp] theorem get_delete (n : Node) (key : String) : (n.delete key).get key = "" := by
  simp [delete, get]

@[simp] theorem pointers_put (n : Node) (key value : String) :
    (n.put key value).pointers = n.pointers := rfl

@[simp] theorem pointers_delete (n : Node) (key : String) : (n.delete key).pointers = n.pointers :=
  rfl

end Node

/-! ### Remote calls -/

/-- The owner's `Put`, without the replication that it starts. -/
def putKeyValue (net : Network) (key value : String) (address : Address) : Option Network :=
  if address ∈ net then some (Table.modify address (·.put key value) net) else none

/-- A call that fails is only logged. -/
def callPutReplica (net : Network) (address : Address) (key value : String) : Network :=
  Table.modify address (·.put key value) net

/-- A call that fails leaves the empty value. -/
def getValue (net : Network) (key : String) (address : Address) : String :=
  ((net.lookup address).map (·.get key)).getD ""

def deleteKey (net : Network) (key : String) (address : Address) : Option Network :=
  if address ∈ net then some (Table.modify address (·.delete key) net) else none

/-- The node at `address` puts a value to its successors.  It panics where its list of
successors is too short. -/
def replicateToSuccessors (net : Network) (address : Address) (key value : String) :
    Option Network :=
  (net.lookup address).bind fun n =>
    (List.range n.numberOfSuccessors).foldlM (fun net i =>
      (n.successors[i]?).map fun addr =>
        if addr = address then net else callPutReplica net addr key value) net

/-! ### Shell commands -/

/-- `storefile`, up to the replication: the owner and the network after its `Put`. -/
def Aead.storeFile (aead : Aead) (net : Network) (address : Address) (n : Node)
    (filename : String) (nonce : Vector UInt8 nonceSize) (data : List UInt8) :
    Option (Address × Network) :=
  match findSuccessor net address n (hash filename) with
  | .error _ => none
  | .ok succ => (putKeyValue net filename (aead.encrypt nonce data) succ).map (succ, ·)

/-- What `lookup` reads, which is empty after a miss at all nodes that it asks. -/
def lookupValue (net : Network) (address : Address) (n : Node) (filename : String) :
    Except LookupError String :=
  match findSuccessor net address n (hash filename) with
  | .error e => .error e
  | .ok targetNode =>
    let value := getValue net filename targetNode
    if value ≠ "" then .ok value
    else
      match findSuccessor net address n (hash targetNode + 1) with
      -- without an address there is no second replica either
      | .error _ => .ok ""
      | .ok replicaNode1 =>
        let value := if replicaNode1 ≠ targetNode then getValue net filename replicaNode1 else ""
        if value ≠ "" then .ok value
        else if replicaNode1 = "" then .ok ""
        else
          match findSuccessor net address n (hash replicaNode1 + 1) with
          | .error _ => .ok ""
          | .ok replicaNode2 =>
            if replicaNode2 ≠ replicaNode1 ∧ replicaNode2 ≠ targetNode then
              .ok (getValue net filename replicaNode2)
            else .ok ""

/-- How a `lookup` command ends. -/
inductive LookupOutput
  | failed (error : LookupError)
  /-- "File ... not found in ring (checked primary and replicas)." -/
  | notFound
  /-- The value that it could not decrypt. -/
  | raw (value : String)
  | content (data : List UInt8)
  deriving DecidableEq, Repr

def Aead.lookupFile (aead : Aead) (net : Network) (address : Address) (n : Node)
    (filename : String) : LookupOutput :=
  match lookupValue net address n filename with
  | .error e => .failed e
  | .ok value =>
    if value = "" then .notFound
    else
      match aead.decrypt value with
      | none => .raw value
      | some data => .content data

/-! ### Lookups and buckets -/

/-- The networks differ in the buckets of their nodes only. -/
def SamePointers (net net' : Network) : Prop :=
  ∀ a, (net.lookup a).map Node.pointers = (net'.lookup a).map Node.pointers

theorem SamePointers.refl (net : Network) : SamePointers net net := fun _ => rfl

theorem SamePointers.trans {net'' : Network} (h : SamePointers net net')
    (h' : SamePointers net' net'') : SamePointers net net'' := fun a => (h a).trans (h' a)

theorem SamePointers.symm (h : SamePointers net net') : SamePointers net' net := fun a => (h a).symm

/-- A handler that keeps the pointers of its node. -/
theorem samePointers_modify (net : Network) (address : Address) {f : Node → Node}
    (hf : ∀ n, (f n).pointers = n.pointers) : SamePointers net (Table.modify address f net) := by
  intro a
  rw [Table.lookup_modify]
  split
  · next heq =>
    rw [heq, Option.map_map]
    exact congrArg (fun g => Option.map g (net.lookup address)) (funext fun n => (hf n).symm)
  · rfl

namespace SamePointers

variable (h : SamePointers net net')
include h

theorem lookup (hn : net.lookup a = some n) :
    ∃ n', net'.lookup a = some n' ∧ n'.pointers = n.pointers := by
  have heq := h a
  rw [hn] at heq
  exact Option.map_eq_some_iff.mp heq.symm

theorem lookup_none (hn : net.lookup a = none) : net'.lookup a = none := by
  have heq := h a
  rw [hn] at heq
  exact Option.map_eq_none_iff.mp heq.symm

theorem mem_iff : a ∈ net ↔ a ∈ net' := by
  rw [← AList.lookup_isSome, ← AList.lookup_isSome, ← Option.isSome_map (f := Node.pointers),
    h a, Option.isSome_map]

theorem members_eq : members net = members net' := by
  ext a
  rw [mem_members, mem_members, h.mem_iff]

theorem hop_eq (id : ℕ) : hop net id = hop net' id := by
  funext a
  unfold hop
  cases hn : net.lookup a with
  | none => rw [h.lookup_none hn]
  | some n =>
    obtain ⟨n', hn', hpointers⟩ := h.lookup hn
    rw [hn']
    exact (congrArg (·.findClosetPredecessor a id) hpointers).symm

theorem findSuccessorLoop_eq (id left : ℕ) (a : Address) :
    findSuccessorLoop net id left a = findSuccessorLoop net' id left a := by
  have hlists (a : Address) : callGetSuccessorList net a = callGetSuccessorList net' a := by
    unfold callGetSuccessorList
    cases hn : net.lookup a with
    | none => rw [h.lookup_none hn]
    | some n =>
      obtain ⟨n', hn', hpointers⟩ := h.lookup hn
      have hsucc : n'.successors = n.successors := congrArg (·.successors) hpointers
      rw [hn', Option.bind_some, Option.bind_some, hsucc]
  have hcalls (a : Address) : callFindClosetPredecessor net a id =
      callFindClosetPredecessor net' a id := by
    have heq := congrArg (Option.map (·.findClosetPredecessor a id)) (h a)
    rw [Option.map_map, Option.map_map] at heq
    exact heq
  induction left generalizing a with
  | zero => rfl
  | succ left ih =>
    unfold findSuccessorLoop
    rw [hlists a, hcalls a]
    simp only [ih]

/-- **Lookups do not depend on buckets.** -/
theorem findSuccessor_eq {n' : Node} (hpointers : n'.pointers = n.pointers) (a : Address) (id : ℕ) :
    findSuccessor net a n id = findSuccessor net' a n' id := by
  have hclosest : n'.findClosetPredecessor a id = n.findClosetPredecessor a id :=
    congrArg (·.findClosetPredecessor a id) hpointers
  have hsucc : n'.successors = n.successors := congrArg (·.successors) hpointers
  unfold findSuccessor
  rw [hclosest, hsucc]
  simp only [h.findSuccessorLoop_eq]

theorem arrives_iff (id : ℕ) (a : Address) : Arrives net id a ↔ Arrives net' id a := by
  unfold Arrives
  rw [h.hop_eq]

theorem identified (hident : Identified net) : Identified net' where
  ne_empty hmem := hident.ne_empty (h.mem_iff.mpr hmem)
  id_eq a n' hn' := by
    obtain ⟨n, hn, hpointers⟩ := h.symm.lookup hn'
    exact (congrArg (·.id) hpointers).symm.trans (hident.id_eq a n hn)
  inj a ha b hb := hident.inj a (h.mem_iff.mpr ha) b (h.mem_iff.mpr hb)

/-- A stabilised ring stays one. -/
theorem stabilised (hring : Stabilised net) : Stabilised net' := by
  refine ⟨⟨⟨h.identified hring.toIdentified, fun a n' hn' => ?_, fun a n' hn' f hf hne => ?_⟩,
    fun a ha i hi hi' => ?_⟩, fun a n' hn' => ?_⟩
  · obtain ⟨n, hn, hpointers⟩ := h.symm.lookup hn'
    obtain ⟨s, hhead, hs⟩ := hring.successor a n hn
    have hsucc : n.successors = n'.successors := congrArg (·.successors) hpointers
    exact ⟨s, hsucc ▸ hhead, (next_congr h.members_eq).mp hs⟩
  · obtain ⟨n, hn, hpointers⟩ := h.symm.lookup hn'
    have hfingers : n.fingers = n'.fingers := congrArg (·.fingers) hpointers
    exact h.mem_iff.mp (hring.finger a n hn f (hfingers ▸ hf) hne)
  · obtain ⟨n, hn, f, hf, howner⟩ := hring.right a (h.mem_iff.mpr ha) i hi hi'
    obtain ⟨n', hn', hpointers⟩ := h.lookup hn
    have htable : n'.fingerTable = n.fingerTable := congrArg (·.fingerTable) hpointers
    have hid : n'.id = n.id := congrArg (·.id) hpointers
    exact ⟨n', hn', f, htable ▸ hf, (owner_congr h.members_eq).mp (hid ▸ howner)⟩
  · obtain ⟨n, hn, hpointers⟩ := h.symm.lookup hn'
    have hpred : n.predecessor = n'.predecessor := congrArg (·.predecessor) hpointers
    obtain ⟨hmem, hnext⟩ := hring.predecessor a n hn
    exact ⟨hpred ▸ h.mem_iff.mp hmem, (next_congr h.members_eq).mp (hpred ▸ hnext)⟩

end SamePointers

/-! ### Values -/

theorem getValue_eq (hn : net.lookup a = some n) : getValue net key a = n.get key := by
  unfold getValue
  rw [hn]
  rfl

theorem getValue_of_notMem (ha : a ∉ net) : getValue net key a = "" := by
  unfold getValue
  rw [AList.lookup_eq_none.mpr ha]
  rfl

theorem getValue_ringOf {r : ℕ} {addresses : List Address} (hnodup : (addresses.map hash).Nodup)
    (key : String) (a : Address) : getValue (ringOf r addresses) key a = "" := by
  by_cases ha : a ∈ ringOf r addresses
  · obtain ⟨n, hn⟩ := exists_lookup ha
    rw [getValue_eq hn, Node.get, (lookup_ringOf hnodup hn).2]
    rfl
  · exact getValue_of_notMem ha

/-- A handler at one node does not touch the values of the others. -/
theorem getValue_modify_ne (f : Node → Node) (hne : b ≠ address) :
    getValue (Table.modify address f net) key b = getValue net key b := by
  unfold getValue
  rw [Table.lookup_modify_ne hne]

theorem getValue_modify_self (f : Node → Node) (hn : net.lookup address = some n) :
    getValue (Table.modify address f net) key address = (f n).get key :=
  getValue_eq (by rw [Table.lookup_modify_self, hn]; rfl)

/-- What the node at `address` has under a key. -/
def stored (net : Network) (key : String) (address : Address) : Option String :=
  (net.lookup address).bind (·.bucket.lookup key)

theorem stored_put (net : Network) (address b : Address) (key value : String) :
    stored (Table.modify address (·.put key value) net) key b =
      if b ∈ net ∧ b = address then some value else stored net key b := by
  unfold stored
  by_cases hb : b = address
  · subst hb
    rw [Table.lookup_modify_self]
    cases hn : net.lookup b with
    | none =>
      rw [if_neg fun h => AList.lookup_eq_none.mp hn h.1]
      rfl
    | some n =>
      rw [if_pos ⟨mem_of_lookup hn, rfl⟩]
      simp [Node.put]
  · rw [Table.lookup_modify_ne hb, if_neg fun h => hb h.2]

theorem getValue_callPutReplica (net : Network) (address b : Address) (key value : String) :
    getValue (callPutReplica net address key value) key b =
      if b ∈ net ∧ b = address then value else getValue net key b := by
  have hvalue (net : Network) : getValue net key b = (stored net key b).getD "" := by
    unfold getValue stored Node.get
    cases net.lookup b <;> rfl
  unfold callPutReplica
  rw [hvalue, hvalue, stored_put]
  split <;> rfl

theorem putKeyValue_spec (h : putKeyValue net key value address = some net') :
    SamePointers net net' ∧ getValue net' key address = value := by
  unfold putKeyValue at h
  split at h
  · next hmem =>
    cases h
    obtain ⟨n, hn⟩ := exists_lookup hmem
    exact ⟨samePointers_modify net address fun n => n.pointers_put key value,
      (getValue_modify_self _ hn).trans (n.get_put key value)⟩
  · cases h

/-! ### Replication -/

theorem replicate_loop (successors : List Address) (r : ℕ)
    (h : (List.range r).foldlM (fun net i => (successors[i]?).map fun addr =>
      if addr = address then net else callPutReplica net addr key value) net = some net') :
    r ≤ successors.length ∧ SamePointers net net' ∧ ∀ b, getValue net' key b =
      if b ∈ net ∧ b ∈ successors.take r ∧ b ≠ address then value else getValue net key b := by
  induction r generalizing net' with
  | zero =>
    cases h
    exact ⟨Nat.zero_le _, .refl net, fun b => by simp⟩
  | succ r ih =>
    rw [List.range_succ, List.foldlM_append] at h
    obtain ⟨mid, hmid, h⟩ := Option.bind_eq_some_iff.mp h
    obtain ⟨hr, hsame, hvalues⟩ := ih hmid
    rw [List.foldlM_cons] at h
    obtain ⟨last, hlast, h⟩ := Option.bind_eq_some_iff.mp h
    obtain ⟨addr, haddr, rfl⟩ := Option.map_eq_some_iff.mp hlast
    cases h
    have hlt := (List.getElem?_eq_some_iff.mp haddr).1
    have hmem (b : Address) : b ∈ successors.take (r + 1) ↔ b ∈ successors.take r ∨ b = addr := by
      rw [List.take_add_one, haddr, List.mem_append, Option.mem_toList,
        Option.some_inj, eq_comm (a := addr)]
    refine ⟨hlt, ?_, fun b => ?_⟩
    · split
      · exact hsame
      · exact hsame.trans (samePointers_modify mid addr fun n => n.pointers_put key value)
    by_cases hself : addr = address
    · -- it skips itself
      rw [if_pos hself, hvalues b]
      refine if_congr (and_congr_right fun _ => and_congr_left fun hb => ?_) rfl rfl
      rw [hmem, or_iff_left (hself ▸ hb)]
    · rw [if_neg hself, getValue_callPutReplica, hvalues b]
      simp only [← hsame.mem_iff, hmem]
      -- the address that is called in this turn, or another one
      by_cases hb : b = addr
      · subst hb
        by_cases hin : b ∈ net
        · simp [hself, hin]
        · simp [hin]
      · simp [hb]

/-- **Which nodes have the value** when the replication is through: the first successors,
and those that had it before. -/
theorem replicateToSuccessors_spec (hn : net.lookup address = some n)
    (h : replicateToSuccessors net address key value = some net') :
    n.numberOfSuccessors ≤ n.successors.length ∧ SamePointers net net' ∧
      ∀ b, getValue net' key b =
        if b ∈ net ∧ b ∈ n.successors.take n.numberOfSuccessors ∧ b ≠ address then value
        else getValue net key b := by
  unfold replicateToSuccessors at h
  rw [hn, Option.bind_some] at h
  exact replicate_loop n.successors n.numberOfSuccessors h

/-- A list that is long enough does not make it panic. -/
theorem exists_replicateToSuccessors (hn : net.lookup address = some n)
    (hlength : n.numberOfSuccessors ≤ n.successors.length) :
    ∃ net', replicateToSuccessors net address key value = some net' := by
  unfold replicateToSuccessors
  rw [hn, Option.bind_some]
  generalize n.numberOfSuccessors = r at hlength
  induction r with
  | zero => exact ⟨net, rfl⟩
  | succ r ih =>
    obtain ⟨mid, hmid⟩ := ih (Nat.le_of_succ_le hlength)
    obtain ⟨addr, haddr⟩ : ∃ addr, n.successors[r]? = some addr :=
      ⟨_, List.getElem?_eq_getElem hlength⟩
    refine ⟨if addr = address then mid else callPutReplica mid addr key value, ?_⟩
    rw [List.range_succ, List.foldlM_append, hmid]
    simp [haddr]

/-! ### Storing a file -/

theorem Aead.storeFile_spec {aead : Aead} {nonce : Vector UInt8 nonceSize} {data : List UInt8}
    (h : aead.storeFile net a n key nonce data = some (target, net')) :
    findSuccessor net a n (hash key) = .ok target ∧
      putKeyValue net key (aead.encrypt nonce data) target = some net' := by
  unfold Aead.storeFile at h
  cases hfind : findSuccessor net a n (hash key) with
  | error e =>
    rw [hfind] at h
    cases h
  | ok succ =>
    rw [hfind] at h
    obtain ⟨net₁, hput, heq⟩ := Option.map_eq_some_iff.mp h
    cases heq
    exact ⟨rfl, hput⟩

/-- A file can be stored where the lookup arrives and the owner's list is long enough. -/
theorem Routed.exists_stored (h : Routed net) (aead : Aead) (nonce : Vector UInt8 nonceSize)
    (data : List UInt8) (hn : net.lookup a = some n) (harrives : Arrives net (hash key) a)
    (hm : Owner net (hash key) target) {k : Node} (hk : net.lookup target = some k)
    (hlength : k.numberOfSuccessors ≤ k.successors.length) :
    ∃ net₁ net₂, aead.storeFile net a n key nonce data = some (target, net₁) ∧
      replicateToSuccessors net₁ target key (aead.encrypt nonce data) = some net₂ := by
  have hput : putKeyValue net key (aead.encrypt nonce data) target = some _ :=
    if_pos (mem_of_lookup hk)
  obtain ⟨k₁, hk₁, hpointers⟩ := (putKeyValue_spec hput).1.lookup hk
  have hsucc : k₁.successors = k.successors := congrArg (·.successors) hpointers
  have hnumber : k₁.numberOfSuccessors = k.numberOfSuccessors :=
    congrArg (·.numberOfSuccessors) hpointers
  rw [← hsucc, ← hnumber] at hlength
  obtain ⟨net₂, hreplicate⟩ := exists_replicateToSuccessors hk₁ hlength
  refine ⟨_, net₂, ?_, hreplicate⟩
  unfold Aead.storeFile
  rw [h.findSuccessor_eq hn (hash_lt key) harrives hm]
  dsimp only
  rw [hput]
  rfl

/-! ### What `lookup` reads -/

section Lookup

variable {m₀ m₁ m₂ : Address}

/-- The primary has a value. -/
theorem lookupValue_primary (h₀ : findSuccessor net a n (hash key) = .ok m₀)
    (hv : getValue net key m₀ ≠ "") : lookupValue net a n key = .ok (getValue net key m₀) := by
  unfold lookupValue
  rw [h₀]
  exact if_pos hv

/-- The primary misses, and the first replica has a value. -/
theorem lookupValue_replica1 (h₀ : findSuccessor net a n (hash key) = .ok m₀)
    (h₁ : findSuccessor net a n (hash m₀ + 1) = .ok m₁) (hmiss : getValue net key m₀ = "")
    (hv : getValue net key m₁ ≠ "") : lookupValue net a n key = .ok (getValue net key m₁) := by
  have hne : m₁ ≠ m₀ := by
    rintro rfl
    exact hv hmiss
  unfold lookupValue
  rw [h₀]
  dsimp only
  rw [if_neg (not_not_intro hmiss), h₁]
  dsimp only
  rw [if_pos hne, if_pos hv]

/-- Only the second replica has a value. -/
theorem lookupValue_replica2 (h₀ : findSuccessor net a n (hash key) = .ok m₀)
    (h₁ : findSuccessor net a n (hash m₀ + 1) = .ok m₁)
    (h₂ : findSuccessor net a n (hash m₁ + 1) = .ok m₂) (hne : m₁ ≠ "")
    (hmiss₀ : getValue net key m₀ = "") (hmiss₁ : getValue net key m₁ = "")
    (hv : getValue net key m₂ ≠ "") : lookupValue net a n key = .ok (getValue net key m₂) := by
  have hne₀ : m₂ ≠ m₀ := by
    rintro rfl
    exact hv hmiss₀
  have hne₁ : m₂ ≠ m₁ := by
    rintro rfl
    exact hv hmiss₁
  unfold lookupValue
  rw [h₀]
  dsimp only
  rw [if_neg (not_not_intro hmiss₀), h₁]
  dsimp only
  rw [hmiss₁, ite_self, if_neg (not_not_intro rfl), if_neg hne, h₂]
  dsimp only
  rw [if_pos ⟨hne₁, hne₀⟩]

/-- **Where no node has a value**, none is read. -/
theorem lookupValue_miss (hmiss : ∀ m, getValue net key m = "") :
    lookupValue net a n key = .ok "" ∨ ∃ e, lookupValue net a n key = .error e := by
  unfold lookupValue
  cases findSuccessor net a n (hash key) with
  | error e => exact .inr ⟨e, rfl⟩
  | ok m₀ =>
    left
    dsimp only
    rw [if_neg (not_not_intro (hmiss m₀))]
    cases findSuccessor net a n (hash m₀ + 1) with
    | error e => rfl
    | ok m₁ =>
      dsimp only
      rw [hmiss m₁, ite_self, if_neg (not_not_intro rfl)]
      split
      · rfl
      cases findSuccessor net a n (hash m₁ + 1) with
      | error e => rfl
      | ok m₂ =>
        dsimp only
        rw [hmiss m₂, ite_self]

/-- All three nodes miss. -/
theorem lookupValue_eq_empty (h₀ : findSuccessor net a n (hash key) = .ok m₀)
    (h₁ : findSuccessor net a n (hash m₀ + 1) = .ok m₁)
    (h₂ : findSuccessor net a n (hash m₁ + 1) = .ok m₂) (hmiss₀ : getValue net key m₀ = "")
    (hmiss₁ : getValue net key m₁ = "") (hmiss₂ : getValue net key m₂ = "") :
    lookupValue net a n key = .ok "" := by
  unfold lookupValue
  rw [h₀]
  dsimp only
  rw [if_neg (not_not_intro hmiss₀), h₁]
  dsimp only
  rw [hmiss₁, ite_self, if_neg (not_not_intro rfl), h₂]
  dsimp only
  rw [hmiss₂, ite_self, ite_self]

/-- The value of a file is decrypted. -/
theorem Aead.lookupFile_eq {aead : Aead} {nonce : Vector UInt8 nonceSize} {data : List UInt8}
    (h : lookupValue net a n key = .ok (aead.encrypt nonce data)) :
    aead.lookupFile net a n key = .content data := by
  unfold Aead.lookupFile
  rw [h]
  dsimp only
  rw [if_neg (aead.encrypt_ne_empty nonce data), aead.decrypt_encrypt]

end Lookup

end ExchangeLabs.Chord
