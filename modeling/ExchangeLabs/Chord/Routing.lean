import Mathlib.Data.List.MinMax
import ExchangeLabs.Chord.Progress

/-!
# Lookups in a stabilised ring

Where the successor pointers and the finger tables are those of the ring, a lookup
returns the owner of the identifier if it needs no more than the hops it may take.
With at most `maxLookupSteps + 2` nodes it never needs more.

## Main definitions

* `Arrives net id a` — the lookup from `a` stops before it gives up.
* `Routed net` — the successors and the finger tables are right.
* `Stabilised net` — so are the predecessors.
* `restabilise net` — the pointers that the upkeep converges to.
* `ringOf r addresses` — the stabilised ring of new nodes.

## Main results

* `findSuccessor_ok_iff` — a lookup returns a node just where it arrives.
* `arrives_of_card` — in a small ring every lookup arrives.
* `Routed.findSuccessor_eq` — **a lookup that arrives returns the owner.**
* `stabilised_restabilise` — there is such a ring for all nodes with distinct identifiers.
-/

namespace ExchangeLabs.Chord

variable {net : Network} {a b s m : Address} {n : Node} {id : ℕ}

/-! ### Lookups that arrive -/

/-- The lookup of `id` from the node at `a` stops before it gives up. -/
def Arrives (net : Network) (id : ℕ) (a : Address) : Prop :=
  ∃ k ≤ maxLookupSteps + 1, hop net id ((hop net id)^[k] a) = (hop net id)^[k] a

namespace IsRing

variable (hring : IsRing net)
include hring

theorem findSuccessorLoop_ok_iff (hid : id < hashMod) (left : ℕ) (ha : a ∈ net) :
    (∃ addr, findSuccessorLoop net id left a = .ok addr) ↔
      ∃ k < left, hop net id ((hop net id)^[k] a) = (hop net id)^[k] a := by
  induction left generalizing a with
  | zero => exact ⟨fun ⟨_, h⟩ => (by cases h), fun ⟨k, hk, _⟩ => absurd hk (Nat.not_lt_zero k)⟩
  | succ left ih =>
    obtain ⟨n, hn⟩ := exists_lookup ha
    obtain ⟨s, rest, hlist, -, hs⟩ := hring.callGetSuccessorList_eq hn
    unfold findSuccessorLoop
    rw [hlist, callFindClosetPredecessor_eq hn]
    dsimp only
    by_cases hbetween : between (hash a) id (hash s) true = true
    · rw [if_pos hbetween]
      exact ⟨fun _ => ⟨0, Nat.succ_pos left, hring.hop_eq_self hn hs hid hbetween⟩,
        fun _ => ⟨s, rfl⟩⟩
    rw [if_neg hbetween]
    by_cases hstop : hop net id a = a
    · rw [if_pos hstop]
      exact ⟨fun _ => ⟨0, Nat.succ_pos left, hstop⟩, fun _ => ⟨s, rfl⟩⟩
    · rw [if_neg hstop, ih (hring.hop_mem ha hid)]
      constructor
      · rintro ⟨k, hk, hfix⟩
        exact ⟨k + 1, Nat.succ_lt_succ hk, hfix⟩
      · rintro ⟨k, hk, hfix⟩
        cases k with
        | zero => exact absurd hfix hstop
        | succ k => exact ⟨k, Nat.lt_of_succ_lt_succ hk, hfix⟩

/-- **A lookup returns a node** just where it arrives. -/
theorem findSuccessor_ok_iff (hn : net.lookup a = some n) (hid : id < hashMod) :
    (∃ addr, findSuccessor net a n id = .ok addr) ↔ Arrives net id a := by
  obtain ⟨s, hhead, -⟩ := hring.successor a n hn
  obtain ⟨rest, hsucc⟩ := List.head?_eq_some_iff.mp hhead
  unfold findSuccessor
  rw [← hop_eq hn, hsucc]
  dsimp only
  by_cases hstop : hop net id a = a
  · rw [if_pos hstop]
    exact ⟨fun _ => ⟨0, Nat.zero_le _, hstop⟩, fun _ => ⟨s, rfl⟩⟩
  · rw [if_neg hstop, hring.findSuccessorLoop_ok_iff hid _ (hring.hop_mem (mem_of_lookup hn) hid)]
    constructor
    · rintro ⟨k, hk, hfix⟩
      exact ⟨k + 1, hk, hfix⟩
    · rintro ⟨k, hk, hfix⟩
      cases k with
      | zero => exact absurd hfix hstop
      | succ k => exact ⟨k, hk, hfix⟩

/-- A lookup that goes on leaves one node less ahead with every hop. -/
theorem card_ahead_iterate (ha : a ∈ net) (hid : id < hashMod) (k : ℕ)
    (hgo : ∀ j < k, hop net id ((hop net id)^[j] a) ≠ (hop net id)^[j] a) :
    (Circle.ahead hash (members net) hashMod ((hop net id)^[k] a) id).card + k ≤
      (Circle.ahead hash (members net) hashMod a id).card := by
  induction k with
  | zero => exact Nat.le_refl _
  | succ k ih =>
    have hmem := hring.iterate_hop_mem ha hid k
    obtain ⟨n, hn⟩ := exists_lookup hmem
    have hahead := (hring.hop_cases hn hid).resolve_left (hgo k (Nat.lt_succ_self k))
    have hlt := Circle.card_ahead_lt hring.placed (mem_members.mpr hmem) hid hahead
    have hle := ih fun j hj => hgo j (Nat.lt_succ_of_lt hj)
    rw [Function.iterate_succ_apply']
    omega

/-- **In a small ring every lookup arrives.** -/
theorem arrives_of_card (hcard : (members net).card ≤ maxLookupSteps + 2) (ha : a ∈ net)
    (hid : id < hashMod) : Arrives net id a := by
  by_contra hnot
  have hle := hring.card_ahead_iterate ha hid (maxLookupSteps + 2) fun j hj hfix =>
    hnot ⟨j, Nat.le_of_lt_succ hj, hfix⟩
  have hlt := Circle.card_ahead_lt_card hring.placed (mem_members.mpr ha) hid
  omega

end IsRing

/-! ### Routed rings -/

/-- The successors and the finger tables are those of the ring. -/
structure Routed (net : Network) : Prop extends IsRing net where
  right : ∀ a ∈ net, ∀ i, 1 ≤ i → i ≤ keySize → Right net a i

/-- All pointers are those of the ring. -/
structure Stabilised (net : Network) : Prop extends Routed net where
  predecessor : ∀ a n, net.lookup a = some n → n.predecessor ∈ net ∧ Next net n.predecessor a

namespace Routed

variable (h : Routed net)
include h

/-- No lookup ends too early. -/
theorem not_stranded (hid : id < hashMod) : ¬ Stranded net id a := by
  rintro ⟨n, hn, s, hs, hstop, hbetween⟩
  have ha := mem_of_lookup hn
  obtain ⟨s', hs', hnext⟩ := h.successor a n hn
  obtain rfl : s' = s := Option.some.inj (hs'.symm.trans hs)
  -- a node that is not left for its finger is followed by the owner
  have howner := owns_of_hop_eq_self h.toIsRing rfl (h.right a ha 1 le_rfl (by decide)) hid hnext
    ((hop_eq hn).trans hstop)
  rw [(h.owner_iff ha hnext hid).mp howner] at hbetween
  cases hbetween

/-- **A lookup that arrives returns the owner.** -/
theorem findSuccessor_eq (hn : net.lookup a = some n) (hid : id < hashMod)
    (harrives : Arrives net id a) (hm : Owner net id m) : findSuccessor net a n id = .ok m := by
  obtain ⟨addr, haddr⟩ := (h.findSuccessor_ok_iff hn hid).mpr harrives
  have howner := (findSuccessor_owner_iff h.toIsRing hn hid).mpr
    (fun k _ => h.not_stranded hid) addr haddr
  rw [haddr, howner.unique h.placed hid hm]

end Routed

/-! ### The end of the circle -/

/-- On the circle the point `hashMod` is the point `0`. -/
theorem between_end_hashMod {start elt : ℕ} (hs : start < hashMod) (he : elt < hashMod) :
    between start elt hashMod false = between start elt 0 false := by
  unfold between
  rw [if_pos hs, if_neg (Nat.not_lt_zero start)]
  simp [he]

theorem between_elt_hashMod {start end' : ℕ} (hs : start < hashMod) (hd : end' < hashMod) :
    between start hashMod end' true = between start 0 end' true := by
  rw [Bool.eq_iff_iff]
  unfold between
  split
  · simp
    omega
  · simp
    omega

theorem findClosetPredecessor_hashMod (hid : n.id < hashMod) :
    n.findClosetPredecessor a hashMod = n.findClosetPredecessor a 0 := by
  unfold Node.findClosetPredecessor
  refine congrArg (Option.getD · a) (congrArg (List.find? · _) (funext fun f => ?_))
  rw [between_end_hashMod hid (hash_lt f)]

theorem callFindClosetPredecessor_hashMod (hident : Identified net) (a : Address) :
    callFindClosetPredecessor net a hashMod = callFindClosetPredecessor net a 0 := by
  unfold callFindClosetPredecessor
  cases hn : net.lookup a with
  | none => rfl
  | some n =>
    have hid : n.id < hashMod := hident.id_eq a n hn ▸ hash_lt a
    exact congrArg some (findClosetPredecessor_hashMod hid)

theorem findSuccessorLoop_hashMod (hident : Identified net) (left : ℕ) (a : Address) :
    findSuccessorLoop net hashMod left a = findSuccessorLoop net 0 left a := by
  induction left generalizing a with
  | zero => rfl
  | succ left ih =>
    unfold findSuccessorLoop
    rw [callFindClosetPredecessor_hashMod hident]
    cases (callGetSuccessorList net a).getD [] with
    | nil => rfl
    | cons s rest =>
      dsimp only
      rw [between_elt_hashMod (hash_lt a) (hash_lt s)]
      cases callFindClosetPredecessor net a 0 with
      | none => rfl
      | some nextHop =>
        dsimp only
        rw [ih]

/-- The point after the last one is looked up as `0`. -/
theorem findSuccessor_succ (hident : Identified net) (hn : net.lookup a = some n) {x : ℕ}
    (hx : x < hashMod) :
    findSuccessor net a n (x + 1) = findSuccessor net a n ((x + 1) % hashMod) := by
  rcases Nat.lt_or_eq_of_le (Nat.succ_le_of_lt hx) with hlt | heq
  · rw [Nat.mod_eq_of_lt hlt]
  · have hid : n.id < hashMod := hident.id_eq a n hn ▸ hash_lt a
    rw [show x + 1 = hashMod from heq, Nat.mod_self]
    unfold findSuccessor
    rw [findClosetPredecessor_hashMod hid]
    simp only [findSuccessorLoop_hashMod hident]

/-- **The node after a node** is the owner of the next point. -/
theorem Routed.findSuccessor_next (h : Routed net) (hn : net.lookup a = some n) (hm : m ∈ net)
    (harrives : Arrives net ((hash m + 1) % hashMod) a) (hs : Next net m s) :
    findSuccessor net a n (hash m + 1) = .ok s := by
  rw [findSuccessor_succ h.toIdentified hn (hash_lt m)]
  refine h.findSuccessor_eq hn (Nat.mod_lt _ (by decide)) harrives ?_
  exact (Circle.follows_iff_owns h.placed (mem_members.mpr hm) (by decide)).mp hs

/-! ### The pointers of a ring -/

/-- The node that owns `id`. -/
def ownerOf (net : Network) (id : ℕ) : Address :=
  (net.keys.argmin fun m => Circle.gap hashMod id (hash m)).getD ""

/-- The node before the node at `a`. -/
def nodeBefore (net : Network) (a : Address) : Address :=
  (net.keys.argmin fun p => Circle.arc hashMod (hash p) (hash a)).getD ""

/-- The node after the node at `a`. -/
def nodeAfter (net : Network) (a : Address) : Address := ownerOf net ((hash a + 1) % hashMod)

/-- The network with the pointers that the upkeep converges to. -/
def restabilise (net : Network) : Network :=
  Table.mapVal (fun a n => { n with
    predecessor := nodeBefore net a
    successors := List.iterate (nodeAfter net) (nodeAfter net a) n.numberOfSuccessors
    fingerTable := Vector.ofFn fun i => ownerOf net (fingerTarget n.id i) }) net

/-- The search for a closest node finds one. -/
theorem argmin_keys (f : Address → ℕ) (ha : a ∈ net) :
    (net.keys.argmin f).getD "" ∈ net ∧ ∀ m ∈ net, f ((net.keys.argmin f).getD "") ≤ f m := by
  cases hmin : net.keys.argmin f with
  | none =>
    rw [List.argmin_eq_none] at hmin
    exact absurd (AList.mem_keys.mp ha) (hmin ▸ List.not_mem_nil)
  | some m =>
    exact ⟨AList.mem_keys.mpr (List.argmin_mem hmin), fun m' hm' =>
      List.le_of_mem_argmin (AList.mem_keys.mp hm') hmin⟩

theorem owner_ownerOf (ha : a ∈ net) (id : ℕ) : Owner net id (ownerOf net id) := by
  obtain ⟨hmem, hmin⟩ := argmin_keys (fun m => Circle.gap hashMod id (hash m)) ha
  exact ⟨mem_members.mpr hmem, fun m hm => hmin m (mem_members.mp hm)⟩

theorem next_nodeAfter (h : Identified net) (ha : a ∈ net) : Next net a (nodeAfter net a) :=
  (Circle.follows_iff_owns h.placed (mem_members.mpr ha) (by decide)).mpr (owner_ownerOf ha _)

theorem nodeBefore_mem (ha : a ∈ net) :
    nodeBefore net a ∈ net ∧ ∀ m ∈ net, Circle.arc hashMod (hash (nodeBefore net a)) (hash a) ≤
      Circle.arc hashMod (hash m) (hash a) :=
  argmin_keys (fun p => Circle.arc hashMod (hash p) (hash a)) ha

theorem next_nodeBefore (ha : a ∈ net) : Next net (nodeBefore net a) a := by
  obtain ⟨hp, hmin⟩ := nodeBefore_mem ha
  refine ⟨mem_members.mpr ha, fun m hm => not_lt.mp fun hlt => ?_⟩
  -- a node between the two would come later on the way to `a`
  have hsum := Circle.arc_add_arc (hash_lt _) (hash_lt m) (hash_lt a) hlt
  have hpos := Circle.arc_pos (hash_lt (nodeBefore net a)) (hash_lt m)
  have := hmin m (mem_members.mp hm)
  omega

@[simp] theorem members_restabilise (net : Network) : members (restabilise net) = members net := by
  ext a
  simp only [mem_members, ← AList.lookup_isSome, restabilise, Table.lookup_mapVal,
    Option.isSome_map]

theorem mem_restabilise : a ∈ restabilise net ↔ a ∈ net := by
  rw [← mem_members, members_restabilise, mem_members]

/-- **There is a stabilised ring** of all nodes with distinct identifiers. -/
theorem stabilised_restabilise (h : Identified net)
    (hr : ∀ a n, net.lookup a = some n → 1 ≤ n.numberOfSuccessors) :
    Stabilised (restabilise net) := by
  -- every node is an old one with new pointers
  have hold : ∀ a n', (restabilise net).lookup a = some n' → ∃ n, net.lookup a = some n ∧
      { n with
        predecessor := nodeBefore net a
        successors := List.iterate (nodeAfter net) (nodeAfter net a) n.numberOfSuccessors
        fingerTable := Vector.ofFn fun i => ownerOf net (fingerTarget n.id i) } = n' :=
    fun a n' hn' => Option.map_eq_some_iff.mp ((Table.lookup_mapVal _ net a).symm.trans hn')
  have howner : ∀ id m, Owner net id m → Owner (restabilise net) id m := fun _ _ =>
    (owner_congr (members_restabilise net)).mpr
  have hnext : ∀ a s, Next net a s → Next (restabilise net) a s := fun _ _ =>
    (next_congr (members_restabilise net)).mpr
  refine ⟨⟨⟨⟨fun hmem => h.ne_empty (mem_restabilise.mp hmem), fun a n' hn' => ?_,
    fun a ha b hb => h.inj a (mem_restabilise.mp ha) b (mem_restabilise.mp hb)⟩,
    fun a n' hn' => ?_, fun a n' hn' f hf _ => ?_⟩, fun a ha i hi hi' => ?_⟩, fun a n' hn' => ?_⟩
  · obtain ⟨n, hn, rfl⟩ := hold a n' hn'
    exact h.id_eq a n hn
  · obtain ⟨n, hn, rfl⟩ := hold a n' hn'
    obtain ⟨r, hr⟩ := Nat.exists_eq_succ_of_ne_zero (Nat.one_le_iff_ne_zero.mp (hr a n hn))
    refine ⟨nodeAfter net a, ?_, hnext a _ (next_nodeAfter h (mem_of_lookup hn))⟩
    dsimp only
    rw [hr, List.iterate, List.head?_cons]
  · obtain ⟨n, hn, rfl⟩ := hold a n' hn'
    obtain ⟨i, -, hi⟩ := mem_fingers.mp hf
    obtain ⟨hlt, rfl⟩ := Vector.getElem?_eq_some_iff.mp hi
    rw [Vector.getElem_ofFn, mem_restabilise]
    exact mem_members.mp (owner_ownerOf (mem_of_lookup hn) _).1
  · obtain ⟨n', hn'⟩ := exists_lookup ha
    obtain ⟨n, hn, rfl⟩ := hold a n' hn'
    refine ⟨_, hn', ownerOf net (fingerTarget n.id i), ?_, ?_⟩
    · dsimp only
      rw [Vector.getElem?_eq_getElem (Nat.lt_succ_of_le hi'), Vector.getElem_ofFn]
    · exact howner _ _ (owner_ownerOf (mem_of_lookup hn) _)
  · obtain ⟨n, hn, rfl⟩ := hold a n' hn'
    have ha := mem_of_lookup hn
    exact ⟨mem_restabilise.mpr (nodeBefore_mem ha).1, hnext _ _ (next_nodeBefore ha)⟩

/-! ### The ring of some addresses -/

/-- A node that knows no other, and has nothing stored. -/
def newNode (r : ℕ) (a : Address) : Node where
  id := hash a
  predecessor := ""
  successors := []
  fingerTable := Vector.replicate (keySize + 1) ""
  bucket := ∅
  numberOfSuccessors := r

def newNodes (r : ℕ) (addresses : List Address) : Network :=
  Table.ofList (addresses.map fun a => (a, newNode r a))

/-- The stabilised ring of new nodes. -/
def ringOf (r : ℕ) (addresses : List Address) : Network := restabilise (newNodes r addresses)

section RingOf

variable {r : ℕ} {addresses : List Address} (hnodup : (addresses.map hash).Nodup)
include hnodup

theorem lookup_newNodes :
    (newNodes r addresses).lookup a = some n ↔ a ∈ addresses ∧ n = newNode r a := by
  unfold newNodes
  rw [Table.lookup_ofList]
  · rw [List.mem_map]
    constructor
    · rintro ⟨b, hb, heq⟩
      cases heq
      exact ⟨hb, rfl⟩
    · rintro ⟨ha, rfl⟩
      exact ⟨a, ha, rfl⟩
  · rw [List.map_map, Function.comp_def, List.map_id']
    exact hnodup.of_map hash

theorem mem_newNodes : a ∈ newNodes r addresses ↔ a ∈ addresses := by
  constructor
  · intro ha
    obtain ⟨n, hn⟩ := exists_lookup ha
    exact ((lookup_newNodes hnodup).mp hn).1
  · exact fun ha => mem_of_lookup ((lookup_newNodes hnodup).mpr ⟨ha, rfl⟩)

theorem identified_newNodes (hne : "" ∉ addresses) : Identified (newNodes r addresses) where
  ne_empty := fun h => hne ((mem_newNodes hnodup).mp h)
  id_eq := fun a n hn => by rw [((lookup_newNodes hnodup).mp hn).2]; rfl
  inj := fun a ha b hb => List.inj_on_of_nodup_map hnodup ((mem_newNodes hnodup).mp ha)
    ((mem_newNodes hnodup).mp hb)

theorem members_ringOf : members (ringOf r addresses) = addresses.toFinset := by
  unfold ringOf
  rw [members_restabilise]
  ext a
  rw [mem_members, mem_newNodes hnodup, List.mem_toFinset]

theorem lookup_ringOf (hn : (ringOf r addresses).lookup a = some n) :
    n.numberOfSuccessors = r ∧ n.bucket = ∅ := by
  obtain ⟨n₀, hn₀, rfl⟩ := Option.map_eq_some_iff.mp ((Table.lookup_mapVal _ _ a).symm.trans hn)
  obtain ⟨-, rfl⟩ := (lookup_newNodes hnodup).mp hn₀
  exact ⟨rfl, rfl⟩

theorem stabilised_ringOf (hne : "" ∉ addresses) (hr : 1 ≤ r) :
    Stabilised (ringOf r addresses) := by
  refine stabilised_restabilise (identified_newNodes hnodup hne) fun a n hn => ?_
  rw [((lookup_newNodes hnodup).mp hn).2]
  exact hr

end RingOf

end ExchangeLabs.Chord
