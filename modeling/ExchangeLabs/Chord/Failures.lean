import Mathlib.Data.List.Iterate
import ExchangeLabs.Chord.Storage

/-!
# Files survive failures

In an ideal ring the owner of a file puts it to the next nodes clockwise.  When nodes
crash, the owner among the survivors is the first of these that is left, so `lookup`
finds the file at the primary as long as one of them is.

## Main definitions

* `Listed net` — the lists of successors are the next nodes, as many as they should be.
* `Survives net net'` — what a crash leaves of a network, after the upkeep.

## Main results

* `replicated` — the owner and its successors have the value.
* `owner_mem` — the owner among the survivors is one of them.
* `survives_failures` — **every survivor still looks up the file.**
-/

namespace ExchangeLabs.Chord

variable {net net' : Network} {a b m s : Address} {n : Node} {id r : ℕ}

/-- Every list of successors is the next nodes clockwise, as many as the node keeps. -/
def Listed (net : Network) : Prop :=
  ∀ a n, net.lookup a = some n → n.successors.length = n.numberOfSuccessors ∧
    List.IsChain (Next net) (a :: n.successors)

/-- Some nodes have crashed.  Those that are left have kept their buckets, and have the
first successors and the fingers of the ring that they are. -/
structure Survives (net net' : Network) : Prop extends Routed net' where
  kept : ∀ a n', net'.lookup a = some n' → ∃ n, net.lookup a = some n ∧ n'.bucket = n.bucket

/-- The survivors have the values that they had. -/
theorem Survives.getValue_eq (h : Survives net net') (hb : b ∈ net') (key : String) :
    getValue net' key b = getValue net key b := by
  obtain ⟨n', hn'⟩ := exists_lookup hb
  obtain ⟨n, hn, hbucket⟩ := h.kept b n' hn'
  rw [Chord.getValue_eq hn', Chord.getValue_eq hn, Node.get, Node.get, hbucket]

/-! ### Rings with full lists -/

theorem isChain_iterate (h : Identified net) (r : ℕ) (ha : a ∈ net) :
    List.IsChain (Next net) (a :: List.iterate (nodeAfter net) (nodeAfter net a) r) := by
  induction r generalizing a with
  | zero => exact .singleton a
  | succ r ih =>
    have hnext := next_nodeAfter h ha
    exact List.isChain_cons_cons.mpr ⟨hnext, ih (mem_members.mp hnext.1)⟩

theorem listed_restabilise (h : Identified net) : Listed (restabilise net) := by
  intro a n' hn'
  obtain ⟨n, hn, rfl⟩ := Option.map_eq_some_iff.mp ((Table.lookup_mapVal _ net a).symm.trans hn')
  refine ⟨List.length_iterate _ _ _, ?_⟩
  exact (isChain_iterate h n.numberOfSuccessors (mem_of_lookup hn)).imp fun _ _ =>
    (next_congr (members_restabilise net)).mpr

/-! ### Who has the value -/

section Stored

variable {filename value : String} {net₀ net₁ net₂ : Network}

/-- **The owner and its successors have the value.** -/
theorem replicated (hlisted : Listed net₀) (hn : net₀.lookup m = some n)
    (hput : putKeyValue net₀ filename value m = some net₁)
    (hreplicate : replicateToSuccessors net₁ m filename value = some net₂) :
    SamePointers net₀ net₂ ∧ ∀ s ∈ m :: n.successors, getValue net₂ filename s = value := by
  obtain ⟨hsame, hvalue⟩ := putKeyValue_spec hput
  obtain ⟨n₁, hn₁, hpointers⟩ := hsame.lookup hn
  obtain ⟨-, hsame', hvalues⟩ := replicateToSuccessors_spec hn₁ hreplicate
  have hsucc : n₁.successors = n.successors := congrArg (·.successors) hpointers
  have hnumber : n₁.numberOfSuccessors = n.numberOfSuccessors :=
    congrArg (·.numberOfSuccessors) hpointers
  obtain ⟨hlength, hchain⟩ := hlisted m n hn
  refine ⟨hsame.trans hsame', fun s hs => ?_⟩
  rw [hvalues s, hsucc, hnumber, ← hlength, List.take_length]
  by_cases hsm : s = m
  · rw [if_neg fun h => h.2.2 hsm, hsm, hvalue]
  · have hs := List.mem_of_ne_of_mem hsm hs
    have hmem := mem_members.mp (Circle.mem_of_isChain hchain hs)
    rw [if_pos ⟨hsame.mem_iff.mp hmem, hs, hsm⟩]

/-- **The owner among the survivors** is the old owner or one of its successors, if any
of these is left. -/
theorem owner_mem (hident : Identified net) (hlisted : Listed net) (hid : id < hashMod)
    (hm : Owner net id m) (hn : net.lookup m = some n) (hsub : ∀ b ∈ net', b ∈ net)
    (hs : s ∈ m :: n.successors) (halive : s ∈ net') (hb : Owner net' id b) :
    b ∈ m :: n.successors := by
  have hbS := mem_members.mpr (hsub b (mem_members.mp hb.1))
  have hle := hb.2 s (mem_members.mpr halive)
  rcases Circle.gap_le_or_mem_of_isChain hident.placed hid hm.1 (hlisted m n hn).2 hs hbS hle
    with hle | hmem
  · have hbm : Owner net id b := ⟨hbS, fun m' hm' => Nat.le_trans hle (hm.2 m' hm')⟩
    rw [hbm.unique hident.placed hid hm]
    exact List.mem_cons_self
  · exact List.mem_cons_of_mem m hmem

/-- **Files survive failures**: in an ideal ring of at most `maxLookupSteps + 2` nodes a
file is stored from any node and replicated, and some nodes crash.  If the owner or one of
its successors is left, every survivor looks up the file after the upkeep. -/
theorem survives_failures (aead : Aead) {nonce : Vector UInt8 nonceSize} {data : List UInt8}
    (hident : Identified net₀) (hlisted : Listed net₀)
    (hcard : (members net₀).card ≤ maxLookupSteps + 2)
    (hstore : aead.storeFile net₀ a n filename nonce data = some (m, net₁))
    (hm : Owner net₀ (hash filename) m)
    (hreplicate : replicateToSuccessors net₁ m filename (aead.encrypt nonce data) = some net₂)
    (hcrash : Survives net₂ net')
    (halive : m ∈ net' ∨ ∃ n ∈ net₀.lookup m, ∃ s ∈ n.successors, s ∈ net') :
    ∀ b n, net'.lookup b = some n → aead.lookupFile net' b n filename = .content data := by
  have hid := hash_lt filename
  have hput := (Aead.storeFile_spec hstore).2
  obtain ⟨k, hk⟩ := exists_lookup (mem_members.mp hm.1)
  obtain ⟨hsame, hvalues⟩ := replicated hlisted hk hput hreplicate
  obtain ⟨s, hs, hs'⟩ : ∃ s ∈ m :: k.successors, s ∈ net' := by
    rcases halive with hm' | ⟨k', hk', s, hs, hs'⟩
    · exact ⟨m, List.mem_cons_self, hm'⟩
    · rw [hk, Option.mem_some_iff] at hk'
      exact ⟨s, List.mem_cons_of_mem m (hk' ▸ hs), hs'⟩
  have hsub : ∀ b ∈ net', b ∈ net₀ := by
    intro b hb
    obtain ⟨n', hn'⟩ := exists_lookup hb
    obtain ⟨n₂, hn₂, -⟩ := hcrash.kept b n' hn'
    exact hsame.mem_iff.mpr (mem_of_lookup hn₂)
  have hcard' : (members net').card ≤ maxLookupSteps + 2 :=
    Nat.le_trans (Finset.card_le_card fun b hb =>
      mem_members.mpr (hsub b (mem_members.mp hb))) hcard
  intro b n' hn'
  have hb := mem_of_lookup hn'
  -- the owner among the survivors has the value
  have howner := owner_ownerOf hb (hash filename)
  have hmem := owner_mem hident hlisted hid hm hk hsub hs hs' howner
  have hvalue := (hcrash.getValue_eq (mem_members.mp howner.1) filename).trans (hvalues _ hmem)
  have hread : lookupValue net' b n' filename = .ok (aead.encrypt nonce data) := by
    rw [← hvalue]
    refine lookupValue_primary (hcrash.findSuccessor_eq hn' hid
      (hcrash.arrives_of_card hcard' hb hid) howner) ?_
    rw [hvalue]
    exact aead.encrypt_ne_empty nonce data
  exact Aead.lookupFile_eq hread

end Stored

/-! ### Crashes -/

/-- The ring of the nodes that have not crashed. -/
def crash (net : Network) (dead : List Address) : Network :=
  restabilise (dead.foldr AList.erase net)

theorem lookup_foldr_erase (net : Network) (dead : List Address) (a : Address) :
    (dead.foldr AList.erase net).lookup a = if a ∈ dead then none else net.lookup a := by
  induction dead with
  | nil => rfl
  | cons b dead ih =>
    rw [List.foldr_cons]
    by_cases hab : a = b
    · rw [hab, AList.lookup_erase, if_pos List.mem_cons_self]
    · rw [AList.lookup_erase_ne hab, ih]
      simp only [List.mem_cons, hab, false_or]

theorem mem_crash {dead : List Address} : a ∈ crash net dead ↔ a ∈ net ∧ a ∉ dead := by
  unfold crash
  rw [mem_restabilise, ← AList.lookup_isSome, lookup_foldr_erase, ← AList.lookup_isSome]
  split <;> simp [*]

theorem survives_crash (h : Identified net)
    (hr : ∀ a n, net.lookup a = some n → 1 ≤ n.numberOfSuccessors) (dead : List Address) :
    Survives net (crash net dead) := by
  have hold : ∀ a n, (dead.foldr AList.erase net).lookup a = some n → net.lookup a = some n := by
    intro a n hn
    rw [lookup_foldr_erase] at hn
    split at hn
    · cases hn
    · exact hn
  have hmem : ∀ a ∈ dead.foldr AList.erase net, a ∈ net := by
    intro a ha
    obtain ⟨n, hn⟩ := exists_lookup ha
    exact mem_of_lookup (hold a n hn)
  have hident : Identified (dead.foldr AList.erase net) :=
    ⟨fun ha => h.ne_empty (hmem _ ha), fun a n hn => h.id_eq a n (hold a n hn),
      fun a ha b hb => h.inj a (hmem a ha) b (hmem b hb)⟩
  refine ⟨(stabilised_restabilise hident fun a n hn => hr a n (hold a n hn)).toRouted,
    fun a n' hn' => ?_⟩
  obtain ⟨n, hn, rfl⟩ := Option.map_eq_some_iff.mp ((Table.lookup_mapVal _ _ a).symm.trans hn')
  exact ⟨n, hold a n hn, rfl⟩

/-- Three nodes that replicate to two. -/
def threeRing : Network := ringOf 2 ["10.0.0.1:3410", "10.0.0.2:3410", "10.0.0.3:3410"]

theorem nodup_threeRing :
    (["10.0.0.1:3410", "10.0.0.2:3410", "10.0.0.3:3410"].map hash).Nodup := by
  decide +kernel

theorem stabilised_threeRing : Stabilised threeRing :=
  stabilised_ringOf nodup_threeRing (by decide) (by decide)

theorem owner_threeRing : Owner threeRing (hash "notes.txt") "10.0.0.3:3410" := by
  decide +kernel

/-- The nodes after the owner. -/
theorem successors_threeRing : (threeRing.lookup "10.0.0.3:3410").map (·.successors) =
    some ["10.0.0.2:3410", "10.0.0.1:3410"] := by
  decide +kernel

/-- The owner and the node after it crash. -/
theorem survives_failures_threeRing : ∃ net₂ n,
    (crash net₂ ["10.0.0.3:3410", "10.0.0.2:3410"]).lookup "10.0.0.1:3410" = some n ∧
      helloAead.lookupFile (crash net₂ ["10.0.0.3:3410", "10.0.0.2:3410"]) "10.0.0.1:3410" n
        "notes.txt" = .content helloData := by
  have hnodup := nodup_threeRing
  have hring := stabilised_threeRing
  have hlisted : Listed threeRing := listed_restabilise (identified_newNodes hnodup (by decide))
  have hcard : (members threeRing).card ≤ maxLookupSteps + 2 := by decide +kernel
  have hmem : "10.0.0.1:3410" ∈ threeRing := by decide +kernel
  have hm := owner_threeRing
  obtain ⟨n, hn⟩ := exists_lookup hmem
  obtain ⟨k, hk, hlist⟩ := Option.map_eq_some_iff.mp successors_threeRing
  obtain ⟨net₁, net₂, hstore, hreplicate⟩ := hring.exists_stored helloAead helloNonce helloData hn
    (hring.arrives_of_card hcard hmem (hash_lt _)) hm hk (hlisted _ k hk).1.ge
  -- one node is left
  have hsame : SamePointers threeRing net₂ :=
    (replicated hlisted hk (Aead.storeFile_spec hstore).2 hreplicate).1
  have hcrash : Survives net₂ (crash net₂ ["10.0.0.3:3410", "10.0.0.2:3410"]) := by
    refine survives_crash (hsame.identified hring.toIdentified) (fun a n hn => ?_) _
    obtain ⟨n₀, hn₀, hpointers⟩ := hsame.symm.lookup hn
    have hnumber : n₀.numberOfSuccessors = n.numberOfSuccessors :=
      congrArg (·.numberOfSuccessors) hpointers
    rw [← hnumber, (lookup_ringOf hnodup hn₀).1]
    decide
  have halive : "10.0.0.1:3410" ∈ crash net₂ ["10.0.0.3:3410", "10.0.0.2:3410"] :=
    mem_crash.mpr ⟨hsame.mem_iff.mp hmem, by decide⟩
  obtain ⟨n', hn'⟩ := exists_lookup halive
  exact ⟨net₂, n', hn', survives_failures helloAead hring.toIdentified hlisted hcard hstore hm
    hreplicate hcrash (.inr ⟨k, hk, "10.0.0.1:3410", by rw [hlist]; decide, halive⟩) _ n' hn'⟩

end ExchangeLabs.Chord
