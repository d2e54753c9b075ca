import ExchangeLabs.Lib.Pointers
import ExchangeLabs.Lib.Run
import ExchangeLabs.Chord.Lookup

/-!
# Joining nodes and `stabilize`

A ring into which nodes join, each with any running node as its first successor,
while the nodes run `stabilize` in any order.  No node crashes.  At any time the first
successors are one thread: from the node that has created the ring they lead once
round and back, and they lead to it from everywhere.  So when `stabilize` has nothing
left to do, they are the ring of all nodes.

## Main definitions

* `Event`, `step` — nodes join, and nodes run `stabilize`.
* `Quiescent net` — no `stabilize` would change a first successor or a predecessor.
* `Ideal net` — every first successor is the next node, whose predecessor points back.
* `Pointed net base` — the invariant.

## Main results

* `stabilize_spec` — what `stabilize` does where no node has crashed.
* `pointed_stabilize`, `pointed_join` — the steps keep the invariant.
* `ideal_of_quiescent` — **a quiescent ring is ideal.**
-/

namespace ExchangeLabs.Chord

open ExchangeLabs.Circle (Leads Moved Threaded)

variable {net net' : Network} {a b s p base : Address} {n : Node}

/-! ### Runs -/

inductive Event
  /-- A node starts, and joins through `nprime`. -/
  | join (localaddress address nprime : String) (r : ℕ)
  | stabilize (address : Address)

/-- One step: a node with a new identifier joins through a running node, or a running
node stabilizes. -/
def step (net : Network) : Event → Option Network
  | .join localaddress address nprime r =>
    if 1 ≤ r ∧ nprime ≠ "" ∧ resolveAddress localaddress nprime ∈ net ∧
        ∀ b ∈ members net, hash b ≠ hash (resolveAddress localaddress address) then
      startServer localaddress net address nprime r none
    else none
  | .stabilize address => if address ∈ net then some (stabilize net address) else none

/-- No `stabilize` would change the first successor or the predecessor of any node. -/
def Quiescent (net : Network) : Prop :=
  ∀ a ∈ net, ∀ b n n', net.lookup b = some n → (stabilize net a).lookup b = some n' →
    n'.successors.head? = n.successors.head? ∧ n'.predecessor = n.predecessor

instance : Decidable (Quiescent net) :=
  decidable_of_iff (∀ a ∈ members net, ∀ e ∈ net.entries, ∀ n' ∈ (stabilize net a).lookup e.1,
      n'.successors.head? = e.2.successors.head? ∧ n'.predecessor = e.2.predecessor) <| by
    unfold Quiescent
    simp only [mem_members]
    refine forall₂_congr fun a _ => ?_
    rw [← forall_lookup_iff (P := fun b n => ∀ n' ∈ (stabilize net a).lookup b,
      n'.successors.head? = n.successors.head? ∧ n'.predecessor = n.predecessor)]
    exact ⟨fun h b n n' hn hn' => h b n hn n' hn', fun h b n hn n' hn' => h b n n' hn hn'⟩

/-- The first successor of every node is the next one of all nodes, and that node's
predecessor is the node itself. -/
def Ideal (net : Network) : Prop :=
  ∀ a n, net.lookup a = some n → ∃ s m, n.successors.head? = some s ∧ Next net a s ∧
    net.lookup s = some m ∧ m.predecessor = a

/-! ### The invariant -/

/-- The first successor of the node at `a`. -/
def firstSuccessor (net : Network) (a : Address) : Address :=
  ((net.lookup a).bind (·.successors.head?)).getD a

/-- The first successors are one thread, and from the predecessor of a node they lead
to the node and do not pass it. -/
structure Pointed (net : Network) (base : Address) : Prop extends Identified net where
  successors : ∀ a n, net.lookup a = some n → n.successors ≠ [] ∧ 1 ≤ n.numberOfSuccessors
  threaded : Threaded hash hashMod (members net) (firstSuccessor net) base
  predecessor : ∀ b n, net.lookup b = some n → n.predecessor ≠ "" →
    n.predecessor ∈ net ∧ Leads hash hashMod (firstSuccessor net) b n.predecessor

theorem Pointed.head (h : Pointed net base) (hn : net.lookup a = some n) :
    ∃ rest, n.successors = firstSuccessor net a :: rest ∧ firstSuccessor net a ∈ net := by
  have hmem := h.threaded.next_mem a (mem_members.mpr (mem_of_lookup hn))
  cases hsucc : n.successors with
  | nil => exact absurd hsucc (h.successors a n hn).1
  | cons s rest =>
    have heq : firstSuccessor net a = s := by simp [firstSuccessor, hn, hsucc]
    exact ⟨rest, by rw [heq], mem_members.mp hmem⟩

/-! ### One `stabilize` -/

/-- The first successor that `stabilize` settles on: that of the node, or the
predecessor of that if it comes before. -/
def settled (net : Network) (a : Address) : Address :=
  let s := firstSuccessor net a
  match net.lookup s with
  | none => s
  | some m =>
    if m.predecessor ≠ "" ∧ between (hash a) (hash m.predecessor) (hash s) false then m.predecessor
    else s

theorem settled_mem (h : Pointed net base) (hn : net.lookup a = some n) :
    settled net a ∈ net := by
  obtain ⟨-, -, hs⟩ := h.head hn
  obtain ⟨m, hm⟩ := exists_lookup hs
  unfold settled
  dsimp only
  rw [hm]
  dsimp only
  split
  · next hx => exact (h.predecessor _ m hm hx.1).1
  · exact hs

/-- Only the predecessor may change. -/
theorem notify_eq (n : Node) (cand : Address) :
    n.notify cand = { n with predecessor := (n.notify cand).predecessor } := by
  unfold Node.notify
  split_ifs <;> rfl

/-- The predecessor stays, or becomes the node that has called. -/
theorem notify_predecessor (n : Node) (cand : Address) :
    (n.notify cand).predecessor = n.predecessor ∨ (n.notify cand).predecessor = cand := by
  unfold Node.notify
  split
  · exact .inl rfl
  split
  · exact .inr rfl
  split
  · exact .inr rfl
  · exact .inl rfl

/-- **`stabilize` where the first successor runs**: it settles on that or on its
predecessor, tells it, and puts it first on its list. -/
theorem stabilize_eq (hn : net.lookup a = some n) {tail : List Address}
    (hsucc : n.successors = s :: tail) {m m' : Node} (hm : net.lookup s = some m) {x : Address}
    (hx : (if m.predecessor ≠ "" ∧ between n.id (hash m.predecessor) (hash s) false then
      m.predecessor else s) = x)
    (hm' : net.lookup x = some m') (hne : m'.successors ≠ []) (hpos : 1 ≤ n.numberOfSuccessors) :
    stabilize net a =
      Table.modify a (fun v =>
        { v with successors := x :: m'.successors.take (n.numberOfSuccessors - 1) })
        (callNotify net x a) := by
  have hget : callGetPredecessor net s = some m.predecessor := by
    unfold callGetPredecessor
    rw [hm]
    rfl
  -- the list of the successor it settles on is not empty
  have hlist : callGetSuccessorList (callNotify net x a) x = some m'.successors := by
    unfold callGetSuccessorList callNotify
    rw [Table.lookup_modify_self, hm']
    have hsame : (m'.notify a).successors = m'.successors := by rw [notify_eq]
    simp [hsame, hne]
  unfold stabilize
  rw [hn]
  dsimp only
  rw [hsucc, if_neg (List.cons_ne_nil s tail), List.findIdx?_cons, hget, Option.isSome_some,
    if_pos rfl]
  dsimp only
  rw [if_neg (Nat.lt_irrefl 0), List.getD_cons_zero, hget]
  dsimp only
  rw [hx, hlist]
  dsimp only
  refine Table.modify_congr fun v hv => ?_
  have hr : v.numberOfSuccessors = n.numberOfSuccessors := by
    unfold callNotify at hv
    rw [Table.lookup_modify, hn] at hv
    split at hv
    · cases hv
      dsimp only
      rw [notify_eq]
    · cases hv
      rfl
  rw [hr, show n.numberOfSuccessors = n.numberOfSuccessors - 1 + 1 by omega, List.take_succ_cons]
  rfl

/-- **`stabilize` where no node has crashed.** -/
theorem stabilize_spec (h : Pointed net base) (hn : net.lookup a = some n) :
    ∃ rest,
      stabilize net a = Table.modify a (fun m => { m with successors := settled net a :: rest })
      (callNotify net (settled net a) a) := by
  obtain ⟨tail, hsucc, hs⟩ := h.head hn
  obtain ⟨m, hm⟩ := exists_lookup hs
  obtain ⟨m', hm'⟩ := exists_lookup (settled_mem h hn)
  have hsettled : (if m.predecessor ≠ "" ∧
        between n.id (hash m.predecessor) (hash (firstSuccessor net a)) false then m.predecessor
      else firstSuccessor net a) = settled net a := by
    unfold settled
    dsimp only
    rw [hm, h.id_eq a n hn]
  exact ⟨_, stabilize_eq hn hsucc hm hsettled hm' (h.successors _ m' hm').1 (h.successors a n hn).2⟩

/-- The nodes after a `stabilize`. -/
theorem lookup_stabilize (h : Pointed net base) (hn : net.lookup a = some n) :
    ∃ rest, ∀ b, (stabilize net a).lookup b = (net.lookup b).map fun m =>
      { m with
        predecessor := if b = settled net a then (m.notify a).predecessor else m.predecessor
        successors := if b = a then settled net a :: rest else m.successors } := by
  obtain ⟨rest, hspec⟩ := stabilize_spec h hn
  refine ⟨rest, fun b => ?_⟩
  have hnotify : (callNotify net (settled net a) a).lookup b = (net.lookup b).map fun m =>
      { m with predecessor :=
        if b = settled net a then (m.notify a).predecessor else m.predecessor } := by
    unfold callNotify
    rw [Table.lookup_modify]
    by_cases hb : b = settled net a
    · subst hb
      rw [if_pos rfl]
      refine Option.map_congr fun m _ => ?_
      rw [if_pos rfl]
      exact notify_eq m a
    · simp [hb]
  rw [hspec, Table.lookup_modify]
  by_cases hb : b = a
  · subst hb
    rw [if_pos rfl, hnotify, Option.map_map]
    refine Option.map_congr fun m _ => ?_
    dsimp only [Function.comp]
    rw [if_pos rfl]
  · rw [if_neg hb, hnotify]
    refine Option.map_congr fun m _ => ?_
    rw [if_neg hb]

theorem mem_stabilize (h : Pointed net base) (hn : net.lookup a = some n) :
    b ∈ stabilize net a ↔ b ∈ net := by
  obtain ⟨rest, hlookup⟩ := lookup_stabilize h hn
  rw [← AList.lookup_isSome, hlookup, Option.isSome_map, AList.lookup_isSome]

theorem members_stabilize (h : Pointed net base) (hn : net.lookup a = some n) :
    members (stabilize net a) = members net := by
  ext b
  rw [mem_members, mem_members, mem_stabilize h hn]

theorem firstSuccessor_stabilize (h : Pointed net base) (hn : net.lookup a = some n) (b : Address) :
    firstSuccessor (stabilize net a) b = if b = a then settled net a else firstSuccessor net b := by
  obtain ⟨rest, hlookup⟩ := lookup_stabilize h hn
  unfold firstSuccessor
  rw [hlookup]
  by_cases hb : b = a
  · subst hb
    simp [hn]
  · cases net.lookup b <;> simp [hb]

/-- The successor is kept, or moved back along the thread. -/
theorem settled_cases (h : Pointed net base) (hn : net.lookup a = some n) :
    settled net a = firstSuccessor net a ∨
      Moved hash hashMod (members net) (firstSuccessor net) (firstSuccessor (stabilize net a)) a
        (settled net a) := by
  obtain ⟨-, -, hs⟩ := h.head hn
  obtain ⟨m, hm⟩ := exists_lookup hs
  have hnext := firstSuccessor_stabilize h hn
  have hmem := settled_mem h hn
  unfold settled at hmem hnext ⊢
  dsimp only at hmem hnext ⊢
  rw [hm] at hmem hnext ⊢
  dsimp only at hmem hnext ⊢
  split
  · next hx =>
    rw [if_pos hx] at hmem hnext
    refine .inr ⟨mem_members.mpr (mem_of_lookup hn), mem_members.mpr hmem,
      (h.predecessor _ m hm hx.1).2, ?_, ?_, fun z hz => ?_⟩
    · exact (between_false_iff (hash_lt a) (hash_lt _) (hash_lt _)).mp hx.2
    · rw [hnext, if_pos rfl]
    · rw [hnext, if_neg hz]
  · exact .inl rfl

/-- What led to a node and did not pass it still does. -/
theorem leads_stabilize (h : Pointed net base) (hn : net.lookup a = some n) (hb : b ∈ net)
    (hp : p ∈ net) (hl : Leads hash hashMod (firstSuccessor net) b p) :
    Leads hash hashMod (firstSuccessor (stabilize net a)) b p := by
  rcases settled_cases h hn with hkept | hmoved
  · refine hl.congr h.threaded.next_mem (fun z hz => ?_) (mem_members.mpr hp)
    rw [firstSuccessor_stabilize h hn]
    split
    · next heq => rw [hkept, heq]
    · rfl
  · exact hl.update h.placed h.threaded.next_mem hmoved (mem_members.mpr hb) (mem_members.mpr hp)

/-- **`stabilize` keeps the invariant.** -/
theorem pointed_stabilize (h : Pointed net base) (hn : net.lookup a = some n) :
    Pointed (stabilize net a) base := by
  obtain ⟨rest, hlookup⟩ := lookup_stabilize h hn
  have hmem : ∀ b, b ∈ stabilize net a ↔ b ∈ net := fun b => mem_stabilize h hn
  have hnext := firstSuccessor_stabilize h hn
  have hthread : Threaded hash hashMod (members (stabilize net a))
      (firstSuccessor (stabilize net a)) base := by
    rw [members_stabilize h hn]
    rcases settled_cases h hn with hkept | hmoved
    · have hsame : firstSuccessor (stabilize net a) = firstSuccessor net := by
        funext z
        rw [hnext]
        split
        · next heq => rw [hkept, heq]
        · rfl
      rw [hsame]
      exact h.threaded
    · exact h.threaded.update h.placed hmoved
  -- every node that is there was there before
  have hold : ∀ b m', (stabilize net a).lookup b = some m' → ∃ m, net.lookup b = some m ∧
      m' = { m with
        predecessor := if b = settled net a then (m.notify a).predecessor else m.predecessor
        successors := if b = a then settled net a :: rest else m.successors } := by
    intro b m' hm'
    rw [hlookup] at hm'
    obtain ⟨m, hm, rfl⟩ := Option.map_eq_some_iff.mp hm'
    exact ⟨m, hm, rfl⟩
  refine
    { ne_empty := fun hempty => h.ne_empty ((hmem "").mp hempty)
      id_eq := fun b m' hm' => ?_
      inj := fun b hb c hc => h.inj b ((hmem b).mp hb) c ((hmem c).mp hc)
      successors := fun b m' hm' => ?_
      threaded := hthread
      predecessor := fun b m' hm' hne => ?_ }
  · obtain ⟨m, hm, rfl⟩ := hold b m' hm'
    exact h.id_eq b m hm
  · obtain ⟨m, hm, rfl⟩ := hold b m' hm'
    refine ⟨?_, (h.successors b m hm).2⟩
    dsimp only
    split
    · exact List.cons_ne_nil _ _
    · exact (h.successors b m hm).1
  · obtain ⟨m, hm, rfl⟩ := hold b m' hm'
    have hb := mem_of_lookup hm
    have ha := mem_of_lookup hn
    have hkeep : m.predecessor ≠ "" → m.predecessor ∈ stabilize net a ∧
        Leads hash hashMod (firstSuccessor (stabilize net a)) b m.predecessor := by
      intro hne
      obtain ⟨hp, hl⟩ := h.predecessor b m hm hne
      exact ⟨(hmem _).mpr hp, leads_stabilize h hn hb hp hl⟩
    dsimp only at hne ⊢
    split at hne
    · next hsettled =>
      rw [if_pos hsettled]
      rcases notify_predecessor m a with heq | heq <;> rw [heq] at hne ⊢
      · exact hkeep hne
      · -- the caller now points to this node
        refine ⟨(hmem a).mpr ha, ?_⟩
        have hpoints : firstSuccessor (stabilize net a) a = b := by rw [hnext, if_pos rfl, hsettled]
        by_cases hab : a = b
        · rw [hab]
          exact .refl
        · refine .hop hab (by rw [hpoints]) ?_
          rw [hpoints]
          exact .refl
    · next hsettled =>
      rw [if_neg hsettled]
      exact hkeep hne

/-! ### Starting and joining -/

theorem startServer_cases {localaddress address nprime : String} {r : ℕ}
    (h : startServer localaddress net address nprime r none = some net') :
    ∃ m, net' = net.insert (resolveAddress localaddress address) m ∧
      resolveAddress localaddress address ∉ net ∧
      m.id = hash (resolveAddress localaddress address) ∧ m.predecessor = "" ∧
      m.successors = [if nprime = "" then resolveAddress localaddress address
        else resolveAddress localaddress nprime] ∧ m.numberOfSuccessors = r := by
  unfold startServer at h
  dsimp only at h
  split at h
  · cases h
  · next hfree =>
    cases h
    refine ⟨_, rfl, hfree, ?_⟩
    split <;> exact ⟨rfl, rfl, rfl, rfl⟩

/-- **The node that creates a ring** is a thread by itself. -/
theorem pointed_create {localaddress address : String} {r : ℕ} (hr : 1 ≤ r)
    (h : startServer localaddress ∅ address "" r none = some net) :
    Pointed net (resolveAddress localaddress address) := by
  obtain ⟨m, rfl, -, hid, hpred, hsucc, hnum⟩ := startServer_cases h
  generalize hbase : resolveAddress localaddress address = base at *
  rw [if_pos rfl] at hsucc
  have hlookup : ∀ a n, (AList.insert base m (∅ : Network)).lookup a = some n → a = base ∧
      n = m := by
    intro a n hn
    by_cases ha : a = base
    · subst ha
      rw [AList.lookup_insert] at hn
      exact ⟨rfl, (Option.some.inj hn).symm⟩
    · rw [AList.lookup_insert_ne ha, AList.lookup_empty] at hn
      cases hn
  have hmembers : members (AList.insert base m (∅ : Network)) = {base} := by
    ext a
    rw [mem_members, AList.mem_insert, Finset.mem_singleton]
    exact or_iff_left (AList.notMem_empty a)
  refine
    { ne_empty := fun hempty => ?_
      id_eq := fun a n hn => ?_
      inj := fun a ha b hb _ => ?_
      successors := fun a n hn => ?_
      threaded := ?_
      predecessor := fun a n hn hne => ?_ }
  · obtain ⟨n, hn⟩ := exists_lookup hempty
    exact resolveAddress_ne_empty _ _ (hbase.trans (hlookup _ n hn).1.symm)
  · obtain ⟨rfl, rfl⟩ := hlookup a n hn
    exact hid
  · obtain ⟨n, hn⟩ := exists_lookup ha
    obtain ⟨n', hn'⟩ := exists_lookup hb
    exact (hlookup a n hn).1.trans (hlookup b n' hn').1.symm
  · obtain ⟨rfl, rfl⟩ := hlookup a n hn
    exact ⟨by rw [hsucc]; exact List.cons_ne_nil _ _, hnum ▸ hr⟩
  · rw [hmembers]
    refine Circle.threaded_singleton ?_
    unfold firstSuccessor
    rw [AList.lookup_insert, Option.bind_some, hsucc]
    rfl
  · obtain ⟨rfl, rfl⟩ := hlookup a n hn
    exact absurd hpred hne

/-- **Joining keeps the invariant**, through whichever node. -/
theorem pointed_join (h : Pointed net base) {localaddress address nprime : String} {r : ℕ}
    (hr : 1 ≤ r) (hnprime : nprime ≠ "") (hrun : resolveAddress localaddress nprime ∈ net)
    (hnew : ∀ b ∈ members net, hash b ≠ hash (resolveAddress localaddress address))
    (hstart : startServer localaddress net address nprime r none = some net') :
    Pointed net' base := by
  obtain ⟨m, rfl, hfree, hid, hpred, hsucc, hnum⟩ := startServer_cases hstart
  have hne := resolveAddress_ne_empty localaddress address
  generalize resolveAddress localaddress address = a₀ at *
  generalize resolveAddress localaddress nprime = s₀ at *
  rw [if_neg hnprime] at hsucc
  have hlookup : ∀ a n, (AList.insert a₀ m net).lookup a = some n →
      a = a₀ ∧ n = m ∨ a ≠ a₀ ∧ net.lookup a = some n := by
    intro a n hn
    by_cases ha : a = a₀
    · subst ha
      rw [AList.lookup_insert] at hn
      exact .inl ⟨rfl, (Option.some.inj hn).symm⟩
    · rw [AList.lookup_insert_ne ha] at hn
      exact .inr ⟨ha, hn⟩
  have hmem : ∀ a, a ∈ AList.insert a₀ m net ↔ a = a₀ ∨ a ∈ net := fun a => AList.mem_insert _
  have hmembers : members (AList.insert a₀ m net) = insert a₀ (members net) := by
    ext a
    rw [mem_members, hmem, Finset.mem_insert, mem_members]
  have hold : ∀ b ∈ members net,
      firstSuccessor (AList.insert a₀ m net) b = firstSuccessor net b := by
    intro b hb
    have hne : b ≠ a₀ := by
      rintro rfl
      exact hfree (mem_members.mp hb)
    unfold firstSuccessor
    rw [AList.lookup_insert_ne hne]
  refine
    { toIdentified := h.toIdentified.insert hne hid hnew
      successors := fun a n hn => ?_
      threaded := ?_
      predecessor := fun a n hn hp => ?_ }
  · rcases hlookup a n hn with ⟨-, rfl⟩ | ⟨-, hn⟩
    · exact ⟨by rw [hsucc]; exact List.cons_ne_nil _ _, hnum ▸ hr⟩
    · exact h.successors a n hn
  · rw [hmembers]
    refine h.threaded.insert ?_ hold
    simpa [firstSuccessor, hsucc] using hrun
  · rcases hlookup a n hn with ⟨-, rfl⟩ | ⟨-, hn⟩
    · exact absurd hpred hp
    · obtain ⟨hp, hl⟩ := h.predecessor a n hn hp
      exact ⟨(hmem _).mpr (.inr hp), hl.congr h.threaded.next_mem hold (mem_members.mpr hp)⟩

theorem pointed_step (h : Pointed net base) {e : Event} (hstep : step net e = some net') :
    Pointed net' base := by
  cases e with
  | join localaddress address nprime r =>
    simp only [step] at hstep
    split at hstep
    · next hok => exact pointed_join h hok.1 hok.2.1 hok.2.2.1 hok.2.2.2 hstep
    · cases hstep
  | stabilize a =>
    simp only [step] at hstep
    split at hstep
    · next ha =>
      cases hstep
      obtain ⟨n, hn⟩ := exists_lookup ha
      exact pointed_stabilize h hn
    · cases hstep

/-- The invariant holds throughout a run. -/
theorem pointed_of_reach {localaddress address : String} {r : ℕ} {net₀ : Network} (hr : 1 ≤ r)
    (h₀ : startServer localaddress ∅ address "" r none = some net₀) (hreach : Reach step net₀ net) :
    Pointed net (resolveAddress localaddress address) :=
  hreach.invariant (P := fun net => Pointed net _) (pointed_create hr h₀)
    fun _ _ _ h _ hstep => pointed_step h hstep

/-! ### Quiescent rings -/

/-- Where nothing is left to do, the successor of a node points back to it. -/
theorem Pointed.points_back (h : Pointed net base) (hq : Quiescent net)
    (hn : net.lookup a = some n) :
    ∃ m, net.lookup (firstSuccessor net a) = some m ∧ m.predecessor = a := by
  have ha := mem_of_lookup hn
  obtain ⟨tail, hsucc, hs⟩ := h.head hn
  obtain ⟨m, hm⟩ := exists_lookup hs
  obtain ⟨rest, hlookup⟩ := lookup_stabilize h hn
  -- it settles on the successor it has
  have hsettled : settled net a = firstSuccessor net a := by
    have hhead := (hq a ha a n _ hn ((hlookup a).trans (by rw [hn]; rfl))).1
    dsimp only at hhead
    rw [if_pos rfl, hsucc] at hhead
    exact Option.some.inj hhead
  have hstays := (hq a ha _ m _ hm ((hlookup _).trans (by rw [hm]; rfl))).2
  dsimp only at hstays
  rw [if_pos hsettled.symm] at hstays
  refine ⟨m, hm, ?_⟩
  have hane : a ≠ "" := by
    rintro rfl
    exact h.ne_empty ha
  unfold Node.notify at hstays
  rw [if_neg hane] at hstays
  split at hstays
  · exact hstays.symm
  next hp =>
  split at hstays
  · exact hstays.symm
  next hafter =>
  -- the predecessor comes neither before the node nor after it
  by_contra hpa
  have hpM := hash_lt m.predecessor
  have haM := hash_lt a
  have hsM := hash_lt (firstSuccessor net a)
  have hbefore : ¬ between (hash a) (hash m.predecessor) (hash (firstSuccessor net a)) false := by
    intro hbetween
    have hmoved : settled net a = m.predecessor := by
      unfold settled
      dsimp only
      rw [hm]
      exact if_pos ⟨hp, hbetween⟩
    rw [← hmoved, hsettled, between_false_iff haM hsM hsM] at hbetween
    exact lt_irrefl _ hbetween
  rw [h.id_eq _ m hm, between_false_iff hpM haM hsM] at hafter
  rw [between_false_iff haM hpM hsM] at hbefore
  have hne : hash a ≠ hash m.predecessor := fun heq =>
    hpa (h.inj a ha _ (h.predecessor _ m hm hp).1 heq).symm
  exact (Circle.arc_lt_or_arc_lt haM hpM hsM hne).elim hbefore hafter

/-- **A quiescent ring is ideal**: after any joins and any calls of `stabilize`, where
none of these would change anything, all nodes are one ring in the order of their
identifiers. -/
theorem ideal_of_quiescent {localaddress address : String} {r : ℕ} {net₀ : Network} (hr : 1 ≤ r)
    (h₀ : startServer localaddress ∅ address "" r none = some net₀) (hreach : Reach step net₀ net)
    (hq : Quiescent net) : Ideal net := by
  have h := pointed_of_reach hr h₀ hreach
  -- no two nodes have one successor, since it points back to both
  have hinj : ∀ a ∈ members net, ∀ b ∈ members net,
      firstSuccessor net a = firstSuccessor net b → a = b := by
    intro a ha b hb hab
    obtain ⟨n, hn⟩ := exists_lookup (mem_members.mp ha)
    obtain ⟨n', hn'⟩ := exists_lookup (mem_members.mp hb)
    obtain ⟨m, hm, hma⟩ := h.points_back hq hn
    obtain ⟨m', hm', hmb⟩ := h.points_back hq hn'
    rw [hab, hm', Option.some.injEq] at hm
    rw [← hma, ← hmb, hm]
  intro a n hn
  obtain ⟨tail, hsucc, -⟩ := h.head hn
  obtain ⟨m, hm, hpred⟩ := h.points_back hq hn
  refine ⟨firstSuccessor net a, m, by rw [hsucc]; rfl, ?_, hm, hpred⟩
  exact h.threaded.follows h.placed hinj (mem_members.mpr (mem_of_lookup hn))

/-- Two nodes join through the first one. -/
theorem ideal_of_quiescent_threeNodes :
    ∃ net, net.keys.length = 3 ∧ Quiescent net ∧ Ideal net := by
  have hrun : ∃ net ∈ (startServer "10.0.0.1" ∅ "10.0.0.1:3410" "" 3 none).bind (fun net₀ =>
      run step net₀
        [.join "10.0.0.2" "10.0.0.2:3410" "10.0.0.1:3410" 3,
          .join "10.0.0.3" "10.0.0.3:3410" "10.0.0.1:3410" 3,
          .stabilize "10.0.0.2:3410", .stabilize "10.0.0.3:3410", .stabilize "10.0.0.1:3410",
          .stabilize "10.0.0.1:3410"]), net.keys.length = 3 ∧ Quiescent net := by
    decide +kernel
  obtain ⟨net, hnet, hlen, hq⟩ := hrun
  obtain ⟨net₀, h₀, hnet⟩ := Option.bind_eq_some_iff.mp hnet
  exact ⟨net, hlen, hq, ideal_of_quiescent (by decide) h₀ (reach_of_run _ _ _ hnet) hq⟩

end ExchangeLabs.Chord
