import Mathlib.Data.List.Chain
import ExchangeLabs.Chord.Failures
import ExchangeLabs.Chord.Stabilize

/-!
# The lists of successors converge

A ring of fixed membership in which the first successors and the predecessors are right,
but the rest of the lists is not.  `stabilize` copies the list of the successor behind the
successor and cuts it off, so with every round one more entry is right, in whatever order
the nodes stabilize within the round.

## Main definitions

* `Oriented net` — every first successor is the next node, every predecessor the previous one.
* `Begins base r j a net` — the first `j` entries of the list of the node at `a` are right, or
  all `r` that there should be.
* `Settled base r net` — the pointers are right, and the nodes are those of `base`.

## Main results

* `stabilize_of_ideal` — what `stabilize` does in such a ring.
* `begins_stabilize` — one more entry is right.
* `lists_converge` — **after `k` rounds `k + 1` entries are right.**
-/

namespace ExchangeLabs.Chord

variable {net base : Network} {a b s : Address} {n m : Node} {r j : ℕ}

/-- Every first successor is the next node, and every predecessor the previous one. -/
structure Oriented (net : Network) : Prop extends Identified net where
  successor : ∀ a n, net.lookup a = some n → ∃ s, n.successors.head? = some s ∧ Next net a s
  predecessor : ∀ a n, net.lookup a = some n → n.predecessor ∈ net ∧ Next net n.predecessor a

instance : Decidable (Oriented net) :=
  decidable_of_iff
    (("" ∉ net ∧ (∀ e ∈ net.entries, e.2.id = hash e.1) ∧
      ∀ a ∈ members net, ∀ b ∈ members net, hash a = hash b → a = b) ∧
      (∀ e ∈ net.entries, ∃ s ∈ e.2.successors.head?, Next net e.1 s) ∧
      ∀ e ∈ net.entries, e.2.predecessor ∈ net ∧ Next net e.2.predecessor e.1) <| by
    rw [← forall_lookup_iff (P := fun a n => n.id = hash a),
      ← forall_lookup_iff (P := fun a n => ∃ s ∈ n.successors.head?, Next net a s),
      ← forall_lookup_iff (P := fun a n => n.predecessor ∈ net ∧ Next net n.predecessor a)]
    simp only [mem_members]
    exact ⟨fun ⟨⟨h₁, h₂, h₃⟩, h₄, h₅⟩ => ⟨⟨h₁, h₂, h₃⟩, h₄, h₅⟩,
      fun h => ⟨⟨h.ne_empty, h.id_eq, h.inj⟩, h.successor, h.predecessor⟩⟩

/-- The successor of a node points back. -/
theorem Oriented.ideal (h : Oriented net) : Ideal net := by
  intro a n hn
  obtain ⟨s, hhead, hnext⟩ := h.successor a n hn
  obtain ⟨m, hm⟩ := exists_lookup (mem_members.mp hnext.1)
  obtain ⟨hmem, hpred⟩ := h.predecessor s m hm
  exact ⟨s, m, hhead, hnext, hm, hpred.left_unique h.placed (mem_members.mpr hmem)
    (mem_members.mpr (mem_of_lookup hn)) hnext⟩

/-- The predecessor is told again what it is. -/
theorem notify_of_predecessor (ha : a ≠ "") (hpred : n.predecessor = a) : n.notify a = n := by
  unfold Node.notify
  rw [if_neg ha, hpred, if_neg ha, between_self]
  rfl

/-- **`stabilize` where the pointers are right**: only the list of the node changes. -/
theorem stabilize_of_ideal (h : Identified net) (hn : net.lookup a = some n) {tail : List Address}
    (hsucc : n.successors = s :: tail) (hm : net.lookup s = some m) (hpred : m.predecessor = a)
    (hne : m.successors ≠ []) (hpos : 1 ≤ n.numberOfSuccessors) :
    stabilize net a = Table.modify a (fun v =>
      { v with successors := s :: m.successors.take (n.numberOfSuccessors - 1) }) net := by
  have ha : a ≠ "" := by
    rintro rfl
    exact h.ne_empty (mem_of_lookup hn)
  have hsettled : (if m.predecessor ≠ "" ∧ between n.id (hash m.predecessor) (hash s) false then
      m.predecessor else s) = s := by
    rw [hpred, h.id_eq a n hn, between_self, if_neg]
    simp
  have hnotify : callNotify net s a = net := by
    refine Table.modify_eq_self fun v hv => ?_
    rw [hm, Option.some.injEq] at hv
    subst hv
    exact notify_of_predecessor ha hpred
  rw [stabilize_eq hn hsucc hm hsettled hm hne hpos, hnotify]

/-! ### One `stabilize` -/

/-- The first successors and the predecessors are right, and the nodes are those of `base`. -/
structure Settled (base : Network) (r : ℕ) (net : Network) : Prop extends Identified net where
  ideal : Ideal net
  numberOfSuccessors : ∀ a n, net.lookup a = some n → n.numberOfSuccessors = r
  members_eq : members net = members base

/-- The first `j` entries of the list of the node at `a` are there and are the next nodes
clockwise, or all `r` that there should be. -/
def Begins (base : Network) (r j : ℕ) (a : Address) (net : Network) : Prop :=
  ∀ n, net.lookup a = some n → min j r ≤ n.successors.length ∧
    List.IsChain (Next base) (a :: n.successors.take (min j r))

theorem stabilize_of_notMem (ha : a ∉ net) : stabilize net a = net := by
  unfold stabilize
  rw [AList.lookup_eq_none.mpr ha]

namespace Settled

variable (h : Settled base r net)
include h

theorem successors_ne_nil (hn : net.lookup a = some n) : n.successors ≠ [] := by
  obtain ⟨s, -, hhead, -⟩ := h.ideal a n hn
  rintro hnil
  rw [hnil] at hhead
  cases hhead

/-- The node gets the list of its successor. -/
theorem stabilize_eq (hr : 1 ≤ r) (hn : net.lookup a = some n) :
    ∃ s m, n.successors.head? = some s ∧ Next base a s ∧ net.lookup s = some m ∧
      stabilize net a =
        Table.modify a (fun v => { v with successors := s :: m.successors.take (r - 1) }) net := by
  obtain ⟨s, m, hhead, hnext, hm, hpred⟩ := h.ideal a n hn
  obtain ⟨tail, hsucc⟩ := List.head?_eq_some_iff.mp hhead
  have hnumber := h.numberOfSuccessors a n hn
  refine ⟨s, m, hhead, (next_congr h.members_eq).mp hnext, hm, ?_⟩
  rw [stabilize_of_ideal h.toIdentified hn hsucc hm hpred (h.successors_ne_nil hm)
    (hnumber.symm ▸ hr), hnumber]

/-- Only the rest of one list changes. -/
theorem stabilize (hr : 1 ≤ r) (a : Address) : Settled base r (Chord.stabilize net a) := by
  by_cases ha : a ∈ net
  swap
  · rwa [stabilize_of_notMem ha]
  obtain ⟨n, hn⟩ := exists_lookup ha
  obtain ⟨s, m, hhead, -, -, heq⟩ := h.stabilize_eq hr hn
  have hmembers : members (Chord.stabilize net a) = members net := by
    rw [heq, members_modify]
  -- a node has its first successor and its predecessor from before
  have hold : ∀ b v', (Chord.stabilize net a).lookup b = some v' → ∃ v, net.lookup b = some v ∧
      v'.successors.head? = v.successors.head? ∧ v'.predecessor = v.predecessor ∧
      v'.numberOfSuccessors = v.numberOfSuccessors := by
    intro b v' hv'
    rw [heq] at hv'
    obtain ⟨v, hv, rfl⟩ := Table.exists_of_lookup_modify hv'
    refine ⟨v, hv, ?_⟩
    split
    · next hb =>
      rw [hb, hn, Option.some.injEq] at hv
      subst hv
      exact ⟨hhead.symm, rfl, rfl⟩
    · exact ⟨rfl, rfl, rfl⟩
  refine ⟨?_, fun b v' hv' => ?_, fun b v' hv' => ?_, hmembers.trans h.members_eq⟩
  · rw [heq]
    exact h.toIdentified.modify fun v => rfl
  · obtain ⟨v, hv, hsucc, -⟩ := hold b v' hv'
    obtain ⟨s', m', hhead', hnext', hm', hpred'⟩ := h.ideal b v hv
    obtain ⟨w', hw'⟩ : ∃ w', (Chord.stabilize net a).lookup s' = some w' := by
      refine exists_lookup (mem_members.mp ?_)
      rw [hmembers]
      exact mem_members.mpr (mem_of_lookup hm')
    obtain ⟨w, hw, -, hpred, -⟩ := hold s' w' hw'
    rw [hm', Option.some.injEq] at hw
    subst hw
    exact ⟨s', w', hsucc.trans hhead', (next_congr hmembers).mpr hnext', hw', hpred.trans hpred'⟩
  · obtain ⟨v, hv, -, -, hnumber⟩ := hold b v' hv'
    exact hnumber.trans (h.numberOfSuccessors b v hv)

/-- **One more entry is right** after the node has stabilized. -/
theorem begins_stabilize (hr : 1 ≤ r) (hall : ∀ b, Begins base r j b net) (a : Address) :
    Begins base r (j + 1) a (Chord.stabilize net a) ∧
      ∀ n, (Chord.stabilize net a).lookup a = some n → n.successors.length ≤ r := by
  by_cases ha : a ∈ net
  swap
  · rw [stabilize_of_notMem ha]
    have hnone := AList.lookup_eq_none.mpr ha
    refine ⟨fun n hn => ?_, fun n hn => ?_⟩
    · rw [hnone] at hn
      cases hn
    · rw [hnone] at hn
      cases hn
  obtain ⟨n, hn⟩ := exists_lookup ha
  obtain ⟨s, m, -, hnext, hm, heq⟩ := h.stabilize_eq hr hn
  obtain ⟨hlength, hchain⟩ := hall s m hm
  have hlookup : ∀ n', (Chord.stabilize net a).lookup a = some n' →
      n'.successors = s :: m.successors.take (r - 1) := by
    intro n' hn'
    rw [heq, Table.lookup_modify_self, hn] at hn'
    cases hn'
    rfl
  have hmin : min (j + 1) r = min j (r - 1) + 1 := by omega
  refine ⟨fun n' hn' => ?_, fun n' hn' => ?_⟩
  · rw [hlookup n' hn', hmin, List.length_cons, List.length_take, List.take_succ_cons,
      List.take_take, Nat.min_assoc, Nat.min_self]
    refine ⟨by omega, List.isChain_cons_cons.mpr ⟨hnext, ?_⟩⟩
    -- the successor has as many right entries as are copied
    refine List.IsChain.prefix hchain (List.cons_prefix_cons.mpr ⟨rfl, ?_⟩)
    exact List.take_prefix_take_left (by omega)
  · rw [hlookup n' hn', List.length_cons, List.length_take]
    omega

/-- Nothing is undone at the other nodes. -/
theorem lookup_stabilize_of_ne (hr : 1 ≤ r) (hb : b ≠ a) :
    (Chord.stabilize net a).lookup b = net.lookup b := by
  by_cases ha : a ∈ net
  · obtain ⟨n, hn⟩ := exists_lookup ha
    obtain ⟨s, m, -, -, -, heq⟩ := h.stabilize_eq hr hn
    rw [heq, Table.lookup_modify_ne hb]
  · rw [stabilize_of_notMem ha]

end Settled

/-- Fewer entries are right, too. -/
theorem Begins.mono {i : ℕ} (h : Begins base r j a net) (hle : i ≤ j) : Begins base r i a net := by
  intro n hn
  obtain ⟨hlength, hchain⟩ := h n hn
  refine ⟨by omega, List.IsChain.prefix hchain (List.cons_prefix_cons.mpr ⟨rfl, ?_⟩)⟩
  exact List.take_prefix_take_left (by omega)

/-! ### Rounds -/

/-- Of every list the first `j` entries are right. -/
def AllBegin (base : Network) (r j : ℕ) (net : Network) : Prop :=
  Settled base r net ∧ ∀ b, Begins base r j b net

/-- What a node achieves by its `stabilize`. -/
def Extended (base : Network) (r j : ℕ) (a : Address) (net : Network) : Prop :=
  Begins base r j a net ∧ ∀ n, net.lookup a = some n → n.successors.length ≤ r

/-- A round of `stabilize` where the first `j` entries are right. -/
theorem round_stabilize (hr : 1 ≤ r) (h : AllBegin base r j net) (round : List Address) :
    AllBegin base r j (round.foldl stabilize net) ∧
      ∀ a ∈ round, Extended base r (j + 1) a (round.foldl stabilize net) := by
  have hround := foldl_round (f := stabilize) (I := AllBegin base r j)
    (D := fun a => Extended base r (j + 1) a) ?_ ?_ ?_ round net h
  · exact ⟨hround.1, fun a ha => hround.2 a (.inl ha)⟩
  · rintro net a ⟨hsettled, hall⟩
    refine ⟨hsettled.stabilize hr a, fun b => ?_⟩
    by_cases hb : b = a
    · rw [hb]
      exact (hsettled.begins_stabilize hr hall a).1.mono (Nat.le_succ j)
    · intro n hn
      exact hall b n ((hsettled.lookup_stabilize_of_ne hr hb).symm.trans hn)
  · rintro net a ⟨hsettled, hall⟩
    exact hsettled.begins_stabilize hr hall a
  · rintro net a b ⟨hsettled, hall⟩ hdone
    by_cases hb : b = a
    · rw [hb]
      exact hsettled.begins_stabilize hr hall a
    · have hlookup := hsettled.lookup_stabilize_of_ne hr hb
      exact ⟨fun n hn => hdone.1 n (hlookup.symm.trans hn),
        fun n hn => hdone.2 n (hlookup.symm.trans hn)⟩

/-- With every round one more entry is right. -/
theorem rounds_stabilize (hr : 1 ≤ r) {rounds : List (List Address)}
    (hrounds : ∀ round ∈ rounds, ∀ a ∈ base, a ∈ round) :
    ∀ {j : ℕ} {net : Network}, AllBegin base r j net →
      AllBegin base r (j + rounds.length) (rounds.flatten.foldl stabilize net) := by
  induction rounds with
  | nil =>
    intro j net h
    exact h
  | cons round rounds ih =>
    intro j net h
    obtain ⟨⟨hsettled, -⟩, hdone⟩ := round_stabilize hr h round
    have hnext : AllBegin base r (j + 1) (round.foldl stabilize net) := by
      refine ⟨hsettled, fun a n hn => ?_⟩
      have ha : a ∈ base := by
        rw [← mem_members, ← hsettled.members_eq, mem_members]
        exact mem_of_lookup hn
      exact (hdone a (hrounds round List.mem_cons_self a ha)).1 n hn
    rw [List.flatten_cons, List.foldl_append, List.length_cons, Nat.add_comm rounds.length,
      ← Nat.add_assoc]
    exact ih (fun round' hround' => hrounds round' (List.mem_cons_of_mem round hround')) hnext

/-- The first entries are right at first. -/
theorem Settled.begins_one (h : Settled base r net) (a : Address) : Begins base r 1 a net := by
  intro n hn
  obtain ⟨s, m, hhead, hnext, -⟩ := h.ideal a n hn
  obtain ⟨tail, hsucc⟩ := List.head?_eq_some_iff.mp hhead
  have hchain : List.IsChain (Next base) [a, s] :=
    List.isChain_cons_cons.mpr ⟨(next_congr h.members_eq).mp hnext, .singleton s⟩
  rw [hsucc]
  refine ⟨by rw [List.length_cons]; omega, ?_⟩
  refine List.IsChain.prefix hchain (List.cons_prefix_cons.mpr ⟨rfl, ?_⟩)
  exact List.take_prefix_take_left (Nat.min_le_left 1 r)

/-- Two lists of the next nodes are the same. -/
theorem eq_of_isChain (h : Identified net) {l l' : List Address} (ha : a ∈ net)
    (hl : List.IsChain (Next net) (a :: l)) (hl' : List.IsChain (Next net) (a :: l'))
    (hlength : l.length = l'.length) : l = l' := by
  induction l generalizing a l' with
  | nil => exact (List.eq_nil_of_length_eq_zero hlength.symm).symm
  | cons s l ih =>
    cases l' with
    | nil => cases hlength
    | cons s' l' =>
      obtain ⟨hnext, hl⟩ := List.isChain_cons_cons.mp hl
      obtain ⟨hnext', hl'⟩ := List.isChain_cons_cons.mp hl'
      have heq := hnext.unique h.placed (mem_members.mpr ha) hnext'
      subst heq
      rw [ih (mem_members.mp hnext.1) hl hl' (Nat.succ.inj hlength)]

/-- **Right lists stay**: where all lists are full, `stabilize` changes nothing. -/
theorem Settled.stabilize_of_listed (h : Settled base r net) (hr : 1 ≤ r) (hlisted : Listed net)
    (a : Address) : Chord.stabilize net a = net := by
  by_cases ha : a ∈ net
  swap
  · exact stabilize_of_notMem ha
  obtain ⟨n, hn⟩ := exists_lookup ha
  obtain ⟨s, m, hhead, hnext, hm, heq⟩ := h.stabilize_eq hr hn
  obtain ⟨hlength, hchain⟩ := hlisted a n hn
  obtain ⟨hlength', hchain'⟩ := hlisted s m hm
  rw [h.numberOfSuccessors a n hn] at hlength
  rw [h.numberOfSuccessors s m hm] at hlength'
  have hcopied : List.IsChain (Next net) (a :: s :: m.successors.take (r - 1)) := by
    refine List.isChain_cons_cons.mpr ⟨(next_congr h.members_eq).mpr hnext, ?_⟩
    exact hchain'.prefix (List.cons_prefix_cons.mpr ⟨rfl, List.take_prefix _ _⟩)
  have hsame : n.successors = s :: m.successors.take (r - 1) := by
    refine eq_of_isChain h.toIdentified ha hchain hcopied ?_
    rw [hlength, List.length_cons, List.length_take, hlength']
    omega
  rw [heq]
  refine Table.modify_eq_self fun v hv => ?_
  rw [hn, Option.some.injEq] at hv
  rw [← hv, ← hsame]

/-- **The lists of successors converge**: in a ring of nodes that keep `r` successors, where
every first successor and every predecessor is right, `k` rounds in which every node
stabilizes make the first `k + 1` entries right, or all `r`.  No list is longer than that,
and full lists stay as they are. -/
theorem lists_converge (h : Oriented net) (hr : 1 ≤ r)
    (hnumber : ∀ a n, net.lookup a = some n → n.numberOfSuccessors = r)
    {rounds : List (List Address)} (hrounds : ∀ round ∈ rounds, ∀ a ∈ net, a ∈ round)
    (hk : 1 ≤ rounds.length) :
    (∀ a ∈ net, ∃ n, (rounds.flatten.foldl stabilize net).lookup a = some n ∧
      min (rounds.length + 1) r ≤ n.successors.length ∧
      List.IsChain (Next net) (a :: n.successors.take (min (rounds.length + 1) r)) ∧
      n.successors.length ≤ r) ∧
    (Listed net → ∀ a, stabilize net a = net) := by
  have hsettled : Settled net r net := ⟨h.toIdentified, h.ideal, hnumber, rfl⟩
  have hbegin : AllBegin net r 1 net := ⟨hsettled, hsettled.begins_one⟩
  refine ⟨fun a ha => ?_, hsettled.stabilize_of_listed hr⟩
  obtain ⟨hsettled', hall⟩ := rounds_stabilize hr hrounds hbegin
  have hmem : a ∈ rounds.flatten.foldl stabilize net := by
    rw [← mem_members, hsettled'.members_eq, mem_members]
    exact ha
  obtain ⟨n, hn⟩ := exists_lookup hmem
  -- the node has stabilized in the first round
  have hdone : a ∈ rounds.flatten := by
    obtain ⟨round, hround⟩ := List.exists_mem_of_length_pos hk
    exact List.mem_flatten.mpr ⟨round, hround, hrounds round hround a ha⟩
  rw [Nat.add_comm 1] at hall
  exact ⟨n, hn, (hall a n hn).1, (hall a n hn).2,
    ((round_stabilize hr hbegin rounds.flatten).2 a hdone).2 n hn⟩

/-- The ring of three nodes, which know one successor each so far. -/
def shortRing : Network :=
  Table.mapVal (fun _ n => { n with successors := n.successors.take 1 }) threeRing

theorem lists_converge_shortRing : ∃ n,
    (stabilize (stabilize (stabilize shortRing "10.0.0.2:3410") "10.0.0.3:3410")
      "10.0.0.1:3410").lookup "10.0.0.2:3410" = some n ∧ 2 ≤ n.successors.length ∧
      List.IsChain (Next shortRing) ("10.0.0.2:3410" :: n.successors.take 2) := by
  have horiented : Oriented shortRing := by decide +kernel
  have hnumber : ∀ a n, shortRing.lookup a = some n → n.numberOfSuccessors = 2 :=
    (forall_lookup_iff (P := fun _ n => n.numberOfSuccessors = 2)).mpr (by decide +kernel)
  have hmembers : ∀ a ∈ shortRing, a ∈ ["10.0.0.2:3410", "10.0.0.3:3410", "10.0.0.1:3410"] := by
    intro a ha
    have hall : ∀ a ∈ members shortRing,
        a ∈ ["10.0.0.2:3410", "10.0.0.3:3410", "10.0.0.1:3410"] := by decide +kernel
    exact hall a (mem_members.mpr ha)
  have hrounds : ∀ round ∈ [["10.0.0.2:3410", "10.0.0.3:3410", "10.0.0.1:3410"]],
      ∀ a ∈ shortRing, a ∈ round := by
    intro round hround
    rw [List.mem_singleton.mp hround]
    exact hmembers
  have hmem : "10.0.0.2:3410" ∈ shortRing := by decide +kernel
  obtain ⟨hlists, -⟩ := lists_converge horiented (by decide) hnumber hrounds (by decide)
  simp only [List.flatten_singleton, List.foldl_cons, List.foldl_nil, List.length_singleton,
    Nat.reduceAdd, Nat.min_self] at hlists
  obtain ⟨n, hn, hlength, hchain, -⟩ := hlists _ hmem
  exact ⟨n, hn, hlength, hchain⟩

end ExchangeLabs.Chord
