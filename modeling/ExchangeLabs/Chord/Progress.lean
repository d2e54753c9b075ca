import ExchangeLabs.Chord.Lookup

/-!
# Lookups step by step

A call of `findSuccessor`, cut at its remote calls, so that the finger tables may
change between any two of them.  Where all first fingers are right, a lookup can go on
until it is at the node before the identifier.  It comes closer with every hop, so in a
ring of at most `maxLookupSteps + 2` nodes it gets there before it gives up.

## Main definitions

* `Progress`, `Progress.next` — where a lookup stands, and its steps.
* `Right net a i` — the finger `i` of the node at `a` is the owner of its target.
* `Progress.Good S a id` — the lookup has made its way, and has not gone wrong.

## Main results

* `iterate_next` — without interference the steps compute `findSuccessor`.
* `atOnce_next` — the lookup for the first finger is right in any case.
* `good_next` — **a lookup keeps on its way**, where all first fingers are right.
-/

namespace ExchangeLabs.Chord

variable {net : Network} {a b s : Address} {n : Node} {id i : ℕ} {S : Finset Address}

/-! ### Lookups, step by step -/

/-- Where a call of `findSuccessor` stands. -/
inductive Progress
  /-- Before it has looked at the finger table of its own node. -/
  | start
  /-- Before it asks the candidate for its successors. -/
  | fetch (currentCandidate : Address) (steps : ℕ)
  /-- Before it asks the candidate for the next hop. -/
  | route (currentCandidate candidateSuccessor : Address) (steps : ℕ)
  | returned (result : Except LookupError Address)

/-- The next step of a lookup of `id` by the node at `address`. -/
def Progress.next (net : Network) (address : Address) (id : ℕ) : Progress → Progress
  | .start =>
    match net.lookup address with
    | none => .start
    | some n =>
      let currentCandidate := n.findClosetPredecessor address id
      if currentCandidate = address then
        match n.successors with
        | [] => .returned (.error .noSuccesor)
        | successor :: _ => .returned (.ok successor)
      else .fetch currentCandidate 0
  | .fetch currentCandidate steps =>
    if steps > maxLookupSteps then .returned (.error .stepsExceeded)
    else
      match (callGetSuccessorList net currentCandidate).getD [] with
      | [] => .returned (.error (.emptySuccessorList currentCandidate))
      | candidateSuccessor :: _ =>
        if between (hash currentCandidate) id (hash candidateSuccessor) true then
          .returned (.ok candidateSuccessor)
        else .route currentCandidate candidateSuccessor (steps + 1)
  | .route currentCandidate candidateSuccessor steps =>
    match callFindClosetPredecessor net currentCandidate id with
    | none => .returned (.error (.callFailed currentCandidate))
    | some nextHop =>
      if nextHop = currentCandidate then .returned (.ok candidateSuccessor)
      else .fetch nextHop steps
  | .returned result => .returned result

theorem iterate_next_returned (k : ℕ) (result : Except LookupError Address) :
    (Progress.next net a id)^[k] (.returned result) = .returned result :=
  Function.iterate_fixed rfl k

theorem iterate_next_fetch (left : ℕ) (c : Address) (steps : ℕ)
    (h : steps + left = maxLookupSteps + 1) :
    (Progress.next net a id)^[2 * left + 1] (.fetch c steps) =
      .returned (findSuccessorLoop net id left c) := by
  induction left generalizing c steps with
  | zero =>
    rw [Nat.mul_zero, Nat.zero_add, Function.iterate_one, Progress.next, if_pos (by omega)]
    rfl
  | succ left ih =>
    rw [show 2 * (left + 1) + 1 = 2 * left + 1 + 1 + 1 by omega, Function.iterate_succ_apply]
    unfold findSuccessorLoop
    have hfetch : Progress.next net a id (.fetch c steps) =
        match (callGetSuccessorList net c).getD [] with
        | [] => .returned (.error (.emptySuccessorList c))
        | candidateSuccessor :: _ =>
          if between (hash c) id (hash candidateSuccessor) true then
            .returned (.ok candidateSuccessor)
          else .route c candidateSuccessor (steps + 1) := by
      rw [Progress.next, if_neg (by omega)]
    rw [hfetch]
    cases (callGetSuccessorList net c).getD [] with
    | nil => exact iterate_next_returned _ _
    | cons s rest =>
      dsimp only
      by_cases hbetween : between (hash c) id (hash s) true = true
      · rw [if_pos hbetween, if_pos hbetween]
        exact iterate_next_returned _ _
      rw [if_neg hbetween, if_neg hbetween, Function.iterate_succ_apply, Progress.next]
      cases callFindClosetPredecessor net c id with
      | none => exact iterate_next_returned _ _
      | some nextHop =>
        dsimp only
        by_cases hstop : nextHop = c
        · rw [if_pos hstop, if_pos hstop]
          exact iterate_next_returned _ _
        · rw [if_neg hstop, if_neg hstop]
          exact ih nextHop (steps + 1) (by omega)

/-- **Without interference** the steps of a lookup compute `findSuccessor`. -/
theorem iterate_next (hn : net.lookup a = some n) :
    (Progress.next net a id)^[2 * (maxLookupSteps + 1) + 2] .start =
      .returned (findSuccessor net a n id) := by
  rw [Function.iterate_succ_apply, Progress.next, hn]
  unfold findSuccessor
  dsimp only
  by_cases hstop : n.findClosetPredecessor a id = a
  · rw [if_pos hstop, if_pos hstop]
    cases n.successors <;> exact iterate_next_returned _ _
  · rw [if_neg hstop, if_neg hstop]
    exact iterate_next_fetch _ _ 0 (by omega)

/-! ### A lookup on its way -/

/-- The candidates of a lookup are members. -/
def Progress.Inside (S : Finset Address) : Progress → Prop
  | .start => True
  | .fetch c _ => c ∈ S
  | .route c s _ => c ∈ S ∧ s ∈ S
  | .returned result => ∀ m, result = .ok m → m ∈ S

/-- The lookup returns the owner, or has come closer with every hop, and a candidate
that it asks for the next hop does not come right before the identifier. -/
def Progress.Good (S : Finset Address) (a : Address) (id : ℕ) : Progress → Prop
  | .start => True
  | .fetch c steps =>
    c ∈ Circle.ahead hash S hashMod a id ∧
      steps + 1 + (Circle.ahead hash S hashMod c id).card ≤ (Circle.ahead hash S hashMod a id).card
  | .route c s steps =>
    c ∈ Circle.ahead hash S hashMod a id ∧ Circle.Follows hash S hashMod c s ∧
      between (hash c) id (hash s) true = false ∧
      steps + (Circle.ahead hash S hashMod c id).card ≤ (Circle.ahead hash S hashMod a id).card
  | .returned result => ∃ m, result = .ok m ∧ Circle.Owns hash S hashMod id m

/-- The lookup returns the owner without a remote call. -/
def Progress.AtOnce (S : Finset Address) (id : ℕ) : Progress → Prop
  | .start => True
  | .returned result => ∃ m, result = .ok m ∧ Circle.Owns hash S hashMod id m
  | _ => False

/-- How many steps a lookup can still take. -/
def Progress.left (S : Finset Address) (a : Address) (id : ℕ) : Progress → ℕ
  | .start => 2 * (Circle.ahead hash S hashMod a id).card + 2
  | .fetch c _ => 2 * (Circle.ahead hash S hashMod c id).card + 2
  | .route c _ _ => 2 * (Circle.ahead hash S hashMod c id).card + 1
  | .returned _ => 0

/-- The finger `i` of the node at `a` is the owner of its target. -/
def Right (net : Network) (a : Address) (i : ℕ) : Prop :=
  ∃ n ∈ net.lookup a, ∃ f, n.fingerTable[i]? = some f ∧ Owner net (fingerTarget n.id i) f

theorem mem_fingers {f : Address} :
    f ∈ n.fingers ↔ ∃ i, 1 ≤ i ∧ n.fingerTable[i]? = some f := by
  unfold Node.fingers
  simp only [← Vector.getElem?_toList]
  cases n.fingerTable.toList with
  | nil => simp
  | cons x rest =>
    rw [List.tail_cons, List.mem_iff_getElem?]
    constructor
    · rintro ⟨i, hi⟩
      exact ⟨i + 1, by omega, by rwa [List.getElem?_cons_succ]⟩
    · rintro ⟨i, hpos, hi⟩
      obtain ⟨i, rfl⟩ := Nat.exists_eq_add_of_le' hpos
      exact ⟨i, by rwa [List.getElem?_cons_succ] at hi⟩

/-! ### What a lookup does -/

section Steps

variable (hring : IsRing net) (hS : members net = S)
include hring hS

theorem inside_next {p : Progress} (ha : a ∈ S) (hid : id < hashMod) (hp : p.Inside S) :
    (p.next net a id).Inside S := by
  subst hS
  cases p with
  | start =>
    obtain ⟨n, hn⟩ := exists_lookup (mem_members.mp ha)
    obtain ⟨s, hhead, hs⟩ := hring.successor a n hn
    obtain ⟨rest, hsucc⟩ := List.head?_eq_some_iff.mp hhead
    rw [Progress.next, hn]
    dsimp only
    rw [hsucc, ← hop_eq hn]
    split
    · intro m hm
      cases hm
      exact hs.1
    · exact mem_members.mpr (hring.hop_mem (mem_members.mp ha) hid)
  | fetch c steps =>
    obtain ⟨n, hn⟩ := exists_lookup (mem_members.mp hp)
    obtain ⟨s, rest, hlist, -, hs⟩ := hring.callGetSuccessorList_eq hn
    rw [Progress.next, hlist]
    dsimp only
    split
    · intro m hm
      cases hm
    split
    · intro m hm
      cases hm
      exact hs.1
    · exact ⟨hp, hs.1⟩
  | route c s steps =>
    obtain ⟨n, hn⟩ := exists_lookup (mem_members.mp hp.1)
    rw [Progress.next, callFindClosetPredecessor_eq hn]
    dsimp only
    split
    · intro m hm
      cases hm
      exact hp.2
    · exact mem_members.mpr (hring.hop_mem (mem_members.mp hp.1) hid)
  | returned result => exact hp

/-- The lookup of the first finger never leaves its node. -/
theorem atOnce_next {p : Progress} (ha : a ∈ S) (hp : p.AtOnce S (fingerTarget (hash a) 1)) :
    (p.next net a (fingerTarget (hash a) 1)).AtOnce S (fingerTarget (hash a) 1) := by
  subst hS
  have hM : 1 < hashMod := by decide
  have htarget : fingerTarget (hash a) 1 = (hash a + 1) % hashMod := rfl
  have hid : fingerTarget (hash a) 1 < hashMod := Nat.mod_lt _ (by decide)
  cases p with
  | start =>
    obtain ⟨n, hn⟩ := exists_lookup (mem_members.mp ha)
    obtain ⟨s, hhead, hs⟩ := hring.successor a n hn
    obtain ⟨rest, hsucc⟩ := List.head?_eq_some_iff.mp hhead
    have hstop : hop net (fingerTarget (hash a) 1) a = a := by
      refine hring.hop_eq_self hn hs hid ?_
      rw [between_true_iff (hash_lt a) hid (hash_lt s), htarget, Circle.arc_succ (hash_lt a) hM]
      exact Circle.arc_pos (hash_lt a) (hash_lt s)
    rw [Progress.next, hn]
    dsimp only
    rw [hsucc, ← hop_eq hn, if_pos hstop]
    refine ⟨s, rfl, ?_⟩
    rw [htarget]
    exact (Circle.follows_iff_owns hring.placed ha hM).mp hs
  | fetch c steps => exact absurd hp id
  | route c s steps => exact absurd hp id
  | returned result => exact hp

/-- A node whose first finger is right ends a lookup only right before the identifier. -/
theorem owns_of_hop_eq_self (hright : Right net a 1) (hid : id < hashMod)
    (hs : Circle.Follows hash S hashMod a s) (hstop : hop net id a = a) :
    Circle.Owns hash S hashMod id s := by
  subst hS
  obtain ⟨n, hn, f, hf, howner⟩ := hright
  have ha := mem_members.mpr (mem_of_lookup hn)
  have hid₁ := hring.id_eq a n hn
  rw [hid₁] at howner
  have hfollows : Next net a f :=
    (Circle.follows_iff_owns hring.placed ha (by decide)).mpr howner
  rw [hs.unique hring.placed ha hfollows]
  refine (Circle.owns_iff hring.placed ha hfollows hid).mpr (not_lt.mp fun hlt => ?_)
  rw [hop_eq hn] at hstop
  have hfne : f ≠ "" := by
    rintro rfl
    exact hring.ne_empty (mem_members.mp howner.1)
  rcases findClosetPredecessor_cases n a id with ⟨f', -, heq, -, hbetween⟩ | ⟨-, hall⟩
  · rw [hid₁, ← heq, hstop, between_false_iff (hash_lt a) (hash_lt a) hid, Circle.arc_self]
      at hbetween
    exact absurd (Circle.arc_le (hash_lt a) hid) (not_le.mpr hbetween)
  · have hbetween := hall f (mem_fingers.mpr ⟨1, le_rfl, hf⟩) hfne
    rw [hid₁, ← Bool.not_eq_true, between_false_iff (hash_lt a) (hash_lt f) hid] at hbetween
    exact hbetween hlt

/-- **A lookup keeps on its way**, if all first fingers are right and the ring is not too
large: a step of it comes closer to the end, and does not go wrong. -/
theorem good_next (hcard : S.card ≤ maxLookupSteps + 2) (hright : ∀ b ∈ S, Right net b 1)
    (ha : a ∈ S) (hid : id < hashMod) {p : Progress} (hp : p.Good S a id) :
    (p.next net a id).Good S a id ∧ (p.next net a id).left S a id ≤ p.left S a id - 1 := by
  have howns := @owns_of_hop_eq_self
  subst hS
  have hahead : ∀ c n, net.lookup c = some n → hop net id c ≠ c →
      hop net id c ∈ Circle.ahead hash (members net) hashMod c id := fun c n hn hgo =>
    (hring.hop_cases hn hid).resolve_left hgo
  cases p with
  | start =>
    obtain ⟨n, hn⟩ := exists_lookup (mem_members.mp ha)
    obtain ⟨s, hhead, hs⟩ := hring.successor a n hn
    obtain ⟨rest, hsucc⟩ := List.head?_eq_some_iff.mp hhead
    rw [Progress.next, hn]
    dsimp only
    rw [hsucc, ← hop_eq hn]
    by_cases hstop : hop net id a = a
    · rw [if_pos hstop]
      exact ⟨⟨s, rfl, howns hring rfl (hright a ha) hid hs hstop⟩, Nat.zero_le _⟩
    · rw [if_neg hstop]
      have hlt := Circle.card_ahead_lt hring.placed ha hid (hahead a n hn hstop)
      refine ⟨⟨hahead a n hn hstop, by omega⟩, ?_⟩
      unfold Progress.left
      dsimp only
      omega
  | fetch c steps =>
    obtain ⟨hc, hle⟩ := hp
    obtain ⟨n, hn⟩ := exists_lookup (mem_members.mp (Circle.mem_ahead.mp hc).1)
    obtain ⟨s, rest, hlist, -, hs⟩ := hring.callGetSuccessorList_eq hn
    have hlt := Circle.card_ahead_lt_card hring.placed ha hid
    rw [Progress.next, hlist]
    dsimp only
    rw [if_neg (by omega)]
    by_cases hbetween : between (hash c) id (hash s) true = true
    · rw [if_pos hbetween]
      exact ⟨⟨s, rfl, (hring.owner_iff (mem_of_lookup hn) hs hid).mpr hbetween⟩,
        Nat.zero_le _⟩
    · rw [if_neg hbetween]
      refine ⟨⟨hc, hs, Bool.eq_false_iff.mpr hbetween, by omega⟩, ?_⟩
      unfold Progress.left
      dsimp only
      omega
  | route c s steps =>
    obtain ⟨hc, hs, hbetween, hle⟩ := hp
    have hcS := (Circle.mem_ahead.mp hc).1
    obtain ⟨n, hn⟩ := exists_lookup (mem_members.mp hcS)
    rw [Progress.next, callFindClosetPredecessor_eq hn]
    dsimp only
    have hgo : hop net id c ≠ c := by
      intro hstop
      have howner := howns hring rfl (hright c hcS) hid hs hstop
      rw [(hring.owner_iff (mem_of_lookup hn) hs hid).mp howner] at hbetween
      cases hbetween
    rw [if_neg hgo]
    have hnext := hahead c n hn hgo
    have hlt := Circle.card_ahead_lt hring.placed hcS hid hnext
    refine ⟨⟨?_, by omega⟩, ?_⟩
    · -- what is ahead of the candidate is ahead of the node
      obtain ⟨hnS, hnlt⟩ := Circle.mem_ahead.mp hnext
      exact Circle.mem_ahead.mpr ⟨hnS, (Circle.arc_lt_of_arc_lt (hash_lt a) (hash_lt c) hid
        (hash_lt _) (Circle.mem_ahead.mp hc).2 hnlt).2⟩
    · unfold Progress.left
      dsimp only
      omega
  | returned result => exact ⟨hp, Nat.zero_le _⟩

end Steps

end ExchangeLabs.Chord
