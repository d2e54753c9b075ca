import ExchangeLabs.Chord.Storage
import ExchangeLabs.Lib.Run

/-!
# Overlapping writes

Every `Put` at the primary starts a goroutine that puts the value to the successors, one
call after the other.  The goroutines of several `Put`s run side by side, and nothing
orders their calls.

The successor list of the primary does not change, and every call gets through.  A call
is sent and delivered in two steps.

## Main definitions

* `System`, `step` — the goroutines for one key of one primary.
* `InOrder` — a step that brings no old value to a node that has the latest one.
* `Agree` — when the goroutines have finished, the replicas have the primary's value.

## Main results

* `inv_step` — **what a replica has** once the latest goroutine is past it.
* `replicas_agree` — **in runs of such steps the replicas agree.**
* `not_agree` — two writes, the calls of which are delivered the wrong way round.
-/

namespace ExchangeLabs.Chord.Replicas

variable {net₀ : Network} {address b addr : Address} {key value : String} {n : Node}

/-- Where a goroutine of `replicateToSuccessors` stands. -/
inductive Phase
  /-- At the head of its loop. -/
  | loop (i : ℕ)
  /-- Its call is on the way. -/
  | calling (i : ℕ) (addr : Address)
  | finished
  deriving DecidableEq

structure Goroutine where
  value : String
  phase : Phase
  deriving DecidableEq

/-- The network, and the goroutines in the order of their `Put`s. -/
structure System where
  net : Network
  goroutines : List Goroutine
  /-- The nodes that have received a replica `Put`. -/
  received : List Address
  /-- The primary has panicked. -/
  panicked : Bool

inductive Event
  | put (value : String)
  /-- A goroutine goes on to its next call. -/
  | advance (j : ℕ)
  /-- Its call is delivered, and returns. -/
  | deliver (j : ℕ)
  deriving DecidableEq

def start (net : Network) : System := ⟨net, [], [], false⟩

/-- One step of the primary at `address`, or of a call of its. -/
def step (address : Address) (key : String) (s : System) : Event → Option System
  | .put value =>
    if s.panicked then none
    else (putKeyValue s.net key value address).map fun net =>
      { s with net := net, goroutines := s.goroutines ++ [⟨value, .loop 0⟩] }
  | .advance j =>
    match s.panicked, s.goroutines[j]?, s.net.lookup address with
    | false, some ⟨value, .loop i⟩, some n =>
      if i < n.numberOfSuccessors then
        match n.successors[i]? with
        | none => some { s with panicked := true }
        | some addr =>
          let phase := if addr = address then .loop (i + 1) else .calling i addr
          some { s with goroutines := s.goroutines.set j ⟨value, phase⟩ }
      else some { s with goroutines := s.goroutines.set j ⟨value, .finished⟩ }
    | _, _, _ => none
  | .deliver j =>
    match s.goroutines[j]? with
    | some ⟨value, .calling i addr⟩ =>
      if addr ∈ s.net then
        some { s with
          net := callPutReplica s.net addr key value
          goroutines := s.goroutines.set j ⟨value, .loop (i + 1)⟩
          received := addr :: s.received }
      else none
    | _ => none

/-- The addresses that a goroutine has not yet put its value to. -/
def Goroutine.ahead (n : Node) (g : Goroutine) : List Address :=
  match g.phase with
  | .loop i => (n.successors.take n.numberOfSuccessors).drop i
  | .calling i _ => (n.successors.take n.numberOfSuccessors).drop i
  | .finished => []

/-- Where its call is on the way to. -/
def Goroutine.target (g : Goroutine) : Option Address :=
  match g.phase with
  | .calling _ addr => some addr
  | _ => none

/-- **No old value arrives late**: a call that is delivered brings the latest value, or the
goroutine of the latest `Put` has yet to come to the node. -/
def InOrder (address : Address) (s : System) : Event → Prop
  | .deliver j => ∀ g ∈ s.goroutines[j]?, ∀ addr ∈ g.target, ∀ last ∈ s.goroutines.getLast?,
      ∀ n ∈ s.net.lookup address, g.value = last.value ∨ addr ∈ last.ahead n
  | _ => True

instance (s : System) (e : Event) : Decidable (InOrder address s e) :=
  match e with
  | .put _ => inferInstanceAs (Decidable True)
  | .advance _ => inferInstanceAs (Decidable True)
  | .deliver j => inferInstanceAs (Decidable (∀ g ∈ s.goroutines[j]?, ∀ addr ∈ g.target,
      ∀ last ∈ s.goroutines.getLast?, ∀ n ∈ s.net.lookup address,
        g.value = last.value ∨ addr ∈ last.ahead n))

/-- **The replicas agree with the primary** when all goroutines have finished. -/
def Agree (address : Address) (key : String) (s : System) : Prop :=
  (∀ g ∈ s.goroutines, g.phase = .finished) →
    ∀ b ∈ s.received, stored s.net key b = stored s.net key address

/-! ### Steps -/

/-- All that a step can do. -/
inductive Stepped (address : Address) (key : String) (n : Node) (s : System) :
    Event → System → Prop
  | put (value : String) : Stepped address key n s (.put value)
      { s with
        net := Table.modify address (·.put key value) s.net
        goroutines := s.goroutines ++ [⟨value, .loop 0⟩] }
  | panic (j : ℕ) : Stepped address key n s (.advance j) { s with panicked := true }
  | skip (j : ℕ) (value : String) (i : ℕ) (hj : s.goroutines[j]? = some ⟨value, .loop i⟩)
      (haddr : n.successors[i]? = some address) :
      Stepped address key n s (.advance j)
        { s with goroutines := s.goroutines.set j ⟨value, .loop (i + 1)⟩ }
  | call (j : ℕ) (value : String) (i : ℕ) (addr : Address)
      (hj : s.goroutines[j]? = some ⟨value, .loop i⟩) (hi : i < n.numberOfSuccessors)
      (haddr : n.successors[i]? = some addr) (hne : addr ≠ address) :
      Stepped address key n s (.advance j)
        { s with goroutines := s.goroutines.set j ⟨value, .calling i addr⟩ }
  | finish (j : ℕ) (value : String) (i : ℕ) (hj : s.goroutines[j]? = some ⟨value, .loop i⟩)
      (hi : n.numberOfSuccessors ≤ i) :
      Stepped address key n s (.advance j)
        { s with goroutines := s.goroutines.set j ⟨value, .finished⟩ }
  | deliver (j : ℕ) (value : String) (i : ℕ) (addr : Address)
      (hj : s.goroutines[j]? = some ⟨value, .calling i addr⟩) (hmem : addr ∈ s.net) :
      Stepped address key n s (.deliver j)
        { s with
          net := callPutReplica s.net addr key value
          goroutines := s.goroutines.set j ⟨value, .loop (i + 1)⟩
          received := addr :: s.received }

theorem step_cases {s t : System} {e : Event} (hn : s.net.lookup address = some n)
    (h : step address key s e = some t) : Stepped address key n s e t := by
  cases e with
  | put value =>
    unfold step putKeyValue at h
    dsimp only at h
    rw [if_pos (mem_of_lookup hn)] at h
    split at h
    · cases h
    · cases h
      exact .put value
  | advance j =>
    unfold step at h
    dsimp only at h
    split at h
    · next value i n' _ hj hn' =>
      rw [hn, Option.some_inj] at hn'
      subst hn'
      split at h
      · next hi =>
        split at h
        · cases h
          exact .panic j
        · next addr haddr =>
          cases h
          -- an entry that is the node itself is skipped
          by_cases hself : addr = address
          · rw [if_pos hself]
            exact .skip j value i hj (hself ▸ haddr)
          · rw [if_neg hself]
            exact .call j value i addr hj hi haddr hself
      · next hi =>
        cases h
        exact .finish j value i hj (Nat.le_of_not_lt hi)
    · cases h
  | deliver j =>
    unfold step at h
    dsimp only at h
    split at h
    · next value i addr hj =>
      split at h
      · next hmem =>
        cases h
        exact .deliver j value i addr hj hmem
      · cases h
    · cases h

/-! ### The invariant -/

/-- A node that the latest goroutine is past has its value. -/
structure Inv (net₀ : Network) (address : Address) (key : String) (k : Node) (s : System) :
    Prop where
  same : SamePointers net₀ s.net
  calls : ∀ g ∈ s.goroutines, ∀ i addr, g.phase = .calling i addr →
    addr ≠ address ∧ (k.successors.take k.numberOfSuccessors)[i]? = some addr
  received : ∀ b ∈ s.received, b ≠ address ∧ b ∈ k.successors.take k.numberOfSuccessors ∧
    s.goroutines ≠ []
  primary : ∀ last ∈ s.goroutines.getLast?, stored s.net key address = some last.value
  replicas : ∀ last ∈ s.goroutines.getLast?, ∀ b ∈ s.received, b ∉ last.ahead k →
    stored s.net key b = some last.value

variable {k : Node} {s t : System} {e : Event} {g g' last : Goroutine} {j i : ℕ}

theorem inv_start (net : Network) (address : Address) (key : String) (k : Node) :
    Inv net address key k (start net) where
  same := .refl net
  calls := fun _ h => by cases h
  received := fun _ h => by cases h
  primary := fun _ h => by cases h
  replicas := fun _ h => by cases h

theorem ahead_congr (h : n.pointers = k.pointers) (g : Goroutine) : g.ahead n = g.ahead k := by
  have hsucc : n.successors = k.successors := congrArg (·.successors) h
  have hnumber : n.numberOfSuccessors = k.numberOfSuccessors := congrArg (·.numberOfSuccessors) h
  unfold Goroutine.ahead
  rw [hsucc, hnumber]

theorem drop_of_getElem? {l : List Address} (h : l[i]? = some addr) :
    l.drop i = addr :: l.drop (i + 1) := by
  obtain ⟨hi, rfl⟩ := List.getElem?_eq_some_iff.mp h
  exact List.drop_eq_getElem_cons hi

/-- The last goroutine after one has gone on. -/
theorem getLast?_set_cases {l : List Goroutine} (hj : l[j]? = some g)
    (h : last ∈ (l.set j g').getLast?) : (last = g' ∧ g ∈ l.getLast?) ∨ last ∈ l.getLast? := by
  rw [Option.mem_def, List.getLast?_eq_getElem?, List.length_set, List.getElem?_set] at h
  rw [Option.mem_def, Option.mem_def, List.getLast?_eq_getElem?]
  split at h
  · next heq =>
    subst heq
    split at h
    · exact .inl ⟨(Option.some.inj h).symm, hj⟩
    · cases h
  · exact .inr h

theorem mem_set_cases {l : List Goroutine} (h : last ∈ l.set j g') : last = g' ∨ last ∈ l :=
  (List.mem_or_eq_of_mem_set h).symm

/-- A goroutine goes on without a delivery. -/
theorem Inv.move (h : Inv net₀ address key k s) (hj : s.goroutines[j]? = some g)
    (hvalue : g'.value = g.value)
    (hcalls : ∀ i addr, g'.phase = .calling i addr →
      addr ≠ address ∧ (k.successors.take k.numberOfSuccessors)[i]? = some addr)
    (hahead : ∀ b, b ≠ address → b ∈ g.ahead k → b ∈ g'.ahead k) :
    Inv net₀ address key k { s with goroutines := s.goroutines.set j g' } where
  same := h.same
  calls := by
    intro g₁ hg₁
    rcases mem_set_cases hg₁ with rfl | hmem
    · exact hcalls
    · exact h.calls g₁ hmem
  received b hb := by
    obtain ⟨hne, hmem, hsome⟩ := h.received b hb
    exact ⟨hne, hmem, fun hempty => hsome ((List.set_eq_nil_iff j g').mp hempty)⟩
  primary last hlast := by
    rcases getLast?_set_cases hj hlast with ⟨rfl, hg⟩ | hold
    · rw [hvalue]
      exact h.primary g hg
    · exact h.primary last hold
  replicas last hlast b hb hnot := by
    rcases getLast?_set_cases hj hlast with ⟨rfl, hg⟩ | hold
    · rw [hvalue]
      exact h.replicas g hg b hb fun hmem => hnot (hahead b (h.received b hb).1 hmem)
    · exact h.replicas last hold b hb hnot

/-- A `Put` has yet to come to every replica. -/
theorem Inv.put (h : Inv net₀ address key k s) (hmem : address ∈ s.net) (value : String) :
    Inv net₀ address key k { s with
      net := Table.modify address (·.put key value) s.net
      goroutines := s.goroutines ++ [⟨value, .loop 0⟩] } := by
  have hlast : ∀ last ∈ (s.goroutines ++ [Goroutine.mk value (.loop 0)]).getLast?,
      last = ⟨value, .loop 0⟩ := by
    intro last hlast
    rw [List.getLast?_concat, Option.mem_some_iff] at hlast
    exact hlast.symm
  refine ⟨h.same.trans (samePointers_modify _ address fun n => n.pointers_put key value),
    fun g hg => ?_, fun b hb => ?_, fun last hl => ?_, fun last hl b hb hnot => ?_⟩
  · rcases List.mem_append.mp hg with hg | hg
    · exact h.calls g hg
    · rw [List.mem_singleton.mp hg]
      exact fun i addr hphase => by cases hphase
  · obtain ⟨hne, hmem, -⟩ := h.received b hb
    exact ⟨hne, hmem, by simp⟩
  · rw [hlast last hl, stored_put]
    exact if_pos ⟨hmem, rfl⟩
  · rw [hlast last hl] at hnot
    exact absurd (h.received b hb).2.1 hnot

/-- A replica receives a value: the latest one, or the latest goroutine will come to it. -/
theorem Inv.deliver (h : Inv net₀ address key k s) {value : String}
    (hj : s.goroutines[j]? = some ⟨value, .calling i addr⟩) (hmem : addr ∈ s.net)
    (hok : ∀ last ∈ s.goroutines.getLast?, value = last.value ∨ addr ∈ last.ahead k) :
    Inv net₀ address key k { s with
      net := callPutReplica s.net addr key value
      goroutines := s.goroutines.set j ⟨value, .loop (i + 1)⟩
      received := addr :: s.received } := by
  have hg : ⟨value, .calling i addr⟩ ∈ s.goroutines := List.mem_of_getElem? hj
  obtain ⟨hne, haddr⟩ := h.calls _ hg i addr rfl
  -- the node itself is no replica of its own
  have hother : stored (callPutReplica s.net addr key value) key address =
      stored s.net key address := by
    unfold callPutReplica
    rw [stored_put, if_neg fun h => hne h.2.symm]
  refine ⟨h.same.trans (samePointers_modify _ addr fun n => n.pointers_put key value),
    fun g hg => ?_, fun b hb => ?_, fun last hl => ?_, fun last hl b hb hnot => ?_⟩
  · rcases mem_set_cases hg with rfl | hg
    · exact fun i addr hphase => by cases hphase
    · exact h.calls g hg
  · have hsome : s.goroutines.set j ⟨value, .loop (i + 1)⟩ ≠ [] := fun hempty =>
      List.ne_nil_of_mem hg ((List.set_eq_nil_iff j _).mp hempty)
    rcases List.mem_cons.mp hb with rfl | hb
    · exact ⟨hne, List.mem_of_getElem? haddr, hsome⟩
    · obtain ⟨hne', hmem', -⟩ := h.received b hb
      exact ⟨hne', hmem', hsome⟩
  · rw [hother]
    rcases getLast?_set_cases hj hl with ⟨rfl, hold⟩ | hold
    · exact h.primary ⟨value, .calling i addr⟩ hold
    · exact h.primary last hold
  · unfold callPutReplica
    rw [stored_put]
    by_cases hb' : b = addr
    · -- the node that receives the call
      rw [if_pos ⟨hb' ▸ hmem, hb'⟩]
      rcases getLast?_set_cases hj hl with ⟨rfl, -⟩ | hold
      · rfl
      · rcases hok last hold with hvalue | hahead
        · exact congrArg some hvalue
        · exact absurd (hb' ▸ hahead) hnot
    · rw [if_neg fun h => hb' h.2]
      have hb := List.mem_of_ne_of_mem hb' hb
      rcases getLast?_set_cases hj hl with ⟨rfl, hold⟩ | hold
      · -- the latest goroutine is the one that has called, and is past this entry
        refine h.replicas ⟨value, .calling i addr⟩ hold b hb fun hmem' => hnot ?_
        unfold Goroutine.ahead at hmem' ⊢
        dsimp only at hmem' ⊢
        rw [drop_of_getElem? haddr] at hmem'
        exact List.mem_of_ne_of_mem hb' hmem'
      · exact h.replicas last hold b hb hnot

/-- **A step in order** keeps the invariant. -/
theorem inv_step (hk : net₀.lookup address = some k) (h : Inv net₀ address key k s)
    (hok : InOrder address s e) (hstep : step address key s e = some t) :
    Inv net₀ address key k t := by
  obtain ⟨n, hn, hpointers⟩ := h.same.lookup hk
  have hsucc : n.successors = k.successors := congrArg (·.successors) hpointers
  have hnumber : n.numberOfSuccessors = k.numberOfSuccessors :=
    congrArg (·.numberOfSuccessors) hpointers
  cases step_cases hn hstep with
  | put value => exact h.put (mem_of_lookup hn) value
  | panic j => exact ⟨h.same, h.calls, h.received, h.primary, h.replicas⟩
  | skip j value i hj haddr =>
    refine h.move hj rfl (fun i addr hphase => by cases hphase) fun b hb hmem => ?_
    unfold Goroutine.ahead at hmem ⊢
    dsimp only at hmem ⊢
    -- the entry that is skipped is the node itself, which is not ahead
    cases htake : (k.successors.take k.numberOfSuccessors)[i]? with
    | none =>
      rw [List.drop_of_length_le (List.getElem?_eq_none_iff.mp htake)] at hmem
      cases hmem
    | some addr =>
      rw [drop_of_getElem? htake] at hmem
      refine List.mem_of_ne_of_mem ?_ hmem
      have hi := (List.getElem?_eq_some_iff.mp htake).1
      rw [List.length_take] at hi
      rw [List.getElem?_take_of_lt (by omega), ← hsucc, haddr] at htake
      cases htake
      exact hb
  | call j value i addr hj hi haddr hne =>
    refine h.move hj rfl (fun i addr hphase => ?_) fun b hb hmem => hmem
    cases hphase
    exact ⟨hne, by rw [List.getElem?_take_of_lt (hnumber ▸ hi), ← hsucc, haddr]⟩
  | finish j value i hj hi =>
    refine h.move hj rfl (fun i addr hphase => by cases hphase) fun b hb hmem => ?_
    unfold Goroutine.ahead at hmem
    dsimp only at hmem
    rw [List.drop_of_length_le] at hmem
    · cases hmem
    · rw [List.length_take]
      omega
  | deliver j value i addr hj hmem =>
    refine h.deliver hj hmem fun last hlast => ?_
    rw [← ahead_congr hpointers]
    exact hok _ hj addr rfl last hlast n hn

theorem Inv.agree (h : Inv net₀ address key k s) : Agree address key s := by
  intro hfinished b hb
  obtain ⟨-, -, hsome⟩ := h.received b hb
  have hlast : s.goroutines.getLast hsome ∈ s.goroutines.getLast? :=
    List.getLast?_eq_some_getLast hsome
  rw [h.primary _ hlast]
  refine h.replicas _ hlast b hb fun hmem => ?_
  unfold Goroutine.ahead at hmem
  rw [hfinished _ (List.getLast_mem hsome)] at hmem
  cases hmem

/-- **The replicas agree with the primary**, if no old value arrives late: in every state
of such a run in which all goroutines have finished, every node that has received a call
has the primary's value. -/
theorem replicas_agree (hk : net₀.lookup address = some k)
    (h : ReachWhile (step address key) (InOrder address) (start net₀) s) : Agree address key s :=
  (h.invariant (P := Inv net₀ address key k) (inv_start net₀ address key k)
    fun _ _ _ hinv hok hstep => inv_step hk hinv hok hstep).agree

/-! ### Two writes -/

/-- The first node replicates to the others. -/
def primaryNet : Network :=
  Table.ofList [("10.0.0.1:3410",
      { newNode 2 "10.0.0.1:3410" with successors := ["10.0.0.2:3410", "10.0.0.3:3410"] }),
    ("10.0.0.2:3410", newNode 2 "10.0.0.2:3410"), ("10.0.0.3:3410", newNode 2 "10.0.0.3:3410")]

/-- Both goroutines are on their way, and the first one is ahead. -/
def orderedRun : List Event :=
  [.put "old", .put "new", .advance 0, .advance 1, .deliver 0, .deliver 1, .advance 0, .advance 1,
    .deliver 0, .deliver 1, .advance 0, .advance 1]

/-- The second goroutine overtakes the first one at the first replica. -/
def lateRun : List Event :=
  [.put "old", .put "new", .advance 0, .advance 1, .deliver 1, .deliver 0, .advance 0, .advance 1,
    .deliver 0, .deliver 1, .advance 0, .advance 1]

theorem replicas_agree_orderedRun : ∃ k s, primaryNet.lookup "10.0.0.1:3410" = some k ∧
    run (restrict (step "10.0.0.1:3410" "key") (InOrder "10.0.0.1:3410")) (start primaryNet)
      orderedRun = some s ∧ (∀ g ∈ s.goroutines, g.phase = .finished) ∧ s.received.length = 4 ∧
    Agree "10.0.0.1:3410" "key" s := by
  obtain ⟨k, hk⟩ : ∃ k, primaryNet.lookup "10.0.0.1:3410" = some k := exists_lookup (by decide)
  have hrun : (run (restrict (step "10.0.0.1:3410" "key") (InOrder "10.0.0.1:3410"))
      (start primaryNet) orderedRun).map (fun s =>
        decide ((∀ g ∈ s.goroutines, g.phase = .finished) ∧ s.received.length = 4)) =
      some true := by
    decide +kernel
  obtain ⟨s, hs, hobserved⟩ := Option.map_eq_some_iff.mp hrun
  obtain ⟨hfinished, hreceived⟩ := of_decide_eq_true hobserved
  exact ⟨k, s, hk, hs, hfinished, hreceived, replicas_agree hk (reachWhile_of_run _ _ _ hs)⟩

/-- **The calls of two writes** are delivered the wrong way round, and the first replica
keeps the old value. -/
theorem not_agree : ∃ s, Reach (step "10.0.0.1:3410" "key") (start primaryNet) s ∧
    (∀ g ∈ s.goroutines, g.phase = .finished) ∧ "10.0.0.2:3410" ∈ s.received ∧
    stored s.net "key" "10.0.0.2:3410" = some "old" ∧
    stored s.net "key" "10.0.0.1:3410" = some "new" ∧ ¬ Agree "10.0.0.1:3410" "key" s := by
  have hrun : (run (step "10.0.0.1:3410" "key") (start primaryNet) lateRun).map (fun s =>
      decide ((∀ g ∈ s.goroutines, g.phase = .finished) ∧ "10.0.0.2:3410" ∈ s.received ∧
        stored s.net "key" "10.0.0.2:3410" = some "old" ∧
        stored s.net "key" "10.0.0.1:3410" = some "new")) = some true := by
    decide +kernel
  obtain ⟨s, hs, hobserved⟩ := Option.map_eq_some_iff.mp hrun
  obtain ⟨hfinished, hreceived, hold, hnew⟩ := of_decide_eq_true hobserved
  refine ⟨s, reach_of_run _ _ _ hs, hfinished, hreceived, hold, hnew, fun hagree => ?_⟩
  have heq := hagree hfinished _ hreceived
  rw [hold, hnew] at heq
  exact absurd heq (by decide)

end ExchangeLabs.Chord.Replicas
