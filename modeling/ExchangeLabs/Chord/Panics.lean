import ExchangeLabs.Chord.Replicas

/-!
# Replication and the length of the list

A `Put` starts a goroutine that goes through the successor list of its node by index, as
many entries as the node should have.  It does not look at how many there are, and it
reads the list of the moment, not the copy that it has made.  An index out of range
ends the whole process.

Meanwhile `stabilize` changes the list of the node in several stages, between which
anything can happen: it skips the nodes at the front that do not answer, or sets the
list back to the node itself, and then rebuilds it from that of the successor.

## Main definitions

* `Stage` — where `stabilize` stands, with `Stage.next` and `Stage.apply`.
* `System`, `Event`, `step` — the nodes, the stages and the goroutines.
* `InRange` — every access that is about to be made is in range.
* `StaysFull` — a `Put` finds the list full, and `stabilize` leaves it full while a
  goroutine of the node has accesses to make.

## Main results

* `reach_stabilize` — the stages in a row are `stabilize`.
* `inRange_of_staysFull` — **in runs of such steps no access is out of range, and after
  any other step one can be.**
* `not_inRange` — the first `Put` in a new ring.
-/

namespace ExchangeLabs.Chord.Panics

open Replicas (Phase)

variable {net net' : Network} {a b : Address} {n : Node}

/-! ### The stages of `stabilize` -/

/-- Where `stabilize` of a node stands. -/
inductive Stage
  | idle
  /-- It has copied the list, and calls the entry `i`. -/
  | scanning (succList : List Address) (i : ℕ)
  /-- The entry `succIndex` has answered. -/
  | found (succAddr : Address) (succIndex : ℕ)
  /-- It asks the successor for its predecessor. -/
  | asking (succAddr : Address)
  | notifying (succAddr : Address)
  /-- It asks the successor for its list. -/
  | fetching (succAddr : Address)
  | fetched (newList : List Address)
  deriving DecidableEq

namespace Stage

/-- Where `stabilize` of the node `n` stands after the stage. -/
def next (net : Network) (n : Node) : Stage → Stage
  | .idle => if n.successors = [] then .idle else .scanning n.successors 0
  | .scanning succList i =>
    match succList[i]? with
    | none => .idle
    | some s =>
      if (callGetPredecessor net s).isSome then .found s i else .scanning succList (i + 1)
  | .found succAddr _ => .asking succAddr
  | .asking succAddr =>
    .notifying <|
      match callGetPredecessor net succAddr with
      | none => succAddr
      | some x => if x ≠ "" ∧ between n.id (hash x) (hash succAddr) false then x else succAddr
  | .notifying succAddr => .fetching succAddr
  | .fetching succAddr =>
    match callGetSuccessorList net succAddr with
    | none => .idle
    | some remoteList => .fetched ((succAddr :: remoteList).take n.numberOfSuccessors)
  | .fetched _ => .idle

/-- The network after the stage of the node at `address`. -/
def apply (net : Network) (address : Address) : Stage → Network
  | .scanning succList i =>
    if i < succList.length then net
    else Table.modify address (fun n => { n with successors := [address] }) net
  | .found _ succIndex =>
    if succIndex > 0 then
      Table.modify address (fun n =>
        if succIndex < n.successors.length then
          { n with successors := n.successors.drop succIndex }
        else n) net
    else net
  | .notifying succAddr => callNotify net succAddr address
  | .fetched newList => Table.modify address (fun n => { n with successors := newList }) net
  | .idle | .asking _ | .fetching _ => net

/-- The stage leaves the list of the node full: it does not set it back, skips nothing that
is missed, and the list that it has fetched is long enough. -/
def Keeps (n : Node) : Stage → Prop
  | .scanning succList i => succList.length ≤ i → n.numberOfSuccessors ≤ 1
  | .found _ succIndex => 0 < succIndex → succIndex < n.successors.length →
      n.numberOfSuccessors + succIndex ≤ n.successors.length
  | .fetched newList => n.numberOfSuccessors ≤ newList.length
  | .idle | .asking _ | .notifying _ | .fetching _ => True

instance (n : Node) : (stage : Stage) → Decidable (stage.Keeps n)
  | .scanning .. => inferInstanceAs (Decidable (_ → _))
  | .found .. => inferInstanceAs (Decidable (_ → _ → _))
  | .fetched _ => inferInstanceAs (Decidable (_ ≤ _))
  | .idle | .asking _ | .notifying _ | .fetching _ => inferInstanceAs (Decidable True)

end Stage

/-! ### The system -/

/-- A goroutine of `replicateToSuccessors`. -/
structure Goroutine where
  address : Address
  key : String
  value : String
  phase : Phase
  deriving DecidableEq

structure System where
  net : Network
  stages : Address → Stage
  goroutines : List Goroutine
  /-- The nodes that have panicked. -/
  panicked : List Address

inductive Event
  | startServer (localaddress address nprime : String) (r : ℕ) (id : Option ℕ)
  /-- The next stage of `stabilize` of a node. -/
  | stabilize (address : Address)
  | notify (address cand : Address)
  | crash (address : Address)
  | put (address : Address) (key value : String)
  /-- A goroutine goes on to its next call. -/
  | advance (j : ℕ)
  /-- Its call returns. -/
  | deliver (j : ℕ)

def start : System := ⟨∅, fun _ => .idle, [], []⟩

/-- The process of a node ends. -/
def System.kill (s : System) (address : Address) : System :=
  { s with
    net := s.net.erase address
    stages := Function.update s.stages address .idle
    goroutines := s.goroutines.filter (·.address ≠ address) }

/-- Goroutine `j` goes on. -/
def System.goOn (s : System) (j : ℕ) (g : Goroutine) (phase : Phase) : System :=
  { s with goroutines := s.goroutines.set j { g with phase := phase } }

def step (s : System) : Event → Option System
  | .startServer localaddress address nprime r id =>
    if 1 ≤ r ∧ r ≤ 32 then
      (startServer localaddress s.net address nprime r id).map fun net => { s with net := net }
    else none
  | .stabilize address =>
    (s.net.lookup address).map fun n =>
      { s with
        net := (s.stages address).apply s.net address
        stages := Function.update s.stages address ((s.stages address).next s.net n) }
  | .notify address cand =>
    if address ∈ s.net then some { s with net := callNotify s.net address cand } else none
  | .crash address => if address ∈ s.net then some (s.kill address) else none
  | .put address key value =>
    (putKeyValue s.net key value address).map fun net =>
      { s with net := net, goroutines := s.goroutines ++ [⟨address, key, value, .loop 0⟩] }
  | .advance j =>
    match s.goroutines[j]? with
    | some g =>
      match g.phase, s.net.lookup g.address with
      | .loop i, some n =>
        if i < n.numberOfSuccessors then
          match n.successors[i]? with
          | none => some { s.kill g.address with panicked := g.address :: s.panicked }
          | some addr =>
            some (s.goOn j g (if addr = g.address then .loop (i + 1) else .calling i addr))
        else some (s.goOn j g .finished)
      | _, _ => none
    | none => none
  | .deliver j =>
    match s.goroutines[j]? with
    | some g =>
      match g.phase with
      | .calling i addr =>
        some ({ s with net := callPutReplica s.net addr g.key g.value }.goOn j g (.loop (i + 1)))
      | _ => none
    | none => none

/-- **No access is out of range**: where a goroutine is about to read an entry of the list of
its node, the list has the entry. -/
def InRange (s : System) : Prop :=
  ∀ g ∈ s.goroutines, ∀ i, g.phase = .loop i → ∀ n, s.net.lookup g.address = some n →
    i < n.numberOfSuccessors → i < n.successors.length

/-- The goroutine of the node has accesses to make. -/
def Goroutine.Pending (g : Goroutine) (n : Node) : Prop :=
  match g.phase with
  | .loop i => i < n.numberOfSuccessors
  | .calling i _ => i + 1 < n.numberOfSuccessors
  | .finished => False

/-- **The list of the node is full** when a `Put` arrives, and stays so while a goroutine of
the node has accesses to make. -/
def StaysFull (s : System) : Event → Prop
  | .put address _ _ => ∀ n ∈ s.net.lookup address, n.numberOfSuccessors ≤ n.successors.length
  | .stabilize address => ∀ n ∈ s.net.lookup address,
      (∃ g ∈ s.goroutines, g.address = address ∧ g.Pending n) → (s.stages address).Keeps n
  | .startServer .. | .notify .. | .crash _ | .advance _ | .deliver _ => True

instance (g : Goroutine) (n : Node) : Decidable (g.Pending n) :=
  match g with
  | ⟨_, _, _, .loop _⟩ => inferInstanceAs (Decidable (_ < _))
  | ⟨_, _, _, .calling _ _⟩ => inferInstanceAs (Decidable (_ < _))
  | ⟨_, _, _, .finished⟩ => inferInstanceAs (Decidable False)

instance (s : System) : (e : Event) → Decidable (StaysFull s e)
  | .put address _ _ => inferInstanceAs (Decidable (∀ n ∈ s.net.lookup address, _))
  | .stabilize address => inferInstanceAs (Decidable (∀ n ∈ s.net.lookup address, _))
  | .startServer .. | .notify .. | .crash _ | .advance _ | .deliver _ =>
    inferInstanceAs (Decidable True)

/-! ### The stages in a row -/

section Row

/-- The system when `stabilize` of the node at `a` stands elsewhere. -/
def System.at (s : System) (a : Address) (net : Network) (stage : Stage) : System :=
  { s with net := net, stages := Function.update s.stages a stage }

/-- `t` is reached from `s` by stages of the node at `a` only. -/
abbrev Continues (a : Address) : System → System → Prop :=
  ReachWhile step fun _ e => e = .stabilize a

variable {s : System} {stage : Stage} {succList : List Address}

theorem System.at_idle (h : s.stages a = .idle) (net : Network) :
    s.at a net .idle = { s with net := net } := by
  have hstages : Function.update s.stages a .idle = s.stages := by
    rw [← h]
    exact Function.update_eq_self a s.stages
  rw [System.at, hstages]

theorem continues_stage (s : System) (stage : Stage) (hn : net.lookup a = some n) :
    Continues a (s.at a net stage) (s.at a (stage.apply net a) (stage.next net n)) := by
  refine .tail (.stabilize a) .refl rfl ?_
  simp only [step, System.at, hn, Option.map_some, Function.update_self, Function.update_idem]

/-- It goes past the entries that do not answer. -/
theorem continues_scanning (hn : net.lookup a = some n) (j : ℕ) (hj : j ≤ succList.length)
    (hdead : ∀ i s', i < j → succList[i]? = some s' → callGetPredecessor net s' = none) :
    Continues a (s.at a net (.scanning succList 0)) (s.at a net (.scanning succList j)) := by
  induction j with
  | zero => exact .refl
  | succ j ih =>
    refine (ih (Nat.le_of_succ_le hj) fun i s' hi => hdead i s' (Nat.lt_succ_of_lt hi)).trans ?_
    obtain ⟨succ, hget⟩ : ∃ succ, succList[j]? = some succ := ⟨_, List.getElem?_eq_getElem hj⟩
    have hstage := continues_stage s (.scanning succList j) hn
    simp only [Stage.apply, Stage.next, if_pos (Nat.lt_of_succ_le hj), hget,
      hdead j _ (Nat.lt_succ_self j) hget] at hstage
    exact hstage

/-- What follows when an entry has answered. -/
theorem continues_found {succAddr : Address} {succIndex : ℕ} (hn : net.lookup a = some n) :
    let net₁ := Stage.apply net a (.found succAddr succIndex)
    let succAddr' :=
      match callGetPredecessor net₁ succAddr with
      | none => succAddr
      | some x => if x ≠ "" ∧ between n.id (hash x) (hash succAddr) false then x else succAddr
    let net₂ := callNotify net₁ succAddr' a
    Continues a (s.at a net (.found succAddr succIndex)) <| s.at a
      (match callGetSuccessorList net₂ succAddr' with
        | none => net₂
        | some remoteList =>
          Table.modify a (fun n =>
            { n with successors := (succAddr' :: remoteList).take n.numberOfSuccessors }) net₂)
      .idle := by
  intro net₁ succAddr' net₂
  -- the stage may cut the list of the node itself, which keeps its identifier
  obtain ⟨n₁, hn₁, hid⟩ : ∃ n₁, net₁.lookup a = some n₁ ∧ n₁.id = n.id := by
    show ∃ n₁, (Stage.apply net a (.found succAddr succIndex)).lookup a = some n₁ ∧ n₁.id = n.id
    simp only [Stage.apply]
    split
    · rw [Table.lookup_modify_self, hn]
      refine ⟨_, rfl, ?_⟩
      dsimp only
      split <;> rfl
    · exact ⟨n, hn, rfl⟩
  have hmem : a ∈ net₂ := Table.mem_modify.mpr (mem_of_lookup hn₁)
  obtain ⟨n₂, hn₂⟩ := exists_lookup hmem
  -- one stage after the other; each reads the node as the one before has left it
  have hfound := continues_stage s (.found succAddr succIndex) hn
  have hasking := continues_stage s (.asking succAddr) hn₁
  have hnotifying := continues_stage s (.notifying succAddr') hn₁
  have hfetching := continues_stage s (.fetching succAddr') hn₂
  rw [Stage.next, hid] at hasking
  refine ((hfound.trans hasking).trans hnotifying).trans ?_
  cases hlist : callGetSuccessorList net₂ succAddr' with
  | none =>
    simp only [Stage.next, hlist] at hfetching
    exact hfetching
  | some remoteList =>
    simp only [Stage.next, hlist] at hfetching
    refine hfetching.trans ?_
    have hfetched := continues_stage s
      (.fetched ((succAddr' :: remoteList).take n₂.numberOfSuccessors)) hn₂
    have hcongr : Table.modify a (fun n =>
          { n with successors := (succAddr' :: remoteList).take n.numberOfSuccessors }) net₂ =
        Table.modify a (fun n =>
          { n with successors := (succAddr' :: remoteList).take n₂.numberOfSuccessors }) net₂ := by
      refine Table.modify_congr fun v hv => ?_
      rw [hn₂, Option.some.injEq] at hv
      rw [hv]
    dsimp only
    rw [hcongr]
    exact hfetched

/-- **The stages in a row are `stabilize`.** -/
theorem reach_stabilize (hn : s.net.lookup a = some n) (hidle : s.stages a = .idle) :
    Continues a s { s with net := Chord.stabilize s.net a } := by
  rw [← System.at_idle hidle]
  have hstart : Continues a s (s.at a s.net (Stage.next s.net n .idle)) := by
    have hstage := continues_stage s .idle hn
    rwa [System.at_idle hidle] at hstage
  refine hstart.trans ?_
  simp only [Stage.next, Chord.stabilize, hn]
  by_cases hempty : n.successors = []
  · rw [if_pos hempty, if_pos hempty]
    exact .refl
  rw [if_neg hempty, if_neg hempty]
  -- `stabilize` searches the list at once, the stages go through it entry by entry
  cases hfind : n.successors.findIdx? fun s' => (callGetPredecessor s.net s').isSome with
  | none =>
    rw [List.findIdx?_eq_none_iff] at hfind
    refine (continues_scanning hn n.successors.length le_rfl fun i s' _ hs' => ?_).trans ?_
    · exact Option.isNone_iff_eq_none.mp (by
        rw [← Option.not_isSome, hfind s' (List.mem_of_getElem? hs')]; rfl)
    · have hstage := continues_stage s (.scanning n.successors n.successors.length) hn
      simp only [Stage.apply, Stage.next, if_neg (lt_irrefl _), List.getElem?_length] at hstage
      exact hstage
  | some succIndex =>
    obtain ⟨hlt, halive, hdead⟩ := List.findIdx?_eq_some_iff_getElem.mp hfind
    refine (continues_scanning hn succIndex hlt.le fun i s' hi hs' => ?_).trans ?_
    · obtain ⟨hi', rfl⟩ := List.getElem?_eq_some_iff.mp hs'
      exact Option.not_isSome_iff_eq_none.mp (hdead i hi)
    · have hget : n.successors[succIndex]? = some n.successors[succIndex] :=
        List.getElem?_eq_getElem hlt
      have hstage := continues_stage s (.scanning n.successors succIndex) hn
      simp only [Stage.apply, Stage.next, if_pos hlt, hget, if_pos halive] at hstage
      have hgetD : n.successors.getD succIndex "" = n.successors[succIndex] := by
        rw [List.getD_eq_getElem?_getD, hget]
        rfl
      refine hstage.trans ?_
      rw [← hgetD]
      exact continues_found hn

end Row

/-! ### Lists of successors -/

/-- Every node was there, with the same list. -/
def SameLists (net net' : Network) : Prop :=
  ∀ b n', net'.lookup b = some n' → ∃ n, net.lookup b = some n ∧
    n'.numberOfSuccessors = n.numberOfSuccessors ∧ n'.successors = n.successors

theorem sameLists_modify (net : Network) (a : Address) {f : Node → Node}
    (hf : ∀ n, (f n).numberOfSuccessors = n.numberOfSuccessors ∧ (f n).successors = n.successors) :
    SameLists net (Table.modify a f net) := by
  intro b n' hn'
  obtain ⟨n, hn, rfl⟩ := Table.exists_of_lookup_modify hn'
  refine ⟨n, hn, ?_⟩
  split
  · exact hf n
  · exact ⟨rfl, rfl⟩

theorem sameLists_callNotify (net : Network) (a cand : Address) :
    SameLists net (callNotify net a cand) := by
  refine sameLists_modify net a fun n => ?_
  unfold Node.notify
  split_ifs <;> exact ⟨rfl, rfl⟩

theorem sameLists_callPutReplica (net : Network) (a : Address) (key value : String) :
    SameLists net (callPutReplica net a key value) :=
  sameLists_modify net a fun _ => ⟨rfl, rfl⟩

theorem SameLists.refl (net : Network) : SameLists net net := fun _ n hn => ⟨n, hn, rfl, rfl⟩

namespace Stage

/-- What the node `n'` at `b` was before the stage of the node at `a`: the stage changes the
list of its own node at most, and keeps it full if it should. -/
def Yields (stage : Stage) (net : Network) (a b : Address) (n' : Node) : Prop :=
  ∃ n, net.lookup b = some n ∧ n'.numberOfSuccessors = n.numberOfSuccessors ∧
    (b ≠ a → n'.successors = n.successors) ∧
    (stage.Keeps n → n.numberOfSuccessors ≤ n.successors.length →
      n.numberOfSuccessors ≤ n'.successors.length)

variable {stage : Stage} {n' : Node}

theorem yields_of_sameLists (hlists : SameLists net net') (hn' : net'.lookup b = some n') :
    stage.Yields net a b n' := by
  obtain ⟨n, hn, hnumber, hsucc⟩ := hlists b n' hn'
  refine ⟨n, hn, hnumber, fun _ => hsucc, fun _ hfull => ?_⟩
  rw [hsucc]
  exact hfull

theorem yields_of_modify {f : Node → Node} (hn' : (Table.modify a f net).lookup b = some n')
    (hnumber : ∀ n, (f n).numberOfSuccessors = n.numberOfSuccessors)
    (hfull : ∀ n, stage.Keeps n → n.numberOfSuccessors ≤ n.successors.length →
      n.numberOfSuccessors ≤ (f n).successors.length) : stage.Yields net a b n' := by
  obtain ⟨n, hn, rfl⟩ := Table.exists_of_lookup_modify hn'
  refine ⟨n, hn, ?_⟩
  -- the node at `a` itself, or another one
  split
  · next hb => exact ⟨hnumber n, fun hne => absurd hb hne, hfull n⟩
  · exact ⟨rfl, fun _ => rfl, fun _ => id⟩

/-- **What a stage does to the lists.** -/
theorem yields_apply (hn' : (stage.apply net a).lookup b = some n') : stage.Yields net a b n' := by
  -- only three stages write to the list of the node, and `Keeps` speaks of these
  cases stage with
  | idle => exact yields_of_sameLists (.refl net) hn'
  | asking succAddr => exact yields_of_sameLists (.refl net) hn'
  | fetching succAddr => exact yields_of_sameLists (.refl net) hn'
  | notifying succAddr => exact yields_of_sameLists (sameLists_callNotify net succAddr a) hn'
  | scanning succList i =>
    simp only [apply] at hn'
    split at hn'
    · exact yields_of_sameLists (.refl net) hn'
    · next hend =>
      exact yields_of_modify hn' (fun n => rfl) fun n hkeeps _ => hkeeps (Nat.le_of_not_lt hend)
  | found succAddr succIndex =>
    simp only [apply] at hn'
    split at hn'
    · next hpos =>
      refine yields_of_modify hn' (fun n => ?_) fun n hkeeps hfull => ?_
      · split <;> rfl
      · split
        · next hlt =>
          have hlong := hkeeps hpos hlt
          rw [List.length_drop]
          omega
        · exact hfull
    · exact yields_of_sameLists (.refl net) hn'
  | fetched newList => exact yields_of_modify hn' (fun n => rfl) fun n hkeeps _ => hkeeps

theorem mem_apply {b : Address} : b ∈ stage.apply net a ↔ b ∈ net := by
  cases stage with
  | idle | asking succAddr | fetching succAddr => rfl
  | notifying succAddr => exact Table.mem_modify
  | scanning succList i =>
    simp only [apply]
    split
    · rfl
    · exact Table.mem_modify
  | found succAddr succIndex =>
    simp only [apply]
    split
    · exact Table.mem_modify
    · rfl
  | fetched newList => exact Table.mem_modify

end Stage

/-! ### The invariant -/

/-- Goroutines belong to nodes that run, and those with accesses to make to nodes with
full lists. -/
structure Safe (s : System) : Prop where
  home : ∀ g ∈ s.goroutines, g.address ∈ s.net
  full : ∀ g ∈ s.goroutines, ∀ n, s.net.lookup g.address = some n → g.Pending n →
    n.numberOfSuccessors ≤ n.successors.length

theorem safe_start : Safe start where
  home := by
    intro g hg
    cases hg
  full := by
    intro g hg
    cases hg

theorem Safe.inRange {s : System} (h : Safe s) : InRange s := by
  intro g hg i hphase n hn hi
  have hpending : g.Pending n := by
    rw [Goroutine.Pending, hphase]
    exact hi
  exact lt_of_lt_of_le hi (h.full g hg n hn hpending)

/-- Whether accesses are left depends on how many entries there should be. -/
theorem Goroutine.pending_congr {g : Goroutine} {n n' : Node}
    (h : n'.numberOfSuccessors = n.numberOfSuccessors) : g.Pending n' ↔ g.Pending n := by
  unfold Pending
  rw [h]

/-- The lists are the same, and no node has gone. -/
theorem Safe.sameLists {s : System} (h : Safe s) (hlists : SameLists s.net net)
    (hmem : ∀ a ∈ s.net, a ∈ net) : Safe { s with net := net } := by
  refine ⟨fun g hg => hmem _ (h.home g hg), fun g hg n' hn' hpending => ?_⟩
  obtain ⟨n, hn, hnumber, hsucc⟩ := hlists _ n' hn'
  rw [hnumber, hsucc]
  exact h.full g hg n hn ((Goroutine.pending_congr hnumber).mp hpending)

/-- A goroutine goes on, and has no accesses to make that it had not. -/
theorem Safe.goOn {s : System} (h : Safe s) {j : ℕ} {g : Goroutine} {phase : Phase}
    (hj : s.goroutines[j]? = some g)
    (hpending : ∀ n, s.net.lookup g.address = some n →
      Goroutine.Pending { g with phase := phase } n → g.Pending n) :
    Safe (s.goOn j g phase) := by
  have hg := List.mem_of_getElem? hj
  refine ⟨fun g' hg' => ?_, fun g' hg' n hn hpending' => ?_⟩
  · rcases List.mem_or_eq_of_mem_set hg' with hold | rfl
    · exact h.home g' hold
    · exact h.home g hg
  · rcases List.mem_or_eq_of_mem_set hg' with hold | rfl
    · exact h.full g' hold n hn hpending'
    · exact h.full g hg n hn (hpending n hn hpending')

theorem Safe.kill {s : System} (h : Safe s) (a : Address) : Safe (s.kill a) := by
  have hg : ∀ g ∈ (s.kill a).goroutines, g ∈ s.goroutines ∧ g.address ≠ a := by
    intro g hg
    obtain ⟨hold, hne⟩ := List.mem_filter.mp hg
    exact ⟨hold, of_decide_eq_true hne⟩
  refine ⟨fun g hmem => ?_, fun g hmem n hn => ?_⟩
  · obtain ⟨hold, hne⟩ := hg g hmem
    exact AList.mem_erase.mpr ⟨hne, h.home g hold⟩
  · obtain ⟨hold, hne⟩ := hg g hmem
    exact h.full g hold n ((AList.lookup_erase_ne hne).symm.trans hn)

/-- A new node has no goroutines. -/
theorem Safe.insert {s : System} (h : Safe s) {a : Address} (hfree : a ∉ s.net) (n : Node) :
    Safe { s with net := AList.insert a n s.net } := by
  refine ⟨fun g hg => (AList.mem_insert _).mpr (.inr (h.home g hg)), fun g hg m hm => ?_⟩
  have hne : g.address ≠ a := by
    intro heq
    exact hfree (heq ▸ h.home g hg)
  exact h.full g hg m ((AList.lookup_insert_ne hne).symm.trans hm)

/-- A stage leaves the list full of a node whose goroutines have accesses to make. -/
theorem Safe.stage {s : System} (h : Safe s) {a : Address} (hok : StaysFull s (.stabilize a))
    (stages : Address → Stage) :
    Safe { s with net := (s.stages a).apply s.net a, stages := stages } := by
  refine ⟨fun g hg => Stage.mem_apply.mpr (h.home g hg), fun g hg n' hn' hpending => ?_⟩
  obtain ⟨m, hm, hnumber, hother, hfull⟩ := Stage.yields_apply hn'
  have hpending := (Goroutine.pending_congr hnumber).mp hpending
  have hbefore := h.full g hg m hm hpending
  rw [hnumber]
  -- the list is that of the node that stabilizes, or is left alone
  by_cases ha : g.address = a
  · rw [ha] at hm
    exact hfull (hok m (Option.mem_def.mpr hm) ⟨g, hg, ha, hpending⟩) hbefore
  · rw [hother ha]
    exact hbefore

/-- A `Put` starts a goroutine where the list is full. -/
theorem Safe.put {s : System} (h : Safe s) {a : Address} {key value : String}
    (hok : StaysFull s (.put a key value)) (ha : a ∈ s.net) :
    Safe { s with
      net := callPutReplica s.net a key value
      goroutines := s.goroutines ++ [⟨a, key, value, .loop 0⟩] } := by
  have hlists := sameLists_callPutReplica s.net a key value
  have hsafe := h.sameLists hlists fun b hb => Table.mem_modify.mpr hb
  refine ⟨fun g hg => ?_, fun g hg n' hn' hpending => ?_⟩
  · -- the new goroutine is at its first access, and the others are as before
    rcases List.mem_append.mp hg with hold | hnew
    · exact hsafe.home g hold
    · rw [List.mem_singleton.mp hnew]
      exact Table.mem_modify.mpr ha
  · rcases List.mem_append.mp hg with hold | hnew
    · exact hsafe.full g hold n' hn' hpending
    · rw [List.mem_singleton.mp hnew] at hn'
      obtain ⟨n, hn, hnumber, hsucc⟩ := hlists a n' hn'
      rw [hnumber, hsucc]
      exact hok n (Option.mem_def.mpr hn)

/-- A goroutine goes on, to its next call or out of the loop, or ends its node. -/
theorem Safe.advance {s t : System} (h : Safe s) {j : ℕ} (hstep : step s (.advance j) = some t) :
    Safe t := by
  simp only [step] at hstep
  split at hstep
  · next g hj =>
    split at hstep
    · next i n hphase hn =>
      split at hstep
      · next hi =>
        -- an access out of range ends the node with all its goroutines
        split at hstep
        · cases hstep
          exact ⟨(h.kill g.address).home, (h.kill g.address).full⟩
        · cases hstep
          -- a call or the next turn: what is pending now was pending before
          refine h.goOn hj fun n' hn' _ => ?_
          rw [hn, Option.some.injEq] at hn'
          subst hn'
          rw [Goroutine.Pending, hphase]
          exact hi
      · cases hstep
        exact h.goOn hj fun n' _ hpending => hpending.elim
    · cases hstep
  · cases hstep

theorem Safe.deliver {s t : System} (h : Safe s) {j : ℕ} (hstep : step s (.deliver j) = some t) :
    Safe t := by
  simp only [step] at hstep
  split at hstep
  · next g hj =>
    split at hstep
    · next i addr hphase =>
      cases hstep
      have hsafe := h.sameLists (sameLists_callPutReplica s.net addr g.key g.value)
        fun b hb => Table.mem_modify.mpr hb
      refine hsafe.goOn hj fun n _ hpending => ?_
      rw [Goroutine.Pending, hphase]
      exact hpending
    · cases hstep
  · cases hstep

/-- **The step lemma.** -/
theorem Safe.of_step {s t : System} (h : Safe s) {e : Event} (hok : StaysFull s e)
    (hstep : step s e = some t) : Safe t := by
  cases e with
  | startServer localaddress address nprime r id =>
    simp only [step] at hstep
    split at hstep
    · obtain ⟨net, hnet, rfl⟩ := Option.map_eq_some_iff.mp hstep
      unfold startServer at hnet
      dsimp only at hnet
      split at hnet
      · cases hnet
      next hfree =>
      cases hnet
      exact h.insert hfree _
    · cases hstep
  | stabilize a =>
    obtain ⟨n, hn, rfl⟩ := Option.map_eq_some_iff.mp hstep
    exact h.stage hok _
  | notify a cand =>
    simp only [step] at hstep
    split at hstep
    · cases hstep
      exact h.sameLists (sameLists_callNotify s.net a cand) fun b hb => Table.mem_modify.mpr hb
    · cases hstep
  | crash a =>
    simp only [step] at hstep
    split at hstep
    · cases hstep
      exact h.kill a
    · cases hstep
  | put a key value =>
    obtain ⟨net, hput, rfl⟩ := Option.map_eq_some_iff.mp hstep
    unfold putKeyValue at hput
    split at hput
    · next ha =>
      cases hput
      exact h.put hok ha
    · cases hput
  | advance j => exact h.advance hstep
  | deliver j => exact h.deliver hstep

/-! ### Short lists -/

/-- A goroutine has accesses to make to a list that is too short. -/
def Short (s : System) : Prop :=
  ∃ (j : ℕ) (g : Goroutine) (n : Node), s.goroutines[j]? = some g ∧
    s.net.lookup g.address = some n ∧ g.Pending n ∧ n.successors.length < n.numberOfSuccessors

variable {s t : System}

theorem getElem?_goOn {j : ℕ} {g : Goroutine} (hj : s.goroutines[j]? = some g) (phase : Phase) :
    (s.goOn j g phase).goroutines[j]? = some { g with phase := phase } :=
  List.getElem?_set_self (List.getElem?_eq_some_iff.mp hj).1

/-- A call returns, and has changed no list. -/
theorem exists_deliver {j i : ℕ} {g : Goroutine} {addr : Address}
    (hj : s.goroutines[j]? = some g) (hphase : g.phase = .calling i addr)
    (hn : s.net.lookup g.address = some n) :
    ∃ t g' n', step s (.deliver j) = some t ∧ t.goroutines[j]? = some g' ∧
      g'.phase = .loop (i + 1) ∧ t.net.lookup g'.address = some n' ∧
      n'.numberOfSuccessors = n.numberOfSuccessors ∧ n'.successors = n.successors := by
  have hstep : step s (.deliver j) = some
      ({ s with net := callPutReplica s.net addr g.key g.value }.goOn j g (.loop (i + 1))) := by
    simp only [step, hj, hphase]
  have hmem : g.address ∈ callPutReplica s.net addr g.key g.value :=
    Table.mem_modify.mpr (mem_of_lookup hn)
  obtain ⟨n', hn'⟩ := exists_lookup hmem
  obtain ⟨n₀, hn₀, hnumber, hsucc⟩ := sameLists_callPutReplica s.net addr g.key g.value _ _ hn'
  rw [hn, Option.some.injEq] at hn₀
  subst hn₀
  refine ⟨_, { g with phase := .loop (i + 1) }, n', hstep, ?_, rfl, hn', hnumber, hsucc⟩
  exact getElem?_goOn (s := { s with net := callPutReplica s.net addr g.key g.value }) hj _

/-- Left alone, a goroutine at the head of its loop comes to the end of a short list. -/
theorem exists_not_inRange_of_loop (m : ℕ) : ∀ {s : System} {j i : ℕ} {g : Goroutine} {n : Node},
    s.goroutines[j]? = some g → g.phase = .loop i → s.net.lookup g.address = some n →
    i < n.numberOfSuccessors → n.successors.length < n.numberOfSuccessors →
    n.successors.length ≤ i + m → ∃ t, Reach step s t ∧ ¬ InRange t := by
  -- on the number of entries that the goroutine has before it
  induction m with
  | zero =>
    intro s j i g n hj hphase hn hi _ hle
    refine ⟨s, .refl, fun hrange => ?_⟩
    have hlt := hrange g (List.mem_of_getElem? hj) i hphase n hn hi
    omega
  | succ m ih =>
    intro s j i g n hj hphase hn hi hshort hle
    cases haddr : n.successors[i]? with
    | none =>
      refine ⟨s, .refl, fun hrange => ?_⟩
      have hlt := hrange g (List.mem_of_getElem? hj) i hphase n hn hi
      exact absurd hlt (Nat.not_lt.mpr (List.getElem?_eq_none_iff.mp haddr))
    | some addr =>
      have hlt := (List.getElem?_eq_some_iff.mp haddr).1
      have hadvance : step s (.advance j) =
          some (s.goOn j g (if addr = g.address then .loop (i + 1) else .calling i addr)) := by
        simp only [step, hj, hphase, hn, if_pos hi, haddr]
      have hreach : Reach step s _ := .tail (.advance j) .refl trivial hadvance
      -- an entry that is the node itself is skipped, to another one there is a call
      by_cases hself : addr = g.address
      · rw [if_pos hself] at hreach
        obtain ⟨t, ht, hrange⟩ :=
          ih (getElem?_goOn hj (.loop (i + 1))) rfl hn (by omega) hshort (by omega)
        exact ⟨t, hreach.trans ht, hrange⟩
      · rw [if_neg hself] at hreach
        obtain ⟨t, g', n', hdeliver, hj', hphase', hn', hnumber, hsucc⟩ :=
          exists_deliver (getElem?_goOn hj (.calling i addr)) rfl hn
        obtain ⟨u, hu, hrange⟩ := ih hj' hphase' hn' (by omega)
          (by rw [hnumber, hsucc]; exact hshort) (by rw [hsucc]; omega)
        exact ⟨u, (hreach.tail (.deliver j) trivial hdeliver).trans hu, hrange⟩

theorem Short.exists_not_inRange (h : Short s) : ∃ t, Reach step s t ∧ ¬ InRange t := by
  obtain ⟨j, g, n, hj, hn, hpending, hshort⟩ := h
  cases hphase : g.phase with
  | loop i =>
    rw [Goroutine.Pending, hphase] at hpending
    exact exists_not_inRange_of_loop n.successors.length hj hphase hn hpending hshort (by omega)
  | calling i addr =>
    rw [Goroutine.Pending, hphase] at hpending
    obtain ⟨t, g', n', hdeliver, hj', hphase', hn', hnumber, hsucc⟩ := exists_deliver hj hphase hn
    obtain ⟨u, hu, hrange⟩ := exists_not_inRange_of_loop n'.successors.length hj' hphase' hn'
      (by rw [hnumber]; exact hpending) (by rw [hnumber, hsucc]; exact hshort) (by omega)
    exact ⟨u, (ReachWhile.tail (.deliver j) .refl trivial hdeliver).trans hu, hrange⟩
  | finished =>
    rw [Goroutine.Pending, hphase] at hpending
    exact hpending.elim

/-- A stage that does not keep the list full leaves it short. -/
theorem Stage.exists_lookup_apply {stage : Stage} (hn : net.lookup a = some n)
    (hkeeps : ¬ stage.Keeps n) : ∃ n', (stage.apply net a).lookup a = some n' ∧
      n'.numberOfSuccessors = n.numberOfSuccessors ∧
      n'.successors.length < n.numberOfSuccessors := by
  cases stage with
  | idle | asking succAddr | notifying succAddr | fetching succAddr => exact absurd trivial hkeeps
  | scanning succList i =>
    obtain ⟨hend, hmany⟩ := Classical.not_imp.mp hkeeps
    simp only [apply, if_neg (Nat.not_lt.mpr hend), Table.lookup_modify_self, hn]
    exact ⟨_, rfl, rfl, Nat.lt_of_not_le hmany⟩
  | found succAddr succIndex =>
    obtain ⟨hpos, hkeeps⟩ := Classical.not_imp.mp hkeeps
    obtain ⟨hlt, hshort⟩ := Classical.not_imp.mp hkeeps
    simp only [apply, if_pos hpos, Table.lookup_modify_self, hn, Option.map_some, if_pos hlt]
    refine ⟨_, rfl, rfl, ?_⟩
    rw [List.length_drop]
    omega
  | fetched newList =>
    simp only [apply, Table.lookup_modify_self, hn]
    exact ⟨_, rfl, rfl, Nat.lt_of_not_le hkeeps⟩

theorem short_of_not_staysFull {e : Event} (hok : ¬ StaysFull s e) (hstep : step s e = some t) :
    Short t := by
  cases e with
  | startServer | notify | crash | advance | deliver => exact absurd trivial hok
  | put a key value =>
    simp only [StaysFull, not_forall] at hok
    obtain ⟨n, hn, hshort⟩ := hok
    obtain ⟨net, hput, rfl⟩ := Option.map_eq_some_iff.mp hstep
    unfold putKeyValue at hput
    split at hput
    · cases hput
      refine ⟨s.goroutines.length, ⟨a, key, value, .loop 0⟩, n.put key value, by simp, ?_, ?_, ?_⟩
      · rw [Table.lookup_modify_self, Option.mem_def.mp hn]
        rfl
      · exact Nat.zero_lt_of_lt (Nat.lt_of_not_le hshort)
      · exact Nat.lt_of_not_le hshort
    · cases hput
  | stabilize a =>
    simp only [StaysFull, not_forall] at hok
    obtain ⟨n, hn, ⟨g, hg, rfl, hpending⟩, hkeeps⟩ := hok
    obtain ⟨n₀, -, rfl⟩ := Option.map_eq_some_iff.mp hstep
    obtain ⟨j, hj⟩ := List.mem_iff_getElem?.mp hg
    obtain ⟨n', hn', hnumber, hshort⟩ := Stage.exists_lookup_apply (Option.mem_def.mp hn) hkeeps
    refine ⟨j, g, n', hj, hn', (Goroutine.pending_congr hnumber).mpr hpending, ?_⟩
    rw [hnumber]
    exact hshort

/-- **Replication stays in range** in every run in which each `Put` finds the list of its
node full and `stabilize` leaves it full while a goroutine has accesses to make; and after
a step that is not like that, the goroutine goes out of range if it is left alone. -/
theorem inRange_of_staysFull (h : ReachWhile step StaysFull start s) :
    InRange s ∧ ∀ e t, step s e = some t → ¬ StaysFull s e → ∃ u, Reach step t u ∧ ¬ InRange u := by
  have hsafe : Safe s :=
    h.invariant safe_start fun _ _ _ hinv hok hstep => hinv.of_step hok hstep
  exact ⟨hsafe.inRange, fun e t hstep hok => (short_of_not_staysFull hok hstep).exists_not_inRange⟩

/-- Two nodes that keep two successors each; the first one stabilizes twice, with the second
one in between, and then receives a `Put`. -/
def pairRun : List Event :=
  [.startServer "10.0.0.1" "10.0.0.1:3410" "" 2 none,
    .startServer "10.0.0.2" "10.0.0.2:3410" "10.0.0.1:3410" 2 none] ++
  List.replicate 7 (.stabilize "10.0.0.2:3410") ++ List.replicate 7 (.stabilize "10.0.0.1:3410") ++
  [.put "10.0.0.1:3410" "notes.txt" "hello", .advance 0, .deliver 0]

theorem inRange_of_staysFull_pairRun : ∃ s, run (restrict step StaysFull) start pairRun = some s ∧
    (s.goroutines.map (·.phase) = [.loop 1] ∧
      (s.net.lookup "10.0.0.1:3410").map (·.successors) =
        some ["10.0.0.2:3410", "10.0.0.1:3410"]) ∧ InRange s := by
  have hobs : (run (restrict step StaysFull) start pairRun).map (fun s =>
      (s.goroutines.map (·.phase), (s.net.lookup "10.0.0.1:3410").map (·.successors))) =
      some ([.loop 1], some ["10.0.0.2:3410", "10.0.0.1:3410"]) := by decide +kernel
  obtain ⟨s, hs, hval⟩ := Option.map_eq_some_iff.mp hobs
  exact ⟨s, hs, Prod.mk.inj hval, (inRange_of_staysFull (reachWhile_of_run _ _ _ hs)).1⟩

/-- The only node of a new ring, which keeps two successors, receives a `Put`. -/
def firstPutRun : List Event :=
  [.startServer "10.0.0.1" "10.0.0.1:3410" "" 2 none, .put "10.0.0.1:3410" "notes.txt" "hello",
    .advance 0]

/-- The access is out of range, and the node panics. -/
theorem not_inRange :
    (∃ s, Reach step start s ∧ ¬ InRange s) ∧
    ∃ s, run step start (firstPutRun ++ [.advance 0]) = some s ∧
      s.panicked = ["10.0.0.1:3410"] := by
  constructor
  · have hobs : (run step start firstPutRun).map (fun s => (s.goroutines,
        (s.net.lookup "10.0.0.1:3410").map fun n => (n.successors.length, n.numberOfSuccessors))) =
        some ([⟨"10.0.0.1:3410", "notes.txt", "hello", .loop 1⟩], some (1, 2)) := by decide +kernel
    obtain ⟨s, hs, hval⟩ := Option.map_eq_some_iff.mp hobs
    obtain ⟨hgoroutines, hlengths⟩ := Prod.mk.inj hval
    obtain ⟨n, hn, hlengths⟩ := Option.map_eq_some_iff.mp hlengths
    obtain ⟨hlength, hnumber⟩ := Prod.mk.inj hlengths
    refine ⟨s, reach_of_run _ _ _ hs, fun hrange => ?_⟩
    have hlt := hrange _ (by rw [hgoroutines]; exact List.mem_cons_self) 1 rfl n hn (by omega)
    omega
  · have hobs : (run step start (firstPutRun ++ [.advance 0])).map (·.panicked) =
        some ["10.0.0.1:3410"] := by decide +kernel
    obtain ⟨s, hs, hval⟩ := Option.map_eq_some_iff.mp hobs
    exact ⟨s, hs, hval⟩

end ExchangeLabs.Chord.Panics
