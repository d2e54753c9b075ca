import ExchangeLabs.Raft.Actions
import ExchangeLabs.Raft.Bookkeeping

/-!
# What is in stable storage

Whenever `rf.mu` is free, what was last saved is what the server has: every critical
section that changes one of the five durable fields saves them before it ends, and
the snapshot that is saved with them is the one their `lastIncludedIndex` came with.
It does not matter for which indices the service calls `Snapshot`.

## Main definitions

* `Cluster.stepAnyIndex` — the cluster with a service that may call `Snapshot` for any index.
* `Cluster.suppliedBy` — the snapshot that an event sets `lastIncludedIndex` with.
* `Traced` — a cluster and, for each server, the snapshot that was last supplied in this way.

## Main results

* `durable_of_reach` — **stable storage is exact, and `Make` restores it.**
-/

namespace ExchangeLabs.Raft

open History

variable {n : ℕ} {α β : Type} {c c' : Cluster n α β} {h : Logs n α}

namespace Server

variable {rf rf' : Server n α β}

/-! ### Which critical sections save a snapshot -/

theorem snapshot_requestVote (rf : Server n α β) (args : RequestVoteArgs n) :
    (rf.requestVote args).1.persister.snapshot = rf.persister.snapshot := by
  unfold requestVote
  dsimp only
  split_ifs <;> rfl

theorem persister_acceptTerm (rf : Server n α β) (term : ℤ) :
    (rf.acceptTerm term).persister = rf.persister := by
  unfold acceptTerm
  dsimp only
  split_ifs <;> rfl

theorem persister_advanceCommit (rf : Server n α β) (args : AppendingEntriesArgs n α) :
    (rf.advanceCommit args).persister = rf.persister := by
  unfold advanceCommit
  split <;> rfl

theorem persister_appendEntriesLog {args : AppendingEntriesArgs n α} {reply : AppendingEntriesReply}
    (hx : rf.appendEntriesLog args = some (rf', reply)) : rf'.persister = rf.persister := by
  unfold appendEntriesLog at hx
  split_ifs at hx
  · cases hx
    rfl
  · cases hx
    rfl
  obtain ⟨t, -, hx⟩ := Option.bind_eq_some_iff.mp hx
  split_ifs at hx
  · obtain ⟨i, -, hx⟩ := Option.bind_eq_some_iff.mp hx
    cases hx
    rfl
  · obtain ⟨rf₁, hmerge, hx⟩ := Option.bind_eq_some_iff.mp hx
    cases hx
    rw [persister_advanceCommit, mergeEntries_fields _ _ _ _ hmerge]

theorem snapshot_appendEntries {args : AppendingEntriesArgs n α} {reply : AppendingEntriesReply}
    (hx : rf.appendEntries args = some (rf', reply)) :
    rf'.persister.snapshot = rf.persister.snapshot := by
  unfold appendEntries at hx
  split at hx
  · cases hx
    rfl
  · obtain ⟨⟨rf₁, reply₁⟩, hlog, hx⟩ := Option.bind_eq_some_iff.mp hx
    cases hx
    show rf₁.persister.snapshot = _
    rw [persister_appendEntriesLog hlog, persister_acceptTerm]

/-- **`InstallSnapshot`** saves the snapshot of the request when it takes its index. -/
theorem snapshot_installSnapshot {args : InstallSnapshotArgs n β} {reply : InstallSnapshotReply}
    (hx : rf.installSnapshot args = some (rf', reply)) :
    rf'.persister.snapshot =
      if rf.currentTerm ≤ args.term ∧ rf.lastIncludedIndex < args.lastIncludedIndex then args.data
      else rf.persister.snapshot := by
  unfold installSnapshot at hx
  split at hx
  · next hold =>
    cases hx
    rw [if_neg fun h => absurd h.1 (not_le.mpr hold)]
  next hold =>
  obtain ⟨rf₄, hlog, hx⟩ := Option.bind_eq_some_iff.mp hx
  cases hx
  -- the server that the snapshot is installed in has the old snapshot and its index
  have hkeep : ∀ rf₂ : Server n α β,
      rf₂ = (if args.term > rf.currentTerm then (rf.stepDown args.term).persist else rf) →
      ∀ rf₃, rf₃ = (if rf₂.state = .candidate then { rf₂ with state := .follower } else rf₂) →
      rf₃.persister.snapshot = rf.persister.snapshot ∧
        rf₃.lastIncludedIndex = rf.lastIncludedIndex := by
    rintro rf₂ rfl rf₃ rfl
    split_ifs <;> exact ⟨rfl, rfl⟩
  obtain ⟨hsnap, hindex⟩ := hkeep _ rfl _ rfl
  generalize (if args.term > rf.currentTerm then (rf.stepDown args.term).persist else rf) = rf₁ at *
  generalize (if rf₁.state = .candidate then { rf₁ with state := .follower } else rf₁) = rf₃ at *
  unfold installSnapshotLog at hlog
  split at hlog
  · next hle =>
    cases hlog
    rw [hsnap, if_neg fun h => absurd h.2 (not_lt.mpr (hindex ▸ hle))]
  · next hgt =>
    obtain ⟨log, -, hlog⟩ := Option.bind_eq_some_iff.mp hlog
    cases hlog
    show args.data = _
    rw [if_pos ⟨not_lt.mp hold, hindex ▸ not_le.mp hgt⟩]

theorem snapshot_receiveVote (rf : Server n α β) (votesReceived : ℕ) (term : ℤ)
    (reply : RequestVoteReply) :
    (rf.receiveVote votesReceived term reply).1.persister.snapshot = rf.persister.snapshot := by
  unfold receiveVote
  split_ifs <;> rfl

theorem persister_checkCommit (hx : rf.checkCommit = some rf') : rf'.persister = rf.persister := by
  rw [checkCommit_eq hx]

theorem snapshot_receiveAppendEntries {server : Fin n} {args : AppendingEntriesArgs n α}
    {reply : AppendingEntriesReply} (hx : rf.receiveAppendEntries server args reply = some rf') :
    rf'.persister.snapshot = rf.persister.snapshot := by
  unfold receiveAppendEntries at hx
  dsimp only at hx
  split_ifs at hx
  · cases hx
    rfl
  · cases hx
    rfl
  · rw [persister_checkCommit hx]
  · cases hx
    rfl
  · cases hx
    rfl

theorem snapshot_receiveInstallSnapshot {server : Fin n} {args : InstallSnapshotArgs n β}
    {reply : InstallSnapshotReply}
    (hx : rf.receiveInstallSnapshot server args reply = some rf') :
    rf'.persister.snapshot = rf.persister.snapshot := by
  unfold receiveInstallSnapshot at hx
  split_ifs at hx
  · cases hx
    rfl
  · cases hx
    rfl
  all_goals rw [persister_checkCommit hx]

theorem snapshot_start (rf : Server n α β) (command : Option α) :
    (rf.start command).1.persister.snapshot = rf.persister.snapshot := by
  unfold start
  split <;> rfl

/-- **`Snapshot`** saves the snapshot it is given when it takes its index. -/
theorem snapshot_takeSnapshot {index : ℤ} {data : Option β}
    (hx : rf.takeSnapshot index data = some rf') :
    rf'.persister.snapshot =
      if rf.lastIncludedIndex < index then data else rf.persister.snapshot := by
  unfold takeSnapshot at hx
  split at hx
  · next hle =>
    cases hx
    rw [if_neg (not_lt.mpr hle)]
  · next hgt =>
    obtain ⟨e, -, hx⟩ := Option.bind_eq_some_iff.mp hx
    obtain ⟨log, -, hx⟩ := Option.bind_eq_some_iff.mp hx
    cases hx
    rw [if_pos (not_le.mp hgt)]
    rfl

end Server

/-! ### Any index -/

namespace Cluster

theorem server_setNode (c : Cluster n α β) (s r : Fin n) (node : Node n α β) :
    ((c.setNode s node).nodes r).server = if r = s then node.server else (c.nodes r).server := by
  split
  · next h => rw [h, setNode_self]
  · next h => rw [setNode_of_ne c node h]

/-- The cluster with a service that may call `Snapshot` for any index. -/
def stepAnyIndex (c : Cluster n α β) : Event n α β → Option (Cluster n α β)
  | .snapshot s index data => do
    let rf ← (c.nodes s).server.takeSnapshot index data
    some (c.setServer s rf)
  | e => c.step e

theorem stepAnyIndex_of_step {e : Event n α β} (hc' : c.step e = some c') :
    c.stepAnyIndex e = some c' := by
  cases e with
  | snapshot s index data =>
    simp only [step] at hc'
    split at hc'
    · exact hc'
    · cases hc'
  | _ => exact hc'

/-- A step is one of the cluster, or a call of `Snapshot`. -/
theorem stepAnyIndex_cases {e : Event n α β} (hc' : c.stepAnyIndex e = some c') :
    c.step e = some c' ∨ ∃ s index data rf, e = .snapshot s index data ∧
      (c.nodes s).server.takeSnapshot index data = some rf ∧ c' = c.setServer s rf := by
  cases e with
  | snapshot s index data =>
    obtain ⟨rf, hx, hc'⟩ := Option.bind_eq_some_iff.mp hc'
    exact Or.inr ⟨s, index, data, rf, rfl, hx, (Option.some.inj hc').symm⟩
  | _ => exact Or.inl hc'

theorem acted_of_stepAnyIndex {e : Event n α β} (hc' : c.stepAnyIndex e = some c') (r : Fin n) :
    (c'.nodes r).server = (c.nodes r).server ∨ c.Acted r e (c'.nodes r).server := by
  rcases stepAnyIndex_cases hc' with hstep | ⟨s, index, data, rf, rfl, hx, rfl⟩
  · exact acted_of_step hstep r
  · rw [setServer, server_setNode]
    split
    · next hrs =>
      rw [hrs]
      exact Or.inr (.takeSnapshot index data rf hx)
    · exact Or.inl rfl

end Cluster

theorem Refines.of_stepAnyIndex (hr : Refines c h) {e : Event n α β}
    (hc' : c.stepAnyIndex e = some c') : ∃ h', Refines c' h' := by
  rcases Cluster.stepAnyIndex_cases hc' with hstep | ⟨s, index, data, rf, rfl, hx, rfl⟩
  · obtain ⟨-, h', -, hr'⟩ := hr.of_step hstep
    exact ⟨h', hr'⟩
  · obtain ⟨hat, hsaved, hst⟩ := (hr.server s).takeSnapshot (hr.saved s) hx
    exact ⟨h, hr.setNode .refl hat hsaved rfl (fun hs => ⟨hst ▸ hs, rfl⟩) (hr.installing s)⟩

/-! ### Where the saved snapshot comes from -/

/-- The snapshot that the event sets the `lastIncludedIndex` of the server `s` with: the one of a
call of `Snapshot`, or of an `InstallSnapshot` request, that is not turned down. -/
def Cluster.suppliedBy (c : Cluster n α β) (s : Fin n) : Event n α β → Option (Option β)
  | .snapshot r index data =>
    if r = s ∧ (c.nodes s).server.lastIncludedIndex < index then some data else none
  | .handle id =>
    match c.calls id with
    | some ⟨_, _, callee, .installSnapshot args none⟩ =>
      if callee = s ∧ (c.nodes s).server.currentTerm ≤ args.term ∧
          (c.nodes s).server.lastIncludedIndex < args.lastIncludedIndex then some args.data
      else none
    | _ => none
  | _ => none

/-- A cluster with, for each server, the snapshot that was supplied with its present
`lastIncludedIndex`; `none` at first. -/
structure Traced (n : ℕ) (α β : Type) where
  cluster : Cluster n α β
  supplied : Fin n → Option β

namespace Traced

def init : Traced n α β := ⟨Cluster.init, fun _ => none⟩

def step (t : Traced n α β) (e : Event n α β) : Option (Traced n α β) := do
  let c' ← t.cluster.stepAnyIndex e
  some ⟨c', fun s => (t.cluster.suppliedBy s e).getD (t.supplied s)⟩

end Traced

theorem Cluster.Acted.snapshot {s : Fin n} {e : Event n α β} {rf' : Server n α β}
    (ha : c.Acted s e rf') :
    rf'.persister.snapshot = (c.suppliedBy s e).getD (c.nodes s).server.persister.snapshot := by
  cases ha with
  | startElection hst => rfl
  | requestVote id caller epoch args hid =>
    rw [suppliedBy, hid]
    exact Server.snapshot_requestVote _ _
  | appendEntries id caller epoch args hid rf' reply hx =>
    rw [suppliedBy, hid]
    exact Server.snapshot_appendEntries hx
  | installSnapshot id caller epoch args hid rf' reply hx =>
    rw [suppliedBy, hid, Server.snapshot_installSnapshot hx]
    simp only [true_and]
    split <;> rfl
  | receiveVote id callee args reply hid => exact Server.snapshot_receiveVote _ _ _ _
  | receiveAppendEntries id callee args reply hid rf' hx =>
    exact Server.snapshot_receiveAppendEntries hx
  | receiveInstallSnapshot id callee args reply hid rf' hx =>
    exact Server.snapshot_receiveInstallSnapshot hx
  | start command => exact Server.snapshot_start _ _
  | takeSnapshot index data rf' hx =>
    rw [suppliedBy, Server.snapshot_takeSnapshot hx]
    simp only [true_and]
    split <;> rfl
  | recordApplied newLastApplied happ => rfl
  | make =>
    rw [(Server.persister_make s _).1]
    rfl

/-- A call that supplies a snapshot is handled by the server that it is for. -/
theorem Cluster.acted_of_suppliedBy {s : Fin n} {e : Event n α β} {data : Option β}
    (hc' : c.stepAnyIndex e = some c') (hs : c.suppliedBy s e = some data) :
    c.Acted s e (c'.nodes s).server := by
  cases e with
  | snapshot r index data' =>
    obtain ⟨rf, hx, hc'⟩ := Option.bind_eq_some_iff.mp hc'
    cases hc'
    simp only [suppliedBy] at hs
    split at hs
    · next hr =>
      obtain ⟨rfl, -⟩ := hr
      rw [setServer, setNode_self]
      exact .takeSnapshot index data' rf hx
    · cases hs
  | handle id =>
    simp only [suppliedBy] at hs
    split at hs
    · next caller epoch callee args hid =>
      split at hs
      · next hr =>
        obtain ⟨rfl, -⟩ := hr
        obtain ⟨call, hid', hc'⟩ := Option.bind_eq_some_iff.mp hc'
        rw [hid] at hid'
        cases hid'
        obtain ⟨⟨rf', reply⟩, hx, hc'⟩ := Option.bind_eq_some_iff.mp hc'
        cases hc'
        rw [setCall_nodes, setServer, setNode_self]
        exact .installSnapshot id caller epoch args hid rf' reply hx
      · cases hs
    · cases hs
  -- no other step supplies a snapshot
  | _ => cases hs

/-- The snapshot in stable storage is the one that was supplied. -/
theorem snapshot_of_step {t t' : Traced n α β} {e : Event n α β} (hstep : t.step e = some t')
    (ht : ∀ s, (t.cluster.nodes s).server.persister.snapshot = t.supplied s) (s : Fin n) :
    (t'.cluster.nodes s).server.persister.snapshot = t'.supplied s := by
  obtain ⟨c', hc', hstep⟩ := Option.bind_eq_some_iff.mp hstep
  cases hstep
  show (c'.nodes s).server.persister.snapshot = (t.cluster.suppliedBy s e).getD (t.supplied s)
  rw [← ht s]
  rcases Cluster.acted_of_stepAnyIndex hc' s with hsame | hacted
  · cases hsup : t.cluster.suppliedBy s e with
    | none => rw [hsame, Option.getD_none]
    | some data => rw [(Cluster.acted_of_suppliedBy hc' hsup).snapshot, hsup, Option.getD_some]
  · exact hacted.snapshot

/-- Every run of the cluster is traced. -/
theorem exists_traced (hc : Reach Cluster.step Cluster.init c) :
    ∃ supplied, Reach Traced.step (Traced.init : Traced n α β) ⟨c, supplied⟩ := by
  refine hc.invariant (P := fun c => ∃ supplied, Reach Traced.step Traced.init ⟨c, supplied⟩)
    ⟨_, .refl⟩ ?_
  rintro d e d' ⟨supplied, hd⟩ - hstep
  refine ⟨_, hd.tail e trivial (u := ⟨d', fun s => (d.suppliedBy s e).getD (supplied s)⟩) ?_⟩
  show (d.stepAnyIndex e).bind _ = _
  rw [Cluster.stepAnyIndex_of_step hstep]
  rfl

/-- A server made from a saved one starts at its snapshot. -/
theorem Server.make_indices {rf : Server n α β} (hsaved : rf.Saved)
    (hnonneg : 0 ≤ rf.lastIncludedIndex) :
    (Server.make rf.me rf.persister).commitIndex = rf.lastIncludedIndex ∧
      (Server.make rf.me rf.persister).lastApplied = rf.lastIncludedIndex := by
  have hindex : (Server.make rf.me rf.persister).lastIncludedIndex = rf.lastIncludedIndex :=
    congrArg Persisted.lastIncludedIndex (toPersisted_make hsaved)
  have hread : ((Server.initial rf.me rf.persister).readPersist).commitIndex = 0 ∧
      ((Server.initial rf.me rf.persister).readPersist).lastApplied = 0 := by
    unfold readPersist
    split <;> exact ⟨rfl, rfl⟩
  unfold Server.make at hindex ⊢
  dsimp only at hindex ⊢
  split
  · next hpos =>
    rw [if_pos hpos] at hindex
    exact ⟨hindex, hindex⟩
  · next hzero =>
    rw [if_neg hzero] at hindex
    rw [hread.1, hread.2]
    omega

/-- **Stable storage is exact** whenever no critical section is running: what was last saved is the
five durable fields (nothing saved counts as the values of `Make`), with the snapshot that was
supplied for the present `lastIncludedIndex`; so a crash and `Make` restore the five fields, and
start at the snapshot. -/
theorem durable_of_reach {t : Traced n α β} (ht : Reach Traced.step Traced.init t) (s : Fin n) :
    ((t.cluster.nodes s).server.persister.raftState = some (t.cluster.nodes s).server.toPersisted ∨
      (t.cluster.nodes s).server.persister.raftState = none ∧
        (t.cluster.nodes s).server.toPersisted =
          (Server.initial s (t.cluster.nodes s).server.persister).toPersisted) ∧
    (t.cluster.nodes s).server.persister.snapshot = t.supplied s ∧
    (Server.make s (t.cluster.nodes s).server.persister).toPersisted =
      (t.cluster.nodes s).server.toPersisted ∧
    (Server.make s (t.cluster.nodes s).server.persister).commitIndex =
      (t.cluster.nodes s).server.lastIncludedIndex ∧
    (Server.make s (t.cluster.nodes s).server.persister).lastApplied =
      (t.cluster.nodes s).server.lastIncludedIndex := by
  have hinv : (∃ h, Refines t.cluster h) ∧
      ∀ s, (t.cluster.nodes s).server.persister.snapshot = t.supplied s := by
    refine ht.invariant (P := fun t => (∃ h, Refines t.cluster h) ∧
      ∀ s, (t.cluster.nodes s).server.persister.snapshot = t.supplied s)
      ⟨⟨_, refines_init⟩, fun s => rfl⟩ ?_
    rintro u e u' ⟨⟨h, hr⟩, hu⟩ - hstep
    refine ⟨?_, snapshot_of_step hstep hu⟩
    obtain ⟨c', hc', hstep⟩ := Option.bind_eq_some_iff.mp hstep
    cases hstep
    exact hr.of_stepAnyIndex hc'
  obtain ⟨⟨h, hr⟩, hsnap⟩ := hinv
  have hme := (hr.server s).me
  have hsaved := hr.saved s
  have hmake := Server.make_indices hsaved (hr.server s).log.nonneg
  have hrestore := Server.toPersisted_make hsaved
  -- nothing saved counts as the values of `Make`
  unfold Server.Saved at hsaved
  rw [hme] at hsaved hmake hrestore
  exact ⟨hsaved, hsnap s, hrestore, hmake⟩

/-- Server `0` leads, commits one entry, delivers it and takes a snapshot of it. -/
def snapshotRun : List (Event 2 ℕ ℕ) :=
  [.electionTimeout 0, .handle 0, .receive 0, .start 0 (some 7), .heartbeat 0 1, .handle 1,
    .receive 1, .applierCopy 0, .applierSend 0, .applierRecord 0, .snapshot 0 1 (some 99)]

theorem durable_snapshotRun : ∃ t : Traced 2 ℕ ℕ,
    run Traced.step Traced.init snapshotRun = some t ∧
      (t.cluster.nodes 0).server.lastIncludedIndex = 1 ∧
      (t.cluster.nodes 0).server.persister.snapshot = some 99 ∧
      (Server.make 0 (t.cluster.nodes 0).server.persister).toPersisted =
        (t.cluster.nodes 0).server.toPersisted ∧
      (Server.make 0 (t.cluster.nodes 0).server.persister).commitIndex = 1 := by
  have hobs : (run Traced.step Traced.init snapshotRun).map (fun t =>
      ((t.cluster.nodes 0).server.lastIncludedIndex, t.supplied 0)) = some (1, some 99) := by
    decide +kernel
  obtain ⟨t, ht, hval⟩ := Option.map_eq_some_iff.mp hobs
  simp only [Prod.mk.injEq] at hval
  obtain ⟨-, hsnap, hmake, hcommit, -⟩ := durable_of_reach (reach_of_run _ _ _ ht) 0
  exact ⟨t, ht, hval.1, hsnap.trans hval.2, hmake, hcommit.trans hval.1⟩

end ExchangeLabs.Raft
