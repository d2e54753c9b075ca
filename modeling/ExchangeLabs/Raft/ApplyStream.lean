import ExchangeLabs.Raft.Bookkeeping
import ExchangeLabs.Raft.Cluster

/-!
# What the applier sends

One server with its applier, any requests and replies, and a service that calls
`Snapshot` only for what was delivered to it.  The applier copies a batch, gives up
the lock, sends, and only then records what it has sent.  In between the snapshot,
the commit index and the log may change, but what is recorded is the applier's own,
and so the messages follow one another without a gap.

## Main definitions

* `Service`, `Service.step` — the server, its applier, and what was sent since `Make`.
* `Sent.Next p m` — the message `m` is the one after the index `p`.
* `Gapless base sent` — every message is the one after those before it.

## Main results

* `Gapless.pairwise`, `Gapless.exists_covering` — no index is delivered twice, or
  skipped but by a snapshot.
* `inv_step` — the steps keep the invariant.
* `apply_stream` — **the messages are gapless.**
-/

namespace ExchangeLabs.Raft

variable {n : ℕ} {α β : Type}

namespace Server

variable {rf rf' rf'' : Server n α β}

/-! ### What the critical sections leave to the applier -/

/-- What is applied is the same, and neither the snapshot nor the saved one goes back. -/
structure Advances (rf rf' : Server n α β) : Prop where
  lastApplied : rf'.lastApplied = rf.lastApplied
  snapshot : rf.lastIncludedIndex ≤ rf'.lastIncludedIndex
  saved : ∀ p ∈ rf'.persister.raftState,
    p ∈ rf.persister.raftState ∨ rf.lastIncludedIndex ≤ p.lastIncludedIndex

theorem advances_of_eq (happlied : rf'.lastApplied = rf.lastApplied)
    (hsnap : rf'.lastIncludedIndex = rf.lastIncludedIndex)
    (hpersister : rf'.persister = rf.persister) : rf.Advances rf' :=
  ⟨happlied, hsnap.ge, fun _ hp => Or.inl (hpersister ▸ hp)⟩

theorem Advances.refl (rf : Server n α β) : rf.Advances rf := advances_of_eq rfl rfl rfl

theorem Advances.trans (h : rf.Advances rf') (h' : rf'.Advances rf'') : rf.Advances rf'' where
  lastApplied := h'.lastApplied.trans h.lastApplied
  snapshot := h.snapshot.trans h'.snapshot
  saved := by
    intro p hp
    rcases h'.saved p hp with hp | hp
    · exact h.saved p hp
    · exact Or.inr (h.snapshot.trans hp)

theorem advances_save (rf : Server n α β) (data : Option β) : rf.Advances (rf.save data) where
  lastApplied := rfl
  snapshot := le_rfl
  saved := by
    intro p hp
    cases hp
    exact Or.inr le_rfl

theorem advances_persist (rf : Server n α β) : rf.Advances rf.persist := advances_save rf _

theorem advances_stepDown_persist (rf : Server n α β) (term : ℤ) :
    rf.Advances (rf.stepDown term).persist :=
  (advances_of_eq rfl rfl rfl : rf.Advances (rf.stepDown term)).trans (advances_persist _)

theorem advances_acceptTerm (rf : Server n α β) (term : ℤ) : rf.Advances (rf.acceptTerm term) := by
  unfold acceptTerm
  dsimp only
  split_ifs <;> exact advances_of_eq rfl rfl rfl

theorem advances_appendEntries {args : AppendingEntriesArgs n α} {reply : AppendingEntriesReply}
    (hx : rf.appendEntries args = some (rf', reply)) : rf.Advances rf' := by
  unfold appendEntries at hx
  split at hx
  · cases hx
    exact advances_persist rf
  obtain ⟨⟨rf₁, reply₁⟩, hlog, hx⟩ := Option.bind_eq_some_iff.mp hx
  cases hx
  refine ((advances_acceptTerm rf args.term).trans ?_).trans (advances_persist rf₁)
  -- a rejection leaves the indices alone; an acceptance may raise the commit index
  unfold appendEntriesLog at hlog
  split_ifs at hlog
  · cases hlog
    exact Advances.refl _
  · cases hlog
    exact Advances.refl _
  obtain ⟨t, -, hlog⟩ := Option.bind_eq_some_iff.mp hlog
  split_ifs at hlog
  · obtain ⟨i, -, hlog⟩ := Option.bind_eq_some_iff.mp hlog
    cases hlog
    exact Advances.refl _
  · obtain ⟨rf₂, hmerge, hlog⟩ := Option.bind_eq_some_iff.mp hlog
    cases hlog
    rw [mergeEntries_fields _ _ _ _ hmerge]
    unfold advanceCommit
    split <;> exact advances_of_eq rfl rfl rfl

theorem advances_installSnapshot {args : InstallSnapshotArgs n β} {reply : InstallSnapshotReply}
    (hx : rf.installSnapshot args = some (rf', reply)) : rf.Advances rf' := by
  unfold installSnapshot at hx
  split at hx
  · cases hx
    exact Advances.refl rf
  obtain ⟨rf₁, hlog, hx⟩ := Option.bind_eq_some_iff.mp hx
  cases hx
  -- the term and the state may change first, which moves no index
  have haccept : rf.Advances
      (if args.term > rf.currentTerm then (rf.stepDown args.term).persist else rf) := by
    split
    · exact advances_stepDown_persist rf args.term
    · exact Advances.refl rf
  generalize (if args.term > rf.currentTerm then (rf.stepDown args.term).persist else rf) = rf₂
    at haccept hlog
  have hfollower : rf₂.Advances
      (if rf₂.state = .candidate then { rf₂ with state := .follower } else rf₂) := by
    split <;> exact advances_of_eq rfl rfl rfl
  refine haccept.trans (hfollower.trans ?_)
  generalize (if rf₂.state = .candidate then { rf₂ with state := .follower } else rf₂) = rf₃
    at hlog
  unfold installSnapshotLog at hlog
  split at hlog
  · cases hlog
    exact Advances.refl _
  · next hnew =>
    obtain ⟨log, -, hlog⟩ := Option.bind_eq_some_iff.mp hlog
    cases hlog
    refine Advances.trans ?_ (advances_save _ _)
    exact ⟨rfl, (not_le.mp hnew).le, fun p hp => Or.inl hp⟩

theorem advances_requestVote (rf : Server n α β) (args : RequestVoteArgs n) :
    rf.Advances (rf.requestVote args).1 := by
  unfold requestVote
  dsimp only
  split
  · exact advances_persist rf
  have haccept : rf.Advances
      (if args.term > rf.currentTerm then rf.stepDown args.term else rf) := by
    split <;> exact advances_of_eq rfl rfl rfl
  refine haccept.trans ?_
  generalize (if args.term > rf.currentTerm then rf.stepDown args.term else rf) = rf₁
  split
  · exact (advances_of_eq rfl rfl rfl :
      rf₁.Advances { rf₁ with votedFor := some args.candidateId }).trans (advances_persist _)
  · exact advances_persist rf₁

theorem advances_startElection (rf : Server n α β) : rf.Advances rf.startElection.1 := by
  unfold startElection
  refine Advances.trans ?_ (advances_persist _)
  exact advances_of_eq rfl rfl rfl

theorem advances_receiveVote (rf : Server n α β) (votesReceived : ℕ) (term : ℤ)
    (reply : RequestVoteReply) : rf.Advances (rf.receiveVote votesReceived term reply).1 := by
  unfold receiveVote
  split_ifs
  · exact Advances.refl rf
  · exact advances_stepDown_persist rf _
  · exact advances_of_eq rfl rfl rfl
  · exact Advances.refl rf
  · exact Advances.refl rf

theorem advances_checkCommit (hx : rf.checkCommit = some rf') : rf.Advances rf' := by
  rcases checkCommit_cases hx with rfl | ⟨N, rfl, -⟩
  · exact Advances.refl _
  · exact advances_of_eq rfl rfl rfl

theorem advances_receiveAppendEntries {server : Fin n} {args : AppendingEntriesArgs n α}
    {reply : AppendingEntriesReply} (hx : rf.receiveAppendEntries server args reply = some rf') :
    rf.Advances rf' := by
  unfold receiveAppendEntries at hx
  dsimp only at hx
  split_ifs at hx
  · cases hx
    exact advances_stepDown_persist rf _
  · cases hx
    exact Advances.refl _
  · refine Advances.trans ?_ (advances_checkCommit hx)
    exact advances_of_eq rfl rfl rfl
  · cases hx
    exact Advances.refl _
  · cases hx
    exact advances_of_eq rfl rfl rfl

theorem advances_receiveInstallSnapshot {server : Fin n} {args : InstallSnapshotArgs n β}
    {reply : InstallSnapshotReply}
    (hx : rf.receiveInstallSnapshot server args reply = some rf') : rf.Advances rf' := by
  unfold receiveInstallSnapshot at hx
  split at hx
  · cases hx
    exact advances_stepDown_persist rf _
  split at hx
  · cases hx
    exact Advances.refl _
  · refine Advances.trans ?_ (advances_checkCommit hx)
    exact advances_of_eq rfl rfl rfl

theorem advances_start (rf : Server n α β) (command : Option α) :
    rf.Advances (rf.start command).1 := by
  unfold start
  split
  · exact Advances.refl rf
  · refine Advances.trans ?_ (advances_persist _)
    exact advances_of_eq rfl rfl rfl

theorem advances_takeSnapshot {index : ℤ} {data : Option β}
    (hx : rf.takeSnapshot index data = some rf') : rf.Advances rf' := by
  unfold takeSnapshot at hx
  split at hx
  · cases hx
    exact Advances.refl rf
  · obtain ⟨e, he, hx⟩ := Option.bind_eq_some_iff.mp hx
    obtain ⟨log, -, hx⟩ := Option.bind_eq_some_iff.mp hx
    cases hx
    refine Advances.trans ?_ (advances_save _ _)
    refine ⟨rfl, ?_, fun p hp => Or.inl hp⟩
    -- the cutoff is an index of the log
    have hcutoff : 0 ≤ (if index > rf.getLastLogIndex then rf.getLastLogIndex else index) -
        rf.lastIncludedIndex := by
      by_contra hneg
      unfold elemAt at he
      rw [if_neg hneg] at he
      cases he
    show rf.lastIncludedIndex ≤ if _ then _ else _
    omega

end Server

/-! ### The stream -/

/-- A message, with the server as it was when the applier copied what the message carries. -/
structure Sent (n : ℕ) (α β : Type) where
  msg : ApplyMsg α β
  copied : Server n α β

/-- The index that the messages have brought the service to, which began at `base`. -/
def lastSent (base : ℤ) : List (Sent n α β) → ℤ
  | [] => base
  | m :: _ => m.msg.index

/-- The message `m` is the one after the index `p`: a command has the next index and the entry
that the log had there, and a snapshot goes beyond `p`. -/
def Sent.Next (p : ℤ) (m : Sent n α β) : Prop :=
  if m.msg.commandValid then
    m.msg.commandIndex = p + 1 ∧ m.copied.lastIncludedIndex < m.msg.commandIndex ∧
      ∃ e, elemAt m.copied.log (m.msg.commandIndex - m.copied.lastIncludedIndex) = some e ∧
        m.msg.command = e.command
  else m.msg.snapshotValid = true ∧ p < m.msg.snapshotIndex

/-- Every message is the one after those before it; the newest is the first. -/
def Gapless (base : ℤ) : List (Sent n α β) → Prop
  | [] => True
  | m :: older => m.Next (lastSent base older) ∧ Gapless base older

/-- One server with its applier, since it was made. -/
structure Service (n : ℕ) (α β : Type) where
  server : Server n α β
  applier : Applier α β
  /-- The server when the applier copied what it holds. -/
  copied : Server n α β
  /-- `lastIncludedIndex` at `Make`. -/
  base : ℤ
  /-- What was sent on `applyCh`, the newest first. -/
  sent : List (Sent n α β)

/-- A critical section of the server, or a send on `applyCh`. -/
inductive Service.Event (n : ℕ) (α β : Type)
  | appendEntries (args : AppendingEntriesArgs n α)
  | installSnapshot (args : InstallSnapshotArgs n β)
  | requestVote (args : RequestVoteArgs n)
  | startElection
  | receiveVote (votesReceived : ℕ) (term : ℤ) (reply : RequestVoteReply)
  | receiveAppendEntries (server : Fin n) (args : AppendingEntriesArgs n α)
      (reply : AppendingEntriesReply)
  | receiveInstallSnapshot (server : Fin n) (args : InstallSnapshotArgs n β)
      (reply : InstallSnapshotReply)
  | checkCommit
  | start (command : Option α)
  /-- The service calls `Snapshot` for an index that was delivered to it. -/
  | snapshot (index : ℤ) (data : Option β)
  | applierCopy
  | applierSend
  | applierRecord
  /-- The server crashes and is made again from its persister. -/
  | restart

namespace Service

/-- The service as `Make` starts it. -/
def make (me : Fin n) (persister : Persister n α β) : Service n α β :=
  let rf := Server.make me persister
  { server := rf, applier := .waiting, copied := rf, base := rf.lastIncludedIndex, sent := [] }

/-- A server that has never run. -/
def init (me : Fin n) : Service n α β := make me { raftState := none, snapshot := none }

def last (s : Service n α β) : ℤ := lastSent s.base s.sent

def deliver (s : Service n α β) (applier : Applier α β) (msg : ApplyMsg α β) : Service n α β :=
  { s with applier := applier, sent := { msg := msg, copied := s.copied } :: s.sent }

/-- One step; `none` where the event cannot happen. -/
def step (s : Service n α β) : Service.Event n α β → Option (Service n α β)
  | .appendEntries args =>
    (s.server.appendEntries args).map fun (rf, _) => { s with server := rf }
  | .installSnapshot args =>
    (s.server.installSnapshot args).map fun (rf, _) => { s with server := rf }
  | .requestVote args => some { s with server := (s.server.requestVote args).1 }
  | .startElection => some { s with server := s.server.startElection.1 }
  | .receiveVote votesReceived term reply =>
    some { s with server := (s.server.receiveVote votesReceived term reply).1 }
  | .receiveAppendEntries server args reply =>
    (s.server.receiveAppendEntries server args reply).map fun rf => { s with server := rf }
  | .receiveInstallSnapshot server args reply =>
    (s.server.receiveInstallSnapshot server args reply).map fun rf => { s with server := rf }
  | .checkCommit => s.server.checkCommit.map fun rf => { s with server := rf }
  | .start command => some { s with server := (s.server.start command).1 }
  | .snapshot index data =>
    if index ≤ s.last then (s.server.takeSnapshot index data).map fun rf => { s with server := rf }
    else none
  | .applierCopy =>
    match s.applier with
    | .waiting =>
      if s.server.hasWork then
        s.server.copyBatch.map fun applier => { s with applier := applier, copied := s.server }
      else none
    | _ => none
  | .applierSend =>
    match s.applier with
    | .sendSnapshot msg newLastApplied => some (s.deliver (.sent newLastApplied) msg)
    | .sendEntries index (entry :: entries) lastIndex =>
      some (s.deliver (.sendEntries (index + 1) entries lastIndex)
        { commandValid := true, command := entry.command, commandIndex := index })
    | _ => none
  | .applierRecord =>
    match s.applier with
    | .sent newLastApplied | .sendEntries _ [] newLastApplied =>
      some { s with server := s.server.recordApplied newLastApplied, applier := .waiting }
    | _ => none
  | .restart => some (make s.server.me s.server.persister)

/-- The commit index is within the log. -/
def InLog (s : Service n α β) : Prop := s.server.commitIndex ≤ s.server.getLastLogIndex

instance (s : Service n α β) : Decidable s.InLog := inferInstanceAs (Decidable (_ ≤ _))

end Service

/-! ### The invariant -/

/-- What the applier holds goes on after the index `p`. -/
def Applier.Ready (p lastApplied : ℤ) (copied : Server n α β) : Applier α β → Prop
  | .waiting => lastApplied = p
  | .sendSnapshot msg newLastApplied =>
    msg.commandValid = false ∧ msg.snapshotValid = true ∧ msg.snapshotIndex = newLastApplied ∧
      p < newLastApplied
  | .sendEntries index entries lastIndex =>
    index = p + 1 ∧ lastIndex = p + entries.length ∧ copied.lastIncludedIndex < index ∧
      ∀ j e, entries[j]? = some e → elemAt copied.log (index - copied.lastIncludedIndex + (j : ℕ)) =
        some e
  | .sent newLastApplied => newLastApplied = p

/-- The messages so far are gapless, what is applied is not beyond them, and the applier goes on
after them. -/
structure Service.Inv (s : Service n α β) : Prop where
  snapshot : 0 ≤ s.server.lastIncludedIndex
  saved : ∀ p ∈ s.server.persister.raftState, 0 ≤ p.lastIncludedIndex
  gapless : Gapless s.base s.sent
  applied : s.server.lastApplied ≤ s.last
  applier : s.applier.Ready s.last s.server.lastApplied s.copied

/-- **The applier copies** what comes after the index that is applied. -/
theorem Server.ready_of_copyBatch {rf : Server n α β} (hin : rf.commitIndex ≤ rf.getLastLogIndex)
    (hwork : rf.hasWork = true) {a : Applier α β} (hx : rf.copyBatch = some a) :
    a.Ready rf.lastApplied rf.lastApplied rf := by
  unfold Server.hasWork at hwork
  rw [decide_eq_true_iff] at hwork
  unfold Server.copyBatch at hx
  split at hx
  · next hbehind =>
    cases hx
    exact ⟨rfl, rfl, rfl, hbehind⟩
  · next hbehind =>
    obtain ⟨entries, hcopy, hx⟩ := Option.bind_eq_some_iff.mp hx
    cases hx
    have hlast : rf.getLastLogIndex = rf.lastIncludedIndex + rf.log.length - 1 := rfl
    rw [if_neg (by omega)] at hcopy ⊢
    -- the bounds test does not fail
    unfold Server.copyEntries at hcopy
    dsimp only at hcopy
    rw [if_pos (by omega)] at hcopy
    have hlen := length_of_subslice hcopy
    refine ⟨rfl, by omega, by omega, fun j e he => ?_⟩
    exact elemAt_of_subslice hcopy he

theorem Server.make_spec (me : Fin n) {persister : Persister n α β}
    (hsaved : ∀ p ∈ persister.raftState, 0 ≤ p.lastIncludedIndex) :
    0 ≤ (Server.make me persister).lastIncludedIndex ∧
      (Server.make me persister).lastApplied = (Server.make me persister).lastIncludedIndex ∧
      (Server.make me persister).persister = persister := by
  have hread : 0 ≤ ((Server.initial me persister).readPersist).lastIncludedIndex ∧
      ((Server.initial me persister).readPersist).lastApplied = 0 ∧
      ((Server.initial me persister).readPersist).persister = persister := by
    unfold Server.readPersist
    split
    · exact ⟨le_rfl, rfl, rfl⟩
    · next p hp => exact ⟨hsaved p hp, rfl, rfl⟩
  obtain ⟨hnonneg, happlied, hpersister⟩ := hread
  unfold Server.make
  dsimp only
  split
  · exact ⟨hnonneg, rfl, hpersister⟩
  · exact ⟨hnonneg, by omega, hpersister⟩

namespace Service

variable {s s' : Service n α β}

theorem inv_make (me : Fin n) {persister : Persister n α β}
    (hsaved : ∀ p ∈ persister.raftState, 0 ≤ p.lastIncludedIndex) : (make me persister).Inv := by
  obtain ⟨hnonneg, happlied, hpersister⟩ := Server.make_spec me hsaved
  refine ⟨hnonneg, ?_, trivial, happlied.le, happlied⟩
  intro p hp
  refine hsaved p ?_
  rw [← hpersister]
  exact hp

theorem inv_init (me : Fin n) : (init me : Service n α β).Inv :=
  inv_make me fun p hp => by cases hp

/-- **The critical sections of the server** leave the stream as it is. -/
theorem Inv.advance (h : s.Inv) {rf : Server n α β} (ha : s.server.Advances rf) :
    Inv { s with server := rf } where
  snapshot := h.snapshot.trans ha.snapshot
  saved := by
    intro p hp
    rcases ha.saved p hp with hp | hp
    · exact h.saved p hp
    · exact h.snapshot.trans hp
  gapless := h.gapless
  applied := ha.lastApplied.trans_le h.applied
  applier := by
    show s.applier.Ready s.last rf.lastApplied s.copied
    rw [ha.lastApplied]
    exact h.applier

theorem Inv.copy (h : s.Inv) (hwaiting : s.applier = .waiting) (hin : s.InLog)
    (hwork : s.server.hasWork = true) {applier : Applier α β}
    (hx : s.server.copyBatch = some applier) :
    Inv { s with applier := applier, copied := s.server } := by
  have hlast := h.applier
  rw [hwaiting] at hlast
  refine ⟨h.snapshot, h.saved, h.gapless, h.applied, ?_⟩
  have hready := Server.ready_of_copyBatch hin hwork hx
  have heq : s.server.lastApplied = s.last := hlast
  rw [heq] at hready
  show applier.Ready s.last s.server.lastApplied s.server
  rwa [heq]

theorem Inv.sendSnapshot (h : s.Inv) {msg : ApplyMsg α β} {newLastApplied : ℤ}
    (hsend : s.applier = .sendSnapshot msg newLastApplied) :
    (s.deliver (.sent newLastApplied) msg).Inv := by
  have hready := h.applier
  rw [hsend] at hready
  obtain ⟨hcommand, hsnapshot, hindex, hlt⟩ := hready
  have hlast : (s.deliver (.sent newLastApplied) msg).last = newLastApplied := by
    show msg.index = newLastApplied
    unfold ApplyMsg.index
    rw [hcommand]
    exact hindex
  refine ⟨h.snapshot, h.saved, ⟨?_, h.gapless⟩, ?_, hlast.symm⟩
  · show if msg.commandValid then _ else _
    rw [hcommand]
    exact ⟨hsnapshot, hindex ▸ hlt⟩
  · rw [hlast]
    exact (h.applied.trans_lt hlt).le

theorem Inv.sendEntry (h : s.Inv) {index lastIndex : ℤ} {entry : LogEntry α}
    {entries : List (LogEntry α)}
    (hsend : s.applier = .sendEntries index (entry :: entries) lastIndex) :
    (s.deliver (.sendEntries (index + 1) entries lastIndex)
      { commandValid := true, command := entry.command, commandIndex := index }).Inv := by
  have hready := h.applier
  rw [hsend] at hready
  obtain ⟨hindex, hlast, habove, hentries⟩ := hready
  rw [List.length_cons] at hlast
  push_cast at hlast
  have hnext : (s.deliver (.sendEntries (index + 1) entries lastIndex)
      { commandValid := true, command := entry.command, commandIndex := index }).last = index := rfl
  refine ⟨h.snapshot, h.saved, ⟨⟨hindex, habove, entry, ?_, rfl⟩, h.gapless⟩, ?_, ?_⟩
  · simpa using hentries 0 entry rfl
  · -- `last` is now the index of the entry that has been sent
    rw [hnext]
    have := h.applied
    show s.server.lastApplied ≤ index
    omega
  · rw [hnext]
    refine ⟨rfl, by omega, ?_, fun j e he => ?_⟩
    · show s.copied.lastIncludedIndex < index + 1
      omega
    · have hshift := hentries (j + 1) e he
      show elemAt s.copied.log (index + 1 - s.copied.lastIncludedIndex + (j : ℤ)) = some e
      have hindex' : index + 1 - s.copied.lastIncludedIndex + (j : ℤ) =
          index - s.copied.lastIncludedIndex + ((j + 1 : ℕ) : ℤ) := by
        push_cast
        omega
      rwa [hindex']

/-- The applier records the index of the last message. -/
theorem Inv.record (h : s.Inv) {newLastApplied : ℤ} (hlast : newLastApplied = s.last) :
    Inv { s with server := s.server.recordApplied newLastApplied, applier := .waiting } := by
  have hnew : (s.server.recordApplied newLastApplied).lastApplied = s.last := by
    have := h.applied
    show (if _ then _ else _) = s.last
    split <;> omega
  exact ⟨h.snapshot, h.saved, h.gapless, hnew.le, hnew⟩

/-- **The invariant is kept** by every step from a state whose commit index is within the log. -/
theorem inv_step {e : Service.Event n α β} (h : s.Inv) (hin : s.InLog) (hx : s.step e = some s') :
    s'.Inv := by
  cases e with
  | appendEntries args =>
    obtain ⟨⟨rf, reply⟩, hrf, rfl⟩ := Option.map_eq_some_iff.mp hx
    exact h.advance (Server.advances_appendEntries hrf)
  | installSnapshot args =>
    obtain ⟨⟨rf, reply⟩, hrf, rfl⟩ := Option.map_eq_some_iff.mp hx
    exact h.advance (Server.advances_installSnapshot hrf)
  | requestVote args =>
    cases hx
    exact h.advance (Server.advances_requestVote _ args)
  | startElection =>
    cases hx
    exact h.advance (Server.advances_startElection _)
  | receiveVote votesReceived term reply =>
    cases hx
    exact h.advance (Server.advances_receiveVote _ votesReceived term reply)
  | receiveAppendEntries server args reply =>
    obtain ⟨rf, hrf, rfl⟩ := Option.map_eq_some_iff.mp hx
    exact h.advance (Server.advances_receiveAppendEntries hrf)
  | receiveInstallSnapshot server args reply =>
    obtain ⟨rf, hrf, rfl⟩ := Option.map_eq_some_iff.mp hx
    exact h.advance (Server.advances_receiveInstallSnapshot hrf)
  | checkCommit =>
    obtain ⟨rf, hrf, rfl⟩ := Option.map_eq_some_iff.mp hx
    exact h.advance (Server.advances_checkCommit hrf)
  | start command =>
    cases hx
    exact h.advance (Server.advances_start _ command)
  | snapshot index data =>
    dsimp only [step] at hx
    split at hx
    · obtain ⟨rf, hrf, rfl⟩ := Option.map_eq_some_iff.mp hx
      exact h.advance (Server.advances_takeSnapshot hrf)
    · cases hx
  | applierCopy =>
    dsimp only [step] at hx
    split at hx
    · next hwaiting =>
      split at hx
      · next hwork =>
        obtain ⟨applier, hcopy, rfl⟩ := Option.map_eq_some_iff.mp hx
        exact h.copy hwaiting hin hwork hcopy
      · cases hx
    · cases hx
  | applierSend =>
    dsimp only [step] at hx
    split at hx
    · next hsend =>
      cases hx
      exact h.sendSnapshot hsend
    · next hsend =>
      cases hx
      exact h.sendEntry hsend
    · cases hx
  | applierRecord =>
    have hready := h.applier
    dsimp only [step] at hx
    split at hx
    · next hsent =>
      cases hx
      rw [hsent] at hready
      exact h.record hready
    · next hsent =>
      cases hx
      rw [hsent] at hready
      exact h.record (hready.2.1.trans (by simp))
    · cases hx
  | restart =>
    cases hx
    exact inv_make _ h.saved

end Service

/-! ### What a gapless stream is -/

section Gapless

variable {base i : ℤ} {m : Sent n α β} {sent older newer : List (Sent n α β)}

theorem Sent.Next.lt {p : ℤ} (h : m.Next p) : p < m.msg.index := by
  unfold Sent.Next at h
  unfold ApplyMsg.index
  split at h
  · next hcommand =>
    obtain ⟨hindex, -, -⟩ := h
    rw [if_pos hcommand]
    omega
  · next hcommand =>
    rw [if_neg hcommand]
    exact h.2

/-- A command covers one index only, its own. -/
theorem Sent.Next.eq_of_le {p : ℤ} (h : m.Next p) (hcommand : m.msg.commandValid = true)
    (hlt : p < i) (hle : i ≤ m.msg.index) : m.msg.commandIndex = i := by
  unfold Sent.Next at h
  unfold ApplyMsg.index at hle
  rw [if_pos hcommand] at h hle
  obtain ⟨hindex, -, -⟩ := h
  omega

theorem Gapless.index_le_lastSent (h : Gapless base sent) :
    base ≤ lastSent base sent ∧ ∀ m ∈ sent, m.msg.index ≤ lastSent base sent := by
  induction sent with
  | nil => exact ⟨le_rfl, fun m hm => by cases hm⟩
  | cons m older ih =>
    obtain ⟨hbase, hle⟩ := ih h.2
    have hlt := h.1.lt
    refine ⟨hbase.trans hlt.le, fun m' hm' => ?_⟩
    rcases List.mem_cons.mp hm' with rfl | hm'
    · exact le_rfl
    · exact (hle m' hm').trans hlt.le

/-- **No index is delivered twice**: the indices of the messages go up. -/
theorem Gapless.pairwise (h : Gapless base sent) :
    sent.Pairwise fun m m' => m'.msg.index < m.msg.index := by
  induction sent with
  | nil => exact List.Pairwise.nil
  | cons m older ih =>
    refine List.Pairwise.cons (fun m' hm' => ?_) (ih h.2)
    exact (h.2.index_le_lastSent.2 m' hm').trans_lt h.1.lt

/-- **No index is skipped**: it is a command's own, or a snapshot goes from below it to it or
beyond. -/
theorem Gapless.exists_covering (h : Gapless base sent) (hlt : base < i)
    (hle : i ≤ lastSent base sent) :
    ∃ newer m older, sent = newer ++ m :: older ∧ lastSent base older < i ∧ i ≤ m.msg.index ∧
      (m.msg.commandValid = true → m.msg.commandIndex = i) := by
  induction sent with
  | nil =>
    have : i ≤ base := hle
    omega
  | cons m older ih =>
    rcases lt_or_ge (lastSent base older) i with hnew | hold
    · exact ⟨[], m, older, rfl, hnew, hle, fun hcommand => h.1.eq_of_le hcommand hnew hle⟩
    · obtain ⟨newer, m', older', rfl, hcover⟩ := ih h.2 hold
      exact ⟨m :: newer, m', older', rfl, hcover⟩

end Gapless

/-! ### Every run -/

/-- **The applier's stream.**  In every run in which the commit index stays within the log, the
messages since `Make` follow one another without a gap: no index is delivered twice, and none is
skipped but by a snapshot that covers it. -/
theorem apply_stream (me : Fin n) {s : Service n α β}
    (hs : ReachWhile Service.step (fun s _ => s.InLog) (Service.init me) s) :
    Gapless s.base s.sent ∧
      s.sent.Pairwise (fun m m' => m'.msg.index < m.msg.index) ∧
      ∀ i, s.base < i → i ≤ s.last →
        ∃ newer m older, s.sent = newer ++ m :: older ∧ lastSent s.base older < i ∧
          i ≤ m.msg.index ∧ (m.msg.commandValid = true → m.msg.commandIndex = i) := by
  have hinv : s.Inv :=
    hs.invariant (Service.inv_init me) fun _ _ _ ht hin hx => Service.inv_step ht hin hx
  exact ⟨hinv.gapless, hinv.gapless.pairwise, fun i hlt hle =>
    hinv.gapless.exists_covering hlt hle⟩

/-- Three entries come in, two of them committed; the applier copies both, and while it sends the
first, the log is cut and a snapshot up to 3 comes in. -/
def overtakenBatch : List (Service.Event 2 ℕ Unit) :=
  [.appendEntries
      { term := 1, leaderId := 1, prevLogIndex := 0, prevLogTerm := 0, leaderCommit := 2,
        entries := [⟨some 10, 1⟩, ⟨some 11, 1⟩, ⟨some 12, 1⟩] },
    .applierCopy, .applierSend, .snapshot 1 (some ()),
    .installSnapshot
      { term := 1, leaderId := 1, lastIncludedIndex := 3, lastIncludedTerm := 1, data := some () },
    .applierSend, .applierRecord, .applierCopy, .applierSend, .applierRecord]

theorem apply_stream_overtakenBatch : ∃ s : Service 2 ℕ Unit,
    run (restrict Service.step fun s _ => s.InLog) (Service.init 0) overtakenBatch = some s ∧
      s.sent.map (fun m => (m.msg.commandValid, m.msg.index)) =
        [(false, 3), (true, 2), (true, 1)] ∧ Gapless s.base s.sent := by
  have hobs : (run (restrict Service.step fun s _ => s.InLog) (Service.init 0) overtakenBatch).map
      (fun s => s.sent.map fun m => (m.msg.commandValid, m.msg.index)) =
      some [(false, 3), (true, 2), (true, 1)] := by decide +kernel
  obtain ⟨s, hs, hsent⟩ := Option.map_eq_some_iff.mp hobs
  exact ⟨s, hs, hsent, (apply_stream 0 (reachWhile_of_run _ _ _ hs)).1⟩

end ExchangeLabs.Raft
