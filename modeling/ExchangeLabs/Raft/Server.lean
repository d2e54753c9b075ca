import Mathlib.Data.List.FinRange
import ExchangeLabs.Lib.Slice

/-!
# One Raft server

The state of a server and its lock-protected critical sections: `raft.go` of the
single-machine lab, one definition a function.  A critical section that indexes
or reslices `rf.log` out of range panics in Go; here it returns `none`.

Integers are unbounded (`int` is 64 bits in the source, and terms and indices
only count up from zero), `-1` as "no vote" is `none`, and the clock
(`lastHeartBeat`, `electionTimeout`, `lastBroadcastTime`) is left out: what it
decides is when the ticker acts, and here it may act at any time.

## Main definitions

* `Server n α β` — the state of a server of a cluster of `n`, with commands `α`
  and snapshots `β`; `Persister` is what survives a crash.
* `appendEntries`, `requestVote`, `installSnapshot` — the RPC handlers.
* `startElection`, `receiveVote`, `buildAppendEntries`, `receiveAppendEntries`,
  `buildInstallSnapshot`, `receiveInstallSnapshot`, `checkCommit` — the sending
  side, cut at the points where the source gives up the lock.
* `start`, `takeSnapshot`, `make` — the calls of the service.
-/

namespace ExchangeLabs.Raft

/-! ### Data -/

/-- `LogEntry`; a command is an `interface{}`, so it may be `nil`. -/
structure LogEntry (α : Type) where
  command : Option α
  term : ℤ
  deriving DecidableEq, Repr

/-- The numerical states `StateFollower`, `StateCandidate` and `StateLeader`. -/
inductive State
  | follower
  | candidate
  | leader
  deriving DecidableEq, Repr

/-- The five values that `persist` encodes, in its order. -/
structure Persisted (n : ℕ) (α : Type) where
  currentTerm : ℤ
  votedFor : Option (Fin n)
  log : List (LogEntry α)
  lastIncludedIndex : ℤ
  lastIncludedTerm : ℤ
  deriving DecidableEq

/-- The stable storage of a server: the last saved state, if any, and the last
saved snapshot, `none` for `nil`. -/
structure Persister (n : ℕ) (α β : Type) where
  raftState : Option (Persisted n α)
  snapshot : Option β
  deriving DecidableEq

/-- The fields of `Raft` that the critical sections use. -/
structure Server (n : ℕ) (α β : Type) where
  me : Fin n
  currentTerm : ℤ
  votedFor : Option (Fin n)
  log : List (LogEntry α)
  commitIndex : ℤ
  lastApplied : ℤ
  nextIndex : Fin n → ℤ
  matchIndex : Fin n → ℤ
  state : State
  lastIncludedIndex : ℤ
  lastIncludedTerm : ℤ
  persister : Persister n α β

structure AppendingEntriesArgs (n : ℕ) (α : Type) where
  term : ℤ
  leaderId : Fin n
  prevLogIndex : ℤ
  prevLogTerm : ℤ
  entries : List (LogEntry α)
  leaderCommit : ℤ
  deriving DecidableEq

/-- The reply to `AppendEntries`; fields the handler leaves alone are zero. -/
structure AppendingEntriesReply where
  term : ℤ
  conflictTerm : ℤ := 0
  conflictIndex : ℤ := 0
  success : Bool
  deriving DecidableEq

structure RequestVoteArgs (n : ℕ) where
  term : ℤ
  candidateId : Fin n
  lastLogIndex : ℤ
  lastLogTerm : ℤ
  deriving DecidableEq

structure RequestVoteReply where
  term : ℤ
  voteGranted : Bool
  deriving DecidableEq

structure InstallSnapshotArgs (n : ℕ) (β : Type) where
  term : ℤ
  leaderId : Fin n
  lastIncludedIndex : ℤ
  lastIncludedTerm : ℤ
  data : Option β
  deriving DecidableEq

structure InstallSnapshotReply where
  term : ℤ
  deriving DecidableEq

namespace Server

variable {n : ℕ} {α β : Type}

/-! ### Log access -/

/-- The logical index of the last log entry. -/
def getLastLogIndex (rf : Server n α β) : ℤ := rf.lastIncludedIndex + rf.log.length - 1

/-- The term of the last log entry. -/
def getLastLogTerm (rf : Server n α β) : ℤ :=
  match rf.log.getLast? with
  | none => rf.lastIncludedTerm
  | some e => e.term

/-- The term of the entry at a logical index. -/
def getLogTerm (rf : Server n α β) (logicalIndex : ℤ) : Option ℤ :=
  if logicalIndex < rf.lastIncludedIndex then some (-1)
  else if logicalIndex = rf.lastIncludedIndex then some rf.lastIncludedTerm
  else (elemAt rf.log (logicalIndex - rf.lastIncludedIndex)).map LogEntry.term

/-! ### Stable storage -/

/-- The values that `persist` encodes. -/
def toPersisted (rf : Server n α β) : Persisted n α where
  currentTerm := rf.currentTerm
  votedFor := rf.votedFor
  log := rf.log
  lastIncludedIndex := rf.lastIncludedIndex
  lastIncludedTerm := rf.lastIncludedTerm

/-- Save the state and the given snapshot. -/
def save (rf : Server n α β) (snapshot : Option β) : Server n α β :=
  { rf with persister := { raftState := some rf.toPersisted, snapshot := snapshot } }

/-- Save the state and keep the snapshot that is there. -/
def persist (rf : Server n α β) : Server n α β := rf.save rf.persister.snapshot

/-- Restore what was saved, if anything was. -/
def readPersist (rf : Server n α β) : Server n α β :=
  match rf.persister.raftState with
  | none => rf
  | some p =>
    { rf with
      currentTerm := p.currentTerm
      votedFor := p.votedFor
      log := p.log
      lastIncludedIndex := p.lastIncludedIndex
      lastIncludedTerm := p.lastIncludedTerm }

/-- The values of `Make` before it reads the persister. -/
def initial (me : Fin n) (persister : Persister n α β) : Server n α β where
  me := me
  currentTerm := 0
  votedFor := none
  log := [{ command := none, term := 0 }]
  commitIndex := 0
  lastApplied := 0
  nextIndex := fun _ => 0
  matchIndex := fun _ => 0
  state := .follower
  lastIncludedIndex := 0
  lastIncludedTerm := 0
  persister := persister

/-- `Make`: a server restarted from its persister. -/
def make (me : Fin n) (persister : Persister n α β) : Server n α β :=
  let rf := (initial me persister).readPersist
  if rf.lastIncludedIndex > 0 then
    { rf with lastApplied := rf.lastIncludedIndex, commitIndex := rf.lastIncludedIndex }
  else rf

/-- What every handler does on a term later than its own. -/
def stepDown (rf : Server n α β) (term : ℤ) : Server n α β :=
  { rf with currentTerm := term, state := .follower, votedFor := none }

/-! ### AppendEntries -/

/-- The backward scan for the first index of the conflicting term `t`, starting
`k` above `lastIncludedIndex`; the result is the index where it stops. -/
def scanConflict (rf : Server n α β) (t : ℤ) : ℕ → Option ℤ
  | 0 => some rf.lastIncludedIndex
  | k + 1 => do
    let u ← rf.getLogTerm (rf.lastIncludedIndex + (k + 1))
    if u = t then scanConflict rf t k else some (rf.lastIncludedIndex + (k + 1))

/-- The loop over the entries of a request, the first of them at `index`. -/
def mergeEntries (rf : Server n α β) (index : ℤ) :
    List (LogEntry α) → Option (Server n α β)
  | [] => some rf
  | entry :: entries =>
    if index ≤ rf.getLastLogIndex then do
      let t ← rf.getLogTerm index
      -- the source makes this test twice, with nothing in between
      if t ≠ entry.term then
        let kept ← subslice rf.log 0 (index - rf.lastIncludedIndex)
        some { rf with log := kept ++ entry :: entries }
      else mergeEntries rf (index + 1) entries
    else mergeEntries { rf with log := rf.log ++ [entry] } (index + 1) entries

/-- The commit index after a successful request. -/
def advanceCommit (rf : Server n α β) (args : AppendingEntriesArgs n α) : Server n α β :=
  if args.leaderCommit > rf.commitIndex then
    let lastNewIndex := args.prevLogIndex + args.entries.length
    { rf with
      commitIndex := if args.leaderCommit < lastNewIndex then args.leaderCommit else lastNewIndex }
  else rf

/-- The handler of `AppendEntries` from where the terms agree. -/
def appendEntriesLog (rf : Server n α β) (args : AppendingEntriesArgs n α) :
    Option (Server n α β × AppendingEntriesReply) :=
  -- Case A: the request is behind the snapshot
  if args.prevLogIndex < rf.lastIncludedIndex then
    some (rf, { term := rf.currentTerm, success := false, conflictTerm := -1,
                conflictIndex := rf.lastIncludedIndex + 1 })
  -- Case B: it is beyond the log
  else if args.prevLogIndex > rf.getLastLogIndex then
    some (rf, { term := rf.currentTerm, success := false, conflictTerm := -1,
                conflictIndex := rf.getLastLogIndex + 1 })
  else do
    let t ← rf.getLogTerm args.prevLogIndex
    -- Case C: another term at its index
    if t ≠ args.prevLogTerm then
      let index ← rf.scanConflict t (args.prevLogIndex - rf.lastIncludedIndex).toNat
      some (rf, { term := rf.currentTerm, success := false, conflictTerm := t,
                  conflictIndex := index + 1 })
    else
      let rf' ← rf.mergeEntries (args.prevLogIndex + 1) args.entries
      some (rf'.advanceCommit args, { term := rf.currentTerm, success := true })

/-- The term and state a request of a term not before its own leaves a server in. -/
def acceptTerm (rf : Server n α β) (term : ℤ) : Server n α β :=
  let rf := if term > rf.currentTerm then rf.stepDown term else rf
  if rf.state = .candidate then { rf with state := .follower } else rf

/-- The handler of `AppendEntries`; it persists on every path. -/
def appendEntries (rf : Server n α β) (args : AppendingEntriesArgs n α) :
    Option (Server n α β × AppendingEntriesReply) :=
  if args.term < rf.currentTerm then
    some (rf.persist, { term := rf.currentTerm, success := false })
  else do
    let (rf', reply) ← (rf.acceptTerm args.term).appendEntriesLog args
    some (rf'.persist, reply)

/-! ### RequestVote -/

/-- The candidate's log is at least as new as ours. -/
def logOK (rf : Server n α β) (args : RequestVoteArgs n) : Bool :=
  args.lastLogTerm > rf.getLastLogTerm ||
    (args.lastLogTerm = rf.getLastLogTerm && args.lastLogIndex ≥ rf.getLastLogIndex)

/-- The handler of `RequestVote`; it persists on every path. -/
def requestVote (rf : Server n α β) (args : RequestVoteArgs n) :
    Server n α β × RequestVoteReply :=
  if args.term < rf.currentTerm then
    (rf.persist, { term := rf.currentTerm, voteGranted := false })
  else
    let rf := if args.term > rf.currentTerm then rf.stepDown args.term else rf
    if (rf.votedFor = none ∨ rf.votedFor = some args.candidateId) ∧ rf.logOK args then
      ({ rf with votedFor := some args.candidateId }.persist,
        { term := rf.currentTerm, voteGranted := true })
    else (rf.persist, { term := rf.currentTerm, voteGranted := false })

/-! ### InstallSnapshot -/

/-- Our log has an entry of the snapshot's last term at its last index. -/
def hasEntry (rf : Server n α β) (args : InstallSnapshotArgs n β) : Option Bool :=
  if args.lastIncludedIndex ≤ rf.getLastLogIndex then do
    let t ← rf.getLogTerm args.lastIncludedIndex
    some (t = args.lastIncludedTerm)
  else some false

/-- The log after a snapshot up to the physical index `offset`, behind a dummy
entry of the given term. -/
def trimLog (rf : Server n α β) (offset : ℤ) (term : ℤ) : Option (List (LogEntry α)) :=
  if offset + 1 < rf.log.length then do
    let rest ← subslice rf.log (offset + 1) rf.log.length
    some ({ command := none, term := term } :: rest)
  else some [{ command := none, term := term }]

/-- The log after a snapshot is installed: what follows its last entry, if we
have that, and otherwise nothing. -/
def snapshotLog (rf : Server n α β) (args : InstallSnapshotArgs n β) :
    Option (List (LogEntry α)) := do
  if ← rf.hasEntry args then
    rf.trimLog (args.lastIncludedIndex - rf.lastIncludedIndex) args.lastIncludedTerm
  else some [{ command := none, term := args.lastIncludedTerm }]

/-- The handler of `InstallSnapshot` from where the terms agree. -/
def installSnapshotLog (rf : Server n α β) (args : InstallSnapshotArgs n β) :
    Option (Server n α β) :=
  if args.lastIncludedIndex ≤ rf.lastIncludedIndex then some rf
  else do
    let log ← rf.snapshotLog args
    some (save
      { rf with
        log := log
        lastIncludedIndex := args.lastIncludedIndex
        lastIncludedTerm := args.lastIncludedTerm
        commitIndex :=
          if rf.commitIndex < args.lastIncludedIndex then args.lastIncludedIndex
          else rf.commitIndex } args.data)

/-- The handler of `InstallSnapshot`. -/
def installSnapshot (rf : Server n α β) (args : InstallSnapshotArgs n β) :
    Option (Server n α β × InstallSnapshotReply) :=
  if args.term < rf.currentTerm then some (rf, { term := rf.currentTerm })
  else do
    let rf := if args.term > rf.currentTerm then (rf.stepDown args.term).persist else rf
    let reply : InstallSnapshotReply := { term := rf.currentTerm }
    let rf := if rf.state = .candidate then { rf with state := .follower } else rf
    let rf' ← rf.installSnapshotLog args
    some (rf', reply)

/-! ### Elections -/

/-- `startElection` up to the requests it sends, which are all the same. -/
def startElection (rf : Server n α β) : Server n α β × RequestVoteArgs n :=
  let rf := persist
    { rf with
      state := .candidate
      currentTerm := rf.currentTerm + 1
      votedFor := some rf.me }
  (rf, { term := rf.currentTerm, candidateId := rf.me,
         lastLogIndex := rf.getLastLogIndex, lastLogTerm := rf.getLastLogTerm })

/-- What a candidate that has won sets up. -/
def becomeLeader (rf : Server n α β) : Server n α β :=
  let last := rf.getLastLogIndex
  { rf with
    state := .leader
    nextIndex := fun _ => last + 1
    matchIndex := Function.update (fun _ => rf.lastIncludedIndex) rf.me last }

/-- A vote reply of the election of `term`, which has received `votesReceived`
votes so far. -/
def receiveVote (rf : Server n α β) (votesReceived : ℕ) (term : ℤ) (reply : RequestVoteReply) :
    Server n α β × ℕ :=
  if rf.currentTerm ≠ term ∨ rf.state ≠ .candidate then (rf, votesReceived)
  else if reply.term > rf.currentTerm then ((rf.stepDown reply.term).persist, votesReceived)
  else if reply.voteGranted then
    if votesReceived + 1 > n / 2 then (rf.becomeLeader, votesReceived + 1)
    else (rf, votesReceived + 1)
  else (rf, votesReceived)

/-! ### Replication -/

/-- The servers other than `me` known to hold the log up to `N`, and `me`. -/
def countMatch (rf : Server n α β) (N : ℤ) : ℕ :=
  1 + (List.finRange n).countP fun i => i ≠ rf.me && decide (rf.matchIndex i ≥ N)

/-- The loop of `checkCommit`, at `k` above the commit index. -/
def scanCommit (rf : Server n α β) : ℕ → Option (Server n α β)
  | 0 => some rf
  | k + 1 =>
    let N := rf.commitIndex + (k + 1)
    if N ≤ rf.lastIncludedIndex then some rf
    else if rf.countMatch N > n / 2 then do
      let t ← rf.getLogTerm N
      if t = rf.currentTerm then some { rf with commitIndex := N } else scanCommit rf k
    else scanCommit rf k

/-- Commit the highest entry of our term that a majority holds. -/
def checkCommit (rf : Server n α β) : Option (Server n α β) :=
  if rf.state ≠ .leader then some rf
  else rf.scanCommit (rf.getLastLogIndex - rf.commitIndex).toNat

/-- What a goroutine of `broadcastHeartBeat` decides to send. -/
inductive Heartbeat (n : ℕ) (α : Type)
  /-- We are no leader. -/
  | nothing
  /-- The follower needs entries that we have discarded. -/
  | snapshot
  | append (args : AppendingEntriesArgs n α)

/-- The entries from the next index of a follower on, never the dummy one. -/
def pendingEntries (rf : Server n α β) (server : Fin n) : Option (List (LogEntry α)) :=
  if rf.getLastLogIndex > rf.nextIndex server - 1 then
    let nextPhys := rf.nextIndex server - rf.lastIncludedIndex
    subslice rf.log (if nextPhys < 1 then 1 else nextPhys) rf.log.length
  else some []

/-- The first critical section of `broadcastHeartBeat` for one server. -/
def buildAppendEntries (rf : Server n α β) (server : Fin n) : Option (Heartbeat n α) :=
  if rf.state ≠ .leader then some .nothing
  else
    let prevLogIndex := rf.nextIndex server - 1
    if prevLogIndex < rf.lastIncludedIndex then some .snapshot
    else do
      let prevLogTerm ← rf.getLogTerm prevLogIndex
      let entries ← rf.pendingEntries server
      some (.append
        { term := rf.currentTerm
          leaderId := rf.me
          prevLogIndex := prevLogIndex
          prevLogTerm := prevLogTerm
          entries := entries
          leaderCommit := rf.commitIndex })

/-- The last physical index below `i` of an entry of the term `t`, or `-1`. -/
def lastIndexOfTerm (log : List (LogEntry α)) (t : ℤ) : ℕ → ℤ
  | 0 => -1
  | i + 1 => if log[i]?.map LogEntry.term = some t then i else lastIndexOfTerm log t i

/-- The next index for a follower that rejected a request. -/
def conflictNext (rf : Server n α β) (reply : AppendingEntriesReply) : ℤ :=
  if reply.conflictTerm = -1 then reply.conflictIndex
  else
    let lastIndex := lastIndexOfTerm rf.log reply.conflictTerm rf.log.length
    if lastIndex ≠ -1 then lastIndex + rf.lastIncludedIndex + 1 else reply.conflictIndex

/-- The second critical section of `broadcastHeartBeat`: the reply to `args`.
Unlike `receiveInstallSnapshot` it never compares `args.term` with our term. -/
def receiveAppendEntries (rf : Server n α β) (server : Fin n) (args : AppendingEntriesArgs n α)
    (reply : AppendingEntriesReply) : Option (Server n α β) :=
  if reply.term > rf.currentTerm then some (rf.stepDown reply.term).persist
  else if rf.state ≠ .leader then some rf
  else if reply.success then
    let newMatchIndex := args.prevLogIndex + args.entries.length
    if newMatchIndex > rf.matchIndex server then
      checkCommit
        { rf with
          matchIndex := Function.update rf.matchIndex server newMatchIndex
          nextIndex := Function.update rf.nextIndex server (newMatchIndex + 1) }
    else some rf
  else
    some { rf with nextIndex := Function.update rf.nextIndex server (rf.conflictNext reply) }

/-- The first critical section of `sendInstallSnapshot`. -/
def buildInstallSnapshot (rf : Server n α β) : Option (InstallSnapshotArgs n β) :=
  if rf.state ≠ .leader then none
  else some
    { term := rf.currentTerm
      leaderId := rf.me
      lastIncludedIndex := rf.lastIncludedIndex
      lastIncludedTerm := rf.lastIncludedTerm
      data := rf.persister.snapshot }

/-- The second critical section of `sendInstallSnapshot`: the reply to `args`. -/
def receiveInstallSnapshot (rf : Server n α β) (server : Fin n) (args : InstallSnapshotArgs n β)
    (reply : InstallSnapshotReply) : Option (Server n α β) :=
  if reply.term > rf.currentTerm then some (rf.stepDown reply.term).persist
  else if rf.state ≠ .leader ∨ rf.currentTerm ≠ args.term then some rf
  else
    checkCommit
      { rf with
        matchIndex :=
          if rf.matchIndex server < args.lastIncludedIndex then
            Function.update rf.matchIndex server args.lastIncludedIndex
          else rf.matchIndex
        nextIndex :=
          if rf.nextIndex server < args.lastIncludedIndex + 1 then
            Function.update rf.nextIndex server (args.lastIncludedIndex + 1)
          else rf.nextIndex }

/-! ### Calls of the service -/

/-- `Start`: the index, the term, and whether we are the leader. -/
def start (rf : Server n α β) (command : Option α) : Server n α β × ℤ × ℤ × Bool :=
  if rf.state ≠ .leader then (rf, -1, -1, false)
  else
    (persist { rf with log := rf.log ++ [{ command := command, term := rf.currentTerm }] },
      rf.getLastLogIndex + 1, rf.currentTerm, true)

/-- `Snapshot`: the service has all up to `index` in `snapshot`. -/
def takeSnapshot (rf : Server n α β) (index : ℤ) (snapshot : Option β) :
    Option (Server n α β) :=
  if index ≤ rf.lastIncludedIndex then some rf
  else do
    let index := if index > rf.getLastLogIndex then rf.getLastLogIndex else index
    let cutoffOffset := index - rf.lastIncludedIndex
    let e ← elemAt rf.log cutoffOffset
    let log ← rf.trimLog cutoffOffset e.term
    some (save
      { rf with log := log, lastIncludedIndex := index, lastIncludedTerm := e.term } snapshot)

end Server

end ExchangeLabs.Raft
