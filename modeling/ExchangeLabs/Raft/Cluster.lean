import Mathlib.Logic.Function.Basic
import ExchangeLabs.Lib.Run
import ExchangeLabs.Raft.Server

/-!
# A cluster of Raft servers

The servers of one cluster with their goroutines, the RPCs between them and the
messages they have delivered.  Every event is one critical section under `rf.mu`
or one send on `applyCh`; between them anything may happen, in any order.

An RPC is a `Call`: its request waits until it is handled, its reply until it is
received, and either may wait for ever, which is how a lost message looks.  A
request is handled at most once and its reply received at most once.  The
goroutines of `broadcastHeartBeat` may run at any time, since the ticker of a
leader starts them again and again.

## Main definitions

* `Applier`, `copyBatch` — where the `applier` goroutine stands.
* `Cluster`, `Event`, `Cluster.step` — the states and the steps of a cluster.
* `Cluster.Stepped c e c'` — what a step does, one case for each outcome.
* `StaleReply c e` — the event `e` makes a leader believe a reply to an
  `AppendEntries` that it sent in another term than its present one.

## Main results

* `Cluster.stepped_of_step` — the inversion lemma.
-/

namespace ExchangeLabs.Raft

/-! ### The applier -/

/-- A message on `applyCh`. -/
structure ApplyMsg (α β : Type) where
  commandValid : Bool := false
  command : Option α := none
  commandIndex : ℤ := 0
  snapshotValid : Bool := false
  snapshot : Option β := none
  snapshotTerm : ℤ := 0
  snapshotIndex : ℤ := 0

/-- The index that a message brings the service to. -/
def ApplyMsg.index {α β : Type} (msg : ApplyMsg α β) : ℤ :=
  if msg.commandValid then msg.commandIndex else msg.snapshotIndex

/-- Where the `applier` goroutine stands. -/
inductive Applier (α β : Type)
  /-- Before its first critical section. -/
  | waiting
  /-- Sending a snapshot message. -/
  | sendSnapshot (msg : ApplyMsg α β) (newLastApplied : ℤ)
  /-- Sending the copied `entries`, the first of them for `index`. -/
  | sendEntries (index : ℤ) (entries : List (LogEntry α)) (lastIndex : ℤ)
  /-- Before the critical section that records what was sent. -/
  | sent (newLastApplied : ℤ)

namespace Server

variable {n : ℕ} {α β : Type}

/-- The applier has something to do. -/
def hasWork (rf : Server n α β) : Bool :=
  ¬ (rf.lastApplied ≥ rf.commitIndex ∧ rf.lastApplied ≥ rf.lastIncludedIndex)

/-- The entries the applier copies; none where its bounds test fails. -/
def copyEntries (rf : Server n α β) (firstIndex lastIndex : ℤ) : Option (List (LogEntry α)) :=
  let first := firstIndex - rf.lastIncludedIndex
  let last := lastIndex - rf.lastIncludedIndex + 1
  if firstIndex ≤ lastIndex ∧ first < rf.log.length ∧ last ≤ rf.log.length then
    subslice rf.log first last
  else some []

/-- The first critical section of the applier, once it has something to do. -/
def copyBatch (rf : Server n α β) : Option (Applier α β) :=
  if rf.lastApplied < rf.lastIncludedIndex then
    some (.sendSnapshot
      { snapshotValid := true
        snapshot := rf.persister.snapshot
        snapshotTerm := rf.lastIncludedTerm
        snapshotIndex := rf.lastIncludedIndex } rf.lastIncludedIndex)
  else do
    let firstIndex :=
      if rf.lastApplied + 1 ≤ rf.lastIncludedIndex then rf.lastIncludedIndex + 1
      else rf.lastApplied + 1
    let entries ← rf.copyEntries firstIndex rf.commitIndex
    some (.sendEntries firstIndex entries rf.commitIndex)

/-- The last critical section of the applier. -/
def recordApplied (rf : Server n α β) (newLastApplied : ℤ) : Server n α β :=
  { rf with
    lastApplied := if newLastApplied > rf.lastApplied then newLastApplied else rf.lastApplied }

end Server

/-! ### Clusters -/

/-- A remote procedure call with its reply, once it has been handled. -/
inductive Rpc (n : ℕ) (α β : Type)
  | requestVote (args : RequestVoteArgs n) (reply : Option RequestVoteReply)
  | appendEntries (args : AppendingEntriesArgs n α) (reply : Option AppendingEntriesReply)
  | installSnapshot (args : InstallSnapshotArgs n β) (reply : Option InstallSnapshotReply)

/-- A call in flight, made by the incarnation `epoch` of its caller. -/
structure Call (n : ℕ) (α β : Type) where
  caller : Fin n
  epoch : ℕ
  callee : Fin n
  rpc : Rpc n α β

/-- One server with its goroutines. -/
structure Node (n : ℕ) (α β : Type) where
  server : Server n α β
  /-- The counter that the goroutines of one election share, by its term. -/
  votesReceived : ℤ → ℕ
  applier : Applier α β
  /-- The goroutines about to run `sendInstallSnapshot`, by their target. -/
  installing : Fin n → ℕ
  /-- How often the server has been restarted. -/
  epoch : ℕ

/-- A message that the service of a server has received. -/
structure Delivery (n : ℕ) (α β : Type) where
  server : Fin n
  epoch : ℕ
  msg : ApplyMsg α β

structure Cluster (n : ℕ) (α β : Type) where
  nodes : Fin n → Node n α β
  calls : ℕ → Option (Call n α β)
  /-- The number of the next call. -/
  nextCall : ℕ
  /-- What has been received on the apply channels, the newest first. -/
  applied : List (Delivery n α β)

inductive Event (n : ℕ) (α β : Type)
  /-- The ticker of a server that is no leader starts an election. -/
  | electionTimeout (s : Fin n)
  /-- A goroutine of `broadcastHeartBeat` prepares its request. -/
  | heartbeat (s i : Fin n)
  /-- A goroutine in `sendInstallSnapshot` prepares its request. -/
  | sendInstallSnapshot (s i : Fin n)
  /-- The callee handles a request. -/
  | handle (id : ℕ)
  /-- The caller receives a reply. -/
  | receive (id : ℕ)
  /-- The service calls `Start`. -/
  | start (s : Fin n) (command : Option α)
  /-- The service calls `Snapshot` for an index that was delivered to it. -/
  | snapshot (s : Fin n) (index : ℤ) (data : Option β)
  | applierCopy (s : Fin n)
  | applierSend (s : Fin n)
  | applierRecord (s : Fin n)
  /-- The server crashes and is made again from its persister. -/
  | restart (s : Fin n)

/-! Clusters of two and of three servers are those of the runs on fixed events. -/

instance neZeroTwo : NeZero 2 := ⟨by decide⟩

instance neZeroThree : NeZero 3 := ⟨by decide⟩

namespace Node

variable {n : ℕ} {α β : Type}

/-- A node as `Make` starts it. -/
def make (me : Fin n) (persister : Persister n α β) (epoch : ℕ) : Node n α β where
  server := Server.make me persister
  votesReceived := fun _ => 0
  applier := .waiting
  installing := fun _ => 0
  epoch := epoch

end Node

namespace Cluster

variable {n : ℕ} {α β : Type}

/-- Every server freshly made, and nothing in flight. -/
def init : Cluster n α β where
  nodes := fun s => Node.make s { raftState := none, snapshot := none } 0
  calls := fun _ => none
  nextCall := 0
  applied := []

def setNode (c : Cluster n α β) (s : Fin n) (node : Node n α β) : Cluster n α β :=
  { c with nodes := Function.update c.nodes s node }

def setServer (c : Cluster n α β) (s : Fin n) (rf : Server n α β) : Cluster n α β :=
  c.setNode s { c.nodes s with server := rf }

def setCall (c : Cluster n α β) (id : ℕ) (call : Option (Call n α β)) : Cluster n α β :=
  { c with calls := Function.update c.calls id call }

/-- Server `s` calls the server `i`. -/
def addCall (c : Cluster n α β) (s i : Fin n) (rpc : Rpc n α β) : Cluster n α β :=
  { c.setCall c.nextCall (some { caller := s, epoch := (c.nodes s).epoch, callee := i, rpc := rpc })
    with nextCall := c.nextCall + 1 }

/-- Server `s` asks every other server for its vote. -/
def askVotes (c : Cluster n α β) (s : Fin n) (args : RequestVoteArgs n) : Cluster n α β :=
  (List.finRange n).foldl
    (fun c i => if i = s then c else c.addCall s i (.requestVote args none)) c

/-- A message reaches the service of the server `s`. -/
def deliver (c : Cluster n α β) (s : Fin n) (msg : ApplyMsg α β) : Cluster n α β :=
  { c with applied := { server := s, epoch := (c.nodes s).epoch, msg := msg } :: c.applied }

/-- The service of the server `s` has been brought to the index or beyond it. -/
def Delivered (c : Cluster n α β) (s : Fin n) (index : ℤ) : Prop :=
  ∃ d ∈ c.applied, d.server = s ∧ index ≤ d.msg.index

instance (c : Cluster n α β) (s : Fin n) (index : ℤ) : Decidable (c.Delivered s index) :=
  inferInstanceAs (Decidable (∃ d ∈ c.applied, d.server = s ∧ index ≤ d.msg.index))

/-- The callee of a call handles its request. -/
def handleCall (c : Cluster n α β) (id : ℕ) (call : Call n α β) : Option (Cluster n α β) :=
  let rf := (c.nodes call.callee).server
  match call.rpc with
  | .requestVote args none =>
    let (rf', reply) := rf.requestVote args
    some ((c.setServer call.callee rf').setCall id
      (some { call with rpc := .requestVote args (some reply) }))
  | .appendEntries args none => do
    let (rf', reply) ← rf.appendEntries args
    some ((c.setServer call.callee rf').setCall id
      (some { call with rpc := .appendEntries args (some reply) }))
  | .installSnapshot args none => do
    let (rf', reply) ← rf.installSnapshot args
    some ((c.setServer call.callee rf').setCall id
      (some { call with rpc := .installSnapshot args (some reply) }))
  | _ => none

/-- The incarnation of the caller that made a call receives its reply. -/
def receiveReply (c : Cluster n α β) (id : ℕ) (call : Call n α β) : Option (Cluster n α β) :=
  let node := c.nodes call.caller
  if node.epoch ≠ call.epoch then none
  else
    match call.rpc with
    | .requestVote args (some reply) =>
      let (rf, votes) := node.server.receiveVote (node.votesReceived args.term) args.term reply
      some ((c.setNode call.caller
        { node with
          server := rf
          votesReceived := Function.update node.votesReceived args.term votes }).setCall id none)
    | .appendEntries args (some reply) => do
      let rf ← node.server.receiveAppendEntries call.callee args reply
      some ((c.setServer call.caller rf).setCall id none)
    | .installSnapshot args (some reply) => do
      let rf ← node.server.receiveInstallSnapshot call.callee args reply
      some ((c.setServer call.caller rf).setCall id none)
    | _ => none

/-- One step of a cluster; `none` where the event cannot happen. -/
def step (c : Cluster n α β) : Event n α β → Option (Cluster n α β)
  | .electionTimeout s =>
    let node := c.nodes s
    if node.server.state = .leader then none
    else
      let (rf, args) := node.server.startElection
      some ((c.setNode s
        { node with
          server := rf
          votesReceived := Function.update node.votesReceived rf.currentTerm 1 }).askVotes s args)
  | .heartbeat s i =>
    let node := c.nodes s
    if i = s then none
    else do
      match ← node.server.buildAppendEntries i with
      | .nothing => some c
      | .snapshot =>
        some (c.setNode s
          { node with installing := Function.update node.installing i (node.installing i + 1) })
      | .append args => some (c.addCall s i (.appendEntries args none))
  | .sendInstallSnapshot s i =>
    let node := c.nodes s
    if node.installing i = 0 then none
    else
      let c := c.setNode s
        { node with installing := Function.update node.installing i (node.installing i - 1) }
      match node.server.buildInstallSnapshot with
      | none => some c
      | some args => some (c.addCall s i (.installSnapshot args none))
  | .handle id => do
    let call ← c.calls id
    c.handleCall id call
  | .receive id => do
    let call ← c.calls id
    c.receiveReply id call
  | .start s command => some (c.setServer s ((c.nodes s).server.start command).1)
  | .snapshot s index data =>
    if c.Delivered s index then do
      let rf ← (c.nodes s).server.takeSnapshot index data
      some (c.setServer s rf)
    else none
  | .applierCopy s =>
    let node := c.nodes s
    match node.applier with
    | .waiting =>
      if node.server.hasWork then do
        let applier ← node.server.copyBatch
        some (c.setNode s { node with applier := applier })
      else none
    | _ => none
  | .applierSend s =>
    let node := c.nodes s
    match node.applier with
    | .sendSnapshot msg newLastApplied =>
      some ((c.setNode s { node with applier := .sent newLastApplied }).deliver s msg)
    | .sendEntries index (entry :: entries) lastIndex =>
      some
        ((c.setNode s { node with applier := .sendEntries (index + 1) entries lastIndex }).deliver
        s { commandValid := true, command := entry.command, commandIndex := index })
    | _ => none
  | .applierRecord s =>
    let node := c.nodes s
    match node.applier with
    | .sent newLastApplied | .sendEntries _ [] newLastApplied =>
      some (c.setNode s
        { node with server := node.server.recordApplied newLastApplied, applier := .waiting })
    | _ => none
  | .restart s =>
    let node := c.nodes s
    some (c.setNode s (Node.make s node.server.persister (node.epoch + 1)))

/-- What a step can do. -/
inductive Stepped (c : Cluster n α β) : Event n α β → Cluster n α β → Prop
  | electionTimeout (s : Fin n) (hst : (c.nodes s).server.state ≠ .leader) :
    Stepped c (.electionTimeout s) ((c.setNode s { c.nodes s with
      server := (c.nodes s).server.startElection.1
      votesReceived := Function.update (c.nodes s).votesReceived
        (c.nodes s).server.startElection.1.currentTerm 1 }).askVotes s
          (c.nodes s).server.startElection.2)
  | nothing (s i : Fin n) : Stepped c (.heartbeat s i) c
  | needsSnapshot (s i : Fin n) (hne : i ≠ s)
    (hb : (c.nodes s).server.buildAppendEntries i = some .snapshot) :
    Stepped c (.heartbeat s i) (c.setNode s { c.nodes s with
      installing := Function.update (c.nodes s).installing i ((c.nodes s).installing i + 1) })
  | callAppendEntries (s i : Fin n) (hne : i ≠ s) (args : AppendingEntriesArgs n α)
    (hb : (c.nodes s).server.buildAppendEntries i = some (.append args)) :
    Stepped c (.heartbeat s i) (c.addCall s i (.appendEntries args none))
  | noSnapshot (s i : Fin n) (hpos : (c.nodes s).installing i ≠ 0) :
    Stepped c (.sendInstallSnapshot s i) (c.setNode s { c.nodes s with
      installing := Function.update (c.nodes s).installing i ((c.nodes s).installing i - 1) })
  | callInstallSnapshot (s i : Fin n) (hpos : (c.nodes s).installing i ≠ 0)
    (args : InstallSnapshotArgs n β)
    (hb : (c.nodes s).server.buildInstallSnapshot = some args) :
    Stepped c (.sendInstallSnapshot s i) ((c.setNode s { c.nodes s with
      installing :=
        Function.update (c.nodes s).installing i ((c.nodes s).installing i - 1) }).addCall
        s i (.installSnapshot args none))
  | requestVote (id : ℕ) (caller : Fin n) (epoch : ℕ) (callee : Fin n) (args : RequestVoteArgs n)
    (hid : c.calls id = some ⟨caller, epoch, callee, .requestVote args none⟩) :
    Stepped c (.handle id)
      ((c.setServer callee ((c.nodes callee).server.requestVote args).1).setCall
      id (some ⟨caller, epoch, callee,
        .requestVote args (some ((c.nodes callee).server.requestVote args).2)⟩))
  | appendEntries (id : ℕ) (caller : Fin n) (epoch : ℕ) (callee : Fin n)
    (args : AppendingEntriesArgs n α)
    (hid : c.calls id = some ⟨caller, epoch, callee, .appendEntries args none⟩)
    (rf' : Server n α β) (reply : AppendingEntriesReply)
    (hx : (c.nodes callee).server.appendEntries args = some (rf', reply)) :
    Stepped c (.handle id) ((c.setServer callee rf').setCall id
      (some ⟨caller, epoch, callee, .appendEntries args (some reply)⟩))
  | installSnapshot (id : ℕ) (caller : Fin n) (epoch : ℕ) (callee : Fin n)
    (args : InstallSnapshotArgs n β)
    (hid : c.calls id = some ⟨caller, epoch, callee, .installSnapshot args none⟩)
    (rf' : Server n α β) (reply : InstallSnapshotReply)
    (hx : (c.nodes callee).server.installSnapshot args = some (rf', reply)) :
    Stepped c (.handle id) ((c.setServer callee rf').setCall id
      (some ⟨caller, epoch, callee, .installSnapshot args (some reply)⟩))
  | receiveVote (id : ℕ) (caller callee : Fin n) (args : RequestVoteArgs n)
    (reply : RequestVoteReply)
    (hid : c.calls id =
      some ⟨caller, (c.nodes caller).epoch, callee, .requestVote args (some reply)⟩) :
    Stepped c (.receive id) ((c.setNode caller { c.nodes caller with
      server := ((c.nodes caller).server.receiveVote
        ((c.nodes caller).votesReceived args.term) args.term reply).1
      votesReceived := Function.update (c.nodes caller).votesReceived args.term
        ((c.nodes caller).server.receiveVote
          ((c.nodes caller).votesReceived args.term) args.term reply).2 }).setCall id none)
  | receiveAppendEntries (id : ℕ) (caller callee : Fin n) (args : AppendingEntriesArgs n α)
    (reply : AppendingEntriesReply)
    (hid : c.calls id =
      some ⟨caller, (c.nodes caller).epoch, callee, .appendEntries args (some reply)⟩)
    (rf' : Server n α β)
    (hx : (c.nodes caller).server.receiveAppendEntries callee args reply = some rf') :
    Stepped c (.receive id) ((c.setServer caller rf').setCall id none)
  | receiveInstallSnapshot (id : ℕ) (caller callee : Fin n) (args : InstallSnapshotArgs n β)
    (reply : InstallSnapshotReply)
    (hid : c.calls id =
      some ⟨caller, (c.nodes caller).epoch, callee, .installSnapshot args (some reply)⟩)
    (rf' : Server n α β)
    (hx : (c.nodes caller).server.receiveInstallSnapshot callee args reply = some rf') :
    Stepped c (.receive id) ((c.setServer caller rf').setCall id none)
  | start (s : Fin n) (command : Option α) :
    Stepped c (.start s command) (c.setServer s ((c.nodes s).server.start command).1)
  | takeSnapshot (s : Fin n) (index : ℤ) (data : Option β) (hd : c.Delivered s index)
    (rf' : Server n α β) (hx : (c.nodes s).server.takeSnapshot index data = some rf') :
    Stepped c (.snapshot s index data) (c.setServer s rf')
  | applierCopy (s : Fin n) (hw : (c.nodes s).server.hasWork = true) (applier : Applier α β)
    (hx : (c.nodes s).server.copyBatch = some applier) :
    Stepped c (.applierCopy s) (c.setNode s { c.nodes s with applier := applier })
  | deliverSnapshot (s : Fin n) (msg : ApplyMsg α β) (newLastApplied : ℤ)
    (happ : (c.nodes s).applier = .sendSnapshot msg newLastApplied) :
    Stepped c (.applierSend s)
      ((c.setNode s { c.nodes s with applier := .sent newLastApplied }).deliver s msg)
  | deliverEntry (s : Fin n) (index : ℤ) (entry : LogEntry α) (entries : List (LogEntry α))
    (lastIndex : ℤ) (happ : (c.nodes s).applier = .sendEntries index (entry :: entries) lastIndex) :
    Stepped c (.applierSend s)
      ((c.setNode s
        { c.nodes s with applier := .sendEntries (index + 1) entries lastIndex }).deliver
        s { commandValid := true, command := entry.command, commandIndex := index })
  | recordApplied (s : Fin n) (newLastApplied : ℤ)
    (happ : (c.nodes s).applier = .sent newLastApplied ∨
      ∃ index, (c.nodes s).applier = .sendEntries index [] newLastApplied) :
    Stepped c (.applierRecord s) (c.setNode s { c.nodes s with
      server := (c.nodes s).server.recordApplied newLastApplied, applier := .waiting })
  | restart (s : Fin n) :
    Stepped c (.restart s)
      (c.setNode s (Node.make s (c.nodes s).server.persister ((c.nodes s).epoch + 1)))

theorem stepped_of_handleCall {c c' : Cluster n α β} {id : ℕ} {call : Call n α β}
    (hid : c.calls id = some call) (hc' : c.handleCall id call = some c') :
    Stepped c (.handle id) c' := by
  obtain ⟨caller, epoch, callee, rpc⟩ := call
  cases rpc with
  | requestVote args reply =>
    cases reply with
    | some reply => cases hc'
    | none =>
      cases hc'
      exact .requestVote id caller epoch callee args hid
  | appendEntries args reply =>
    cases reply with
    | some reply => cases hc'
    | none =>
      obtain ⟨⟨rf', reply⟩, hx, hc'⟩ := Option.bind_eq_some_iff.mp hc'
      cases hc'
      exact .appendEntries id caller epoch callee args hid rf' reply hx
  | installSnapshot args reply =>
    cases reply with
    | some reply => cases hc'
    | none =>
      obtain ⟨⟨rf', reply⟩, hx, hc'⟩ := Option.bind_eq_some_iff.mp hc'
      cases hc'
      exact .installSnapshot id caller epoch callee args hid rf' reply hx

theorem stepped_of_receiveReply {c c' : Cluster n α β} {id : ℕ} {call : Call n α β}
    (hid : c.calls id = some call) (hc' : c.receiveReply id call = some c') :
    Stepped c (.receive id) c' := by
  unfold receiveReply at hc'
  dsimp only at hc'
  split at hc'
  · cases hc'
  -- a reply to an earlier incarnation is lost, so the caller is still the same
  next hepoch =>
  obtain ⟨caller, epoch, callee, rpc⟩ := call
  have hepoch' := not_not.mp hepoch
  dsimp only at *
  subst hepoch'
  cases rpc with
  | requestVote args reply =>
    cases reply with
    | none => cases hc'
    | some reply =>
      cases hc'
      exact .receiveVote id caller callee args reply hid
  | appendEntries args reply =>
    cases reply with
    | none => cases hc'
    | some reply =>
      obtain ⟨rf', hx, hc'⟩ := Option.bind_eq_some_iff.mp hc'
      cases hc'
      exact .receiveAppendEntries id caller callee args reply hid rf' hx
  | installSnapshot args reply =>
    cases reply with
    | none => cases hc'
    | some reply =>
      obtain ⟨rf', hx, hc'⟩ := Option.bind_eq_some_iff.mp hc'
      cases hc'
      exact .receiveInstallSnapshot id caller callee args reply hid rf' hx

/-- **The inversion lemma.** -/
theorem stepped_of_step {c c' : Cluster n α β} {e : Event n α β} (hc' : c.step e = some c') :
    Stepped c e c' := by
  cases e with
  | electionTimeout s =>
    simp only [step] at hc'
    split at hc'
    · cases hc'
    · next hst =>
      cases hc'
      exact .electionTimeout s hst
  | heartbeat s i =>
    simp only [step] at hc'
    split at hc'
    · cases hc'
    · next hne =>
      obtain ⟨hb, hbuild, hc'⟩ := Option.bind_eq_some_iff.mp hc'
      cases hb with
      | nothing =>
        cases hc'
        exact .nothing s i
      | snapshot =>
        cases hc'
        exact .needsSnapshot s i hne hbuild
      | append args =>
        cases hc'
        exact .callAppendEntries s i hne args hbuild
  | sendInstallSnapshot s i =>
    simp only [step] at hc'
    split at hc'
    · cases hc'
    next hpos =>
    split at hc'
    · cases hc'
      exact .noSnapshot s i hpos
    · next args hbuild =>
      cases hc'
      exact .callInstallSnapshot s i hpos args hbuild
  | handle id =>
    obtain ⟨call, hid, hc'⟩ := Option.bind_eq_some_iff.mp hc'
    exact stepped_of_handleCall hid hc'
  | receive id =>
    obtain ⟨call, hid, hc'⟩ := Option.bind_eq_some_iff.mp hc'
    exact stepped_of_receiveReply hid hc'
  | start s command =>
    cases hc'
    exact .start s command
  | snapshot s index data =>
    simp only [step] at hc'
    split at hc'
    · next hd =>
      obtain ⟨rf', hx, hc'⟩ := Option.bind_eq_some_iff.mp hc'
      cases hc'
      exact .takeSnapshot s index data hd rf' hx
    · cases hc'
  | applierCopy s =>
    simp only [step] at hc'
    split at hc'
    · split at hc'
      · next hw =>
        obtain ⟨applier, hx, hc'⟩ := Option.bind_eq_some_iff.mp hc'
        cases hc'
        exact .applierCopy s hw applier hx
      · cases hc'
    · cases hc'
  | applierSend s =>
    simp only [step] at hc'
    split at hc'
    · next msg newLastApplied happ =>
      cases hc'
      exact .deliverSnapshot s msg newLastApplied happ
    · next index entry entries lastIndex happ =>
      cases hc'
      exact .deliverEntry s index entry entries lastIndex happ
    · cases hc'
  | applierRecord s =>
    simp only [step] at hc'
    split at hc'
    · next newLastApplied happ =>
      cases hc'
      exact .recordApplied s newLastApplied (Or.inl happ)
    · next index newLastApplied happ =>
      cases hc'
      exact .recordApplied s newLastApplied (Or.inr ⟨index, happ⟩)
    · cases hc'
  | restart s =>
    cases hc'
    exact .restart s

/-- The event raises an entry of `matchIndex`, in a server that is a leader, for a
reply to an `AppendEntries` that it sent in another term than its present one. -/
def StaleReply (c : Cluster n α β) : Event n α β → Prop
  | .receive id =>
    match c.calls id with
    | some { caller := s, epoch := _, callee := i, rpc := .appendEntries args (some reply) } =>
      let rf := (c.nodes s).server
      rf.state = .leader ∧ reply.term ≤ rf.currentTerm ∧ args.term ≠ rf.currentTerm ∧
        reply.success = true ∧ args.prevLogIndex + args.entries.length > rf.matchIndex i
    | _ => False
  | _ => False

instance (c : Cluster n α β) (e : Event n α β) : Decidable (c.StaleReply e) := by
  unfold StaleReply
  split
  · split <;> infer_instance
  · infer_instance

end Cluster

end ExchangeLabs.Raft
