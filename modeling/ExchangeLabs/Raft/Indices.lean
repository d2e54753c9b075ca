import ExchangeLabs.Raft.Actions
import ExchangeLabs.Raft.Agreement
import ExchangeLabs.Raft.Durability

/-!
# The order of the indices

A server's snapshot and what it has applied stay below its commit index, the commit
index below the end of its log, and between two restarts neither the commit index nor
what has been applied goes back.  That the commit index stays inside the log rests on
state machine safety, and that `AppendEntries` never lowers it on the leader sending
its log to the end.

## Main definitions

* `Server.Onward rf rf'` — nothing has gone back, and no snapshot is beyond the commit index.
* `Indexed c` — the order of the indices, with what the applier and the calls carry.
* `Cluster.OwnSnapshot c e` — `Snapshot` is called for what this incarnation delivered.

## Main results

* `Cluster.Acted.onward` — what each critical section does to the indices.
* `index_order` — **the indices are ordered and do not go back**, in runs without stale
  replies.
* `not_commitIndex_le` — one stale reply puts the commit index beyond the log.
-/

namespace ExchangeLabs.Raft

open History

variable {n : ℕ} {α β : Type} {c c' : Cluster n α β} {h h' : Logs n α} {s : Fin n}

namespace Server

variable {rf rf' : Server n α β}

/-! ### What the critical sections do to the indices -/

/-- The commit index has not gone back, what is applied is the same, and the snapshot is
the same or within what is committed. -/
structure Onward (rf rf' : Server n α β) : Prop where
  commitIndex : rf.commitIndex ≤ rf'.commitIndex
  lastApplied : rf'.lastApplied = rf.lastApplied
  snapshot : rf'.lastIncludedIndex = rf.lastIncludedIndex ∨
    rf'.lastIncludedIndex ≤ rf'.commitIndex

theorem Onward.refl (rf : Server n α β) : rf.Onward rf := ⟨le_rfl, rfl, Or.inl rfl⟩

theorem Onward.trans {rf'' : Server n α β} (h₁ : rf.Onward rf') (h₂ : rf'.Onward rf'') :
    rf.Onward rf'' where
  commitIndex := h₁.commitIndex.trans h₂.commitIndex
  lastApplied := h₂.lastApplied.trans h₁.lastApplied
  snapshot := by
    rcases h₂.snapshot with hsame | hin
    · rw [hsame]
      rcases h₁.snapshot with hsame | hin
      · exact Or.inl hsame
      · exact Or.inr (hin.trans h₂.commitIndex)
    · exact Or.inr hin

/-- A step that does not name the indices. -/
theorem onward_of_eq (hcommit : rf'.commitIndex = rf.commitIndex)
    (happlied : rf'.lastApplied = rf.lastApplied)
    (hsnap : rf'.lastIncludedIndex = rf.lastIncludedIndex) : rf.Onward rf' :=
  ⟨hcommit.ge, happlied, Or.inl hsnap⟩

theorem onward_stepDown_persist (rf : Server n α β) (term : ℤ) :
    rf.Onward (rf.stepDown term).persist := onward_of_eq rfl rfl rfl

theorem onward_acceptTerm (rf : Server n α β) (term : ℤ) : rf.Onward (rf.acceptTerm term) := by
  unfold acceptTerm
  dsimp only
  split_ifs <;> exact onward_of_eq rfl rfl rfl

theorem onward_requestVote (rf : Server n α β) (args : RequestVoteArgs n) :
    rf.Onward (rf.requestVote args).1 := by
  unfold requestVote
  dsimp only
  split_ifs <;> exact onward_of_eq rfl rfl rfl

/-- A request that reaches up to the leader's commit index moves that of the follower up. -/
theorem onward_advanceCommit (rf : Server n α β) {args : AppendingEntriesArgs n α}
    (hreach : args.leaderCommit ≤ args.prevLogIndex + args.entries.length) :
    rf.Onward (rf.advanceCommit args) := by
  unfold advanceCommit
  split
  · next hmore =>
    refine ⟨?_, rfl, Or.inl rfl⟩
    show rf.commitIndex ≤ if args.leaderCommit < args.prevLogIndex + args.entries.length then
      args.leaderCommit else args.prevLogIndex + args.entries.length
    split <;> omega
  · exact Onward.refl rf

theorem onward_appendEntriesLog {args : AppendingEntriesArgs n α} {reply : AppendingEntriesReply}
    (hreach : args.leaderCommit ≤ args.prevLogIndex + args.entries.length)
    (hx : rf.appendEntriesLog args = some (rf', reply)) : rf.Onward rf' := by
  unfold appendEntriesLog at hx
  split_ifs at hx
  · cases hx
    exact Onward.refl _
  · cases hx
    exact Onward.refl _
  obtain ⟨t, -, hx⟩ := Option.bind_eq_some_iff.mp hx
  split_ifs at hx
  · obtain ⟨i, -, hx⟩ := Option.bind_eq_some_iff.mp hx
    cases hx
    exact Onward.refl _
  · obtain ⟨rf₁, hmerge, hx⟩ := Option.bind_eq_some_iff.mp hx
    cases hx
    have hlog : rf.Onward rf₁ := by
      rw [mergeEntries_fields _ _ _ _ hmerge]
      exact onward_of_eq rfl rfl rfl
    exact hlog.trans (onward_advanceCommit rf₁ hreach)

theorem onward_appendEntries {args : AppendingEntriesArgs n α} {reply : AppendingEntriesReply}
    (hreach : args.leaderCommit ≤ args.prevLogIndex + args.entries.length)
    (hx : rf.appendEntries args = some (rf', reply)) : rf.Onward rf' := by
  unfold appendEntries at hx
  split at hx
  · cases hx
    exact onward_of_eq rfl rfl rfl
  · obtain ⟨⟨rf₁, reply₁⟩, hlog, hx⟩ := Option.bind_eq_some_iff.mp hx
    cases hx
    exact ((onward_acceptTerm rf _).trans (onward_appendEntriesLog hreach hlog)).trans
      (onward_of_eq rfl rfl rfl)

/-- A snapshot that is installed is committed. -/
theorem onward_installSnapshotLog {args : InstallSnapshotArgs n β}
    (hx : rf.installSnapshotLog args = some rf') : rf.Onward rf' := by
  unfold installSnapshotLog at hx
  split at hx
  · cases hx
    exact Onward.refl rf
  · obtain ⟨log, -, hx⟩ := Option.bind_eq_some_iff.mp hx
    cases hx
    refine ⟨?_, rfl, Or.inr ?_⟩
    · show rf.commitIndex ≤ if _ then _ else _
      split <;> omega
    · show args.lastIncludedIndex ≤ if _ then _ else _
      split <;> omega

theorem onward_installSnapshot {args : InstallSnapshotArgs n β} {reply : InstallSnapshotReply}
    (hx : rf.installSnapshot args = some (rf', reply)) : rf.Onward rf' := by
  unfold installSnapshot at hx
  split at hx
  · cases hx
    exact Onward.refl rf
  obtain ⟨rf₂, hlog, hx⟩ := Option.bind_eq_some_iff.mp hx
  cases hx
  refine Onward.trans ?_ (onward_installSnapshotLog hlog)
  split_ifs <;> exact onward_of_eq rfl rfl rfl

theorem onward_receiveVote (rf : Server n α β) (votesReceived : ℕ) (term : ℤ)
    (reply : RequestVoteReply) : rf.Onward (rf.receiveVote votesReceived term reply).1 := by
  unfold receiveVote
  split_ifs <;> exact onward_of_eq rfl rfl rfl

/-- **`checkCommit`** only looks above the commit index. -/
theorem onward_checkCommit (hx : rf.checkCommit = some rf') : rf.Onward rf' := by
  have hscan : ∀ k : ℕ, ∀ rf', rf.scanCommit k = some rf' → rf.Onward rf' := by
    intro k
    -- on the number of indices above the commit index that are still to be tried
    induction k with
    | zero =>
      intro rf' hx
      cases hx
      exact Onward.refl rf
    | succ k ih =>
      intro rf' hx
      unfold scanCommit at hx
      dsimp only at hx
      split_ifs at hx
      · cases hx
        exact Onward.refl rf
      · obtain ⟨t, -, hx⟩ := Option.bind_eq_some_iff.mp hx
        split at hx
        · cases hx
          refine ⟨?_, rfl, Or.inl rfl⟩
          show rf.commitIndex ≤ rf.commitIndex + (k + 1)
          omega
        · exact ih rf' hx
      · exact ih rf' hx
  unfold checkCommit at hx
  split at hx
  · cases hx
    exact Onward.refl rf
  · exact hscan _ _ hx

theorem onward_receiveAppendEntries {server : Fin n} {args : AppendingEntriesArgs n α}
    {reply : AppendingEntriesReply} (hx : rf.receiveAppendEntries server args reply = some rf') :
    rf.Onward rf' := by
  unfold receiveAppendEntries at hx
  dsimp only at hx
  split_ifs at hx
  · cases hx
    exact onward_stepDown_persist rf _
  · cases hx
    exact Onward.refl _
  · refine Onward.trans ?_ (onward_checkCommit hx)
    exact onward_of_eq rfl rfl rfl
  · cases hx
    exact Onward.refl _
  · cases hx
    exact onward_of_eq rfl rfl rfl

theorem onward_receiveInstallSnapshot {server : Fin n} {args : InstallSnapshotArgs n β}
    {reply : InstallSnapshotReply}
    (hx : rf.receiveInstallSnapshot server args reply = some rf') : rf.Onward rf' := by
  unfold receiveInstallSnapshot at hx
  split at hx
  · cases hx
    exact onward_stepDown_persist rf _
  split at hx
  · cases hx
    exact Onward.refl _
  · refine Onward.trans ?_ (onward_checkCommit hx)
    exact onward_of_eq rfl rfl rfl

theorem onward_start (rf : Server n α β) (command : Option α) :
    rf.Onward (rf.start command).1 := by
  unfold start
  split
  · exact Onward.refl rf
  · exact onward_of_eq rfl rfl rfl

/-- `Snapshot` of what is committed. -/
theorem onward_takeSnapshot {index : ℤ} {data : Option β} (hindex : index ≤ rf.commitIndex)
    (hx : rf.takeSnapshot index data = some rf') : rf.Onward rf' := by
  unfold takeSnapshot at hx
  split at hx
  · cases hx
    exact Onward.refl rf
  · obtain ⟨e, -, hx⟩ := Option.bind_eq_some_iff.mp hx
    obtain ⟨log, -, hx⟩ := Option.bind_eq_some_iff.mp hx
    cases hx
    refine ⟨le_rfl, rfl, Or.inr ?_⟩
    show (if _ then _ else _) ≤ rf.commitIndex
    split <;> omega

/-! ### The order of one server -/

/-- The snapshot and what is applied are within what is committed. -/
structure InOrder (rf : Server n α β) : Prop where
  snapshot : rf.lastIncludedIndex ≤ rf.commitIndex
  applied : rf.lastApplied ≤ rf.commitIndex

theorem InOrder.of_onward (ho : rf.InOrder) (hon : rf.Onward rf') : rf'.InOrder where
  snapshot := by
    rcases hon.snapshot with hsame | hin
    · rw [hsame]
      exact ho.snapshot.trans hon.commitIndex
    · exact hin
  applied := by
    rw [hon.lastApplied]
    exact ho.applied.trans hon.commitIndex

theorem inOrder_make (hsaved : rf.Saved) (hnonneg : 0 ≤ rf.lastIncludedIndex) :
    (Server.make rf.me rf.persister).InOrder := by
  obtain ⟨hcommit, happlied⟩ := make_indices hsaved hnonneg
  have hindex : (Server.make rf.me rf.persister).lastIncludedIndex = rf.lastIncludedIndex :=
    congrArg Persisted.lastIncludedIndex (toPersisted_make hsaved)
  exact ⟨hindex.trans_le hcommit.ge, happlied.trans_le hcommit.ge⟩

end Server

/-! ### The applier -/

/-- What the applier holds is within the first `k` entries. -/
def Applier.Within (k : ℤ) : Applier α β → Prop
  | .waiting => True
  | .sendSnapshot msg newLastApplied => msg.index ≤ k ∧ newLastApplied ≤ k
  | .sendEntries index entries lastIndex => index - 1 + entries.length ≤ k ∧ lastIndex ≤ k
  | .sent newLastApplied => newLastApplied ≤ k

theorem Applier.Within.mono {a : Applier α β} {k k' : ℤ} (ha : a.Within k) (hk : k ≤ k') :
    a.Within k' := by
  cases a with
  | waiting => trivial
  | sendSnapshot msg newLastApplied => exact ⟨ha.1.trans hk, ha.2.trans hk⟩
  | sendEntries index entries lastIndex => exact ⟨ha.1.trans hk, ha.2.trans hk⟩
  | sent newLastApplied => exact le_trans ha hk

/-- The applier copies what is committed. -/
theorem Server.InOrder.copyBatch {rf : Server n α β} (ho : rf.InOrder) {a : Applier α β}
    (hx : rf.copyBatch = some a) : a.Within rf.commitIndex := by
  obtain ⟨hsnap, happlied⟩ := ho
  unfold Server.copyBatch at hx
  split at hx
  · cases hx
    exact ⟨hsnap, hsnap⟩
  next hbeyond =>
  obtain ⟨entries, hcopy, hx⟩ := Option.bind_eq_some_iff.mp hx
  cases hx
  rw [if_neg (by omega)] at hcopy ⊢
  refine ⟨?_, le_rfl⟩
  unfold Server.copyEntries at hcopy
  dsimp only at hcopy
  split at hcopy
  · next hin =>
    rw [subslice_of_le (by omega) (by omega) hin.2.2, Option.some.injEq] at hcopy
    rw [← hcopy, List.length_drop, List.length_take]
    omega
  · cases hcopy
    rw [List.length_nil]
    omega

/-- A leader sends its log to the end. -/
theorem Server.Holds.lastNew_of_buildAppendEntries {rf : Server n α β} {F : List (LogEntry α)}
    (hF : rf.Holds F) {server : Fin n} {args : AppendingEntriesArgs n α}
    (hb : rf.buildAppendEntries server = some (.append args)) :
    args.prevLogIndex + args.entries.length = rf.getLastLogIndex := by
  have hlast := hF.getLastLogIndex_eq
  have hlen := hF.length
  have hnonneg := hF.nonneg
  unfold Server.buildAppendEntries at hb
  split at hb
  · cases hb
  dsimp only at hb
  split at hb
  · cases hb
  next hsnap =>
  obtain ⟨t, ht, hb⟩ := Option.bind_eq_some_iff.mp hb
  obtain ⟨entries, hent, hb⟩ := Option.bind_eq_some_iff.mp hb
  cases hb
  have hle := hF.le_of_getLogTerm (not_lt.mp hsnap) ht
  show rf.nextIndex server - 1 + (entries.length : ℤ) = rf.getLastLogIndex
  unfold Server.pendingEntries at hent
  split at hent
  · dsimp only at hent
    rw [if_neg (by omega), subslice_length (by omega) (by omega), Option.some.injEq] at hent
    rw [← hent, List.length_drop]
    omega
  · cases hent
    rw [List.length_nil]
    omega

/-! ### The cluster -/

/-- A call of `Snapshot` is for an index that this incarnation of the server has delivered. -/
def Cluster.OwnSnapshot (c : Cluster n α β) : Event n α β → Prop
  | .snapshot s index _ => ∃ d ∈ c.applied, (d.server = s ∧ d.epoch = (c.nodes s).epoch) ∧
      index ≤ d.msg.index
  | _ => True

instance (c : Cluster n α β) : (e : Event n α β) → Decidable (c.OwnSnapshot e)
  | .snapshot .. => inferInstanceAs (Decidable (∃ d ∈ c.applied, _))
  | .electionTimeout _ | .heartbeat .. | .sendInstallSnapshot .. | .handle _ | .receive _
    | .start ..
  | .applierCopy _ | .applierSend _ | .applierRecord _ | .restart _ =>
    inferInstanceAs (Decidable True)

/-- The indices are in order at every server; so is what its applier holds, what this
incarnation of it has delivered, and every request to append entries reaches up to the
commit index that it carries. -/
structure Indexed (c : Cluster n α β) : Prop where
  server : ∀ s, (c.nodes s).server.InOrder
  applier : ∀ s, (c.nodes s).applier.Within (c.nodes s).server.commitIndex
  applied : ∀ d ∈ c.applied, d.epoch ≤ (c.nodes d.server).epoch ∧
    (d.epoch = (c.nodes d.server).epoch → d.msg.index ≤ (c.nodes d.server).server.commitIndex)
  call : ∀ id caller epoch callee args reply,
    c.calls id = some ⟨caller, epoch, callee, .appendEntries args reply⟩ →
    args.leaderCommit ≤ args.prevLogIndex + args.entries.length

/-- What a critical section does to the indices: it moves them on, or it records what was
delivered. -/
theorem Cluster.Acted.onward {e : Event n α β} {rf' : Server n α β} (ha : c.Acted s e rf')
    (hi : Indexed c) (hown : c.OwnSnapshot e) (he : e ≠ .restart s) :
    (c.nodes s).server.Onward rf' ∨
      ∃ k ≤ (c.nodes s).server.commitIndex, rf' = (c.nodes s).server.recordApplied k := by
  cases ha with
  | startElection hst => exact Or.inl (Server.onward_of_eq rfl rfl rfl)
  | requestVote id caller epoch args hid => exact Or.inl (Server.onward_requestVote _ args)
  | appendEntries id caller epoch args hid rf' reply hx =>
    exact Or.inl (Server.onward_appendEntries (hi.call id caller epoch s args none hid) hx)
  | installSnapshot id caller epoch args hid rf' reply hx =>
    exact Or.inl (Server.onward_installSnapshot hx)
  | receiveVote id callee args reply hid => exact Or.inl (Server.onward_receiveVote _ _ _ reply)
  | receiveAppendEntries id callee args reply hid rf' hx =>
    exact Or.inl (Server.onward_receiveAppendEntries hx)
  | receiveInstallSnapshot id callee args reply hid rf' hx =>
    exact Or.inl (Server.onward_receiveInstallSnapshot hx)
  | start command => exact Or.inl (Server.onward_start _ command)
  | takeSnapshot index data rf' hx =>
    -- the service takes snapshots of what it has been given only
    obtain ⟨d, hd, ⟨rfl, hepoch⟩, hindex⟩ := hown
    exact Or.inl (Server.onward_takeSnapshot (hindex.trans ((hi.applied d hd).2 hepoch)) hx)
  | recordApplied newLastApplied happ =>
    refine Or.inr ⟨newLastApplied, ?_, rfl⟩
    have hwithin := hi.applier s
    -- after an entry, or after a snapshot
    rcases happ with happ | ⟨index, happ⟩
    · rw [happ] at hwithin
      exact hwithin
    · rw [happ] at hwithin
      exact hwithin.2
  | make => exact absurd rfl he

/-- `node` is a later state of `old`, in the same incarnation. -/
def Node.Later (old node : Node n α β) : Prop :=
  node.epoch = old.epoch ∧ old.server.commitIndex ≤ node.server.commitIndex ∧
    old.server.lastApplied ≤ node.server.lastApplied

/-- **The turn of a node** keeps its indices in order, and moves none back but by a restart. -/
theorem Indexed.turn (hi : Indexed c) (hr : Refines c h) {e : Event n α β}
    (hown : c.OwnSnapshot e) {node : Node n α β} (ht : c.Turn s e node) :
    node.server.InOrder ∧ node.applier.Within node.server.commitIndex ∧
      ((c.nodes s).Later node ∨ node.epoch = (c.nodes s).epoch + 1) := by
  have hold := hi.server s
  have happ := hi.applier s
  cases ht with
  | same installing => exact ⟨hold, happ, Or.inl ⟨rfl, le_rfl, le_rfl⟩⟩
  | act rf' votesReceived applier ha he hkeep =>
    have hmoved : rf'.InOrder ∧ (c.nodes s).server.commitIndex ≤ rf'.commitIndex ∧
        (c.nodes s).server.lastApplied ≤ rf'.lastApplied := by
      -- the section moves the indices on, or it sets `lastApplied`, which it never lowers
      rcases ha.onward hi hown he with hon | ⟨k, hk, rfl⟩
      · exact ⟨hold.of_onward hon, hon.commitIndex, hon.lastApplied.ge⟩
      · obtain ⟨hsnap, happlied⟩ := hold
        refine ⟨⟨hsnap, ?_⟩, le_rfl, ?_⟩
        · show (if _ then _ else _) ≤ (c.nodes s).server.commitIndex
          split <;> omega
        · show (c.nodes s).server.lastApplied ≤ if _ then _ else _
          split <;> omega
    refine ⟨hmoved.1, ?_, Or.inl ⟨rfl, hmoved.2⟩⟩
    rcases hkeep with rfl | rfl
    · exact happ.mono hmoved.2.1
    · trivial
  | copy applier hw hx => exact ⟨hold, hold.copyBatch hx, Or.inl ⟨rfl, le_rfl, le_rfl⟩⟩
  | sendSnapshot msg newLastApplied hsend =>
    rw [hsend] at happ
    exact ⟨hold, happ.2, Or.inl ⟨rfl, le_rfl, le_rfl⟩⟩
  | sendEntry index entry entries lastIndex hsend =>
    rw [hsend] at happ
    obtain ⟨hlen, hlast⟩ := happ
    rw [List.length_cons] at hlen
    refine ⟨hold, ⟨?_, hlast⟩, Or.inl ⟨rfl, le_rfl, le_rfl⟩⟩
    show index + 1 - 1 + (entries.length : ℤ) ≤ (c.nodes s).server.commitIndex
    push_cast at hlen
    omega
  -- the indices start again from the snapshot that was saved
  | restart he =>
    have hme := (hr.server s).me
    have hmake := Server.inOrder_make (hr.saved s) (hr.server s).log.nonneg
    rw [hme] at hmake
    exact ⟨hmake, trivial, Or.inr rfl⟩

/-- What is sent is within what is committed. -/
theorem Indexed.sends (hi : Indexed c) {e : Event n α β} {d : Delivery n α β}
    (hd : c.Sends e d) : d.msg.index ≤ (c.nodes d.server).server.commitIndex := by
  obtain ⟨-, -, hsend⟩ := hd
  have happ := hi.applier d.server
  rcases hsend with ⟨k, hsend⟩ | ⟨entry, entries, lastIndex, hsend⟩
  · rw [hsend] at happ
    exact happ.1
  · rw [hsend] at happ
    have hlen := happ.1
    rw [List.length_cons] at hlen
    push_cast at hlen
    omega

/-- **The order of the indices is preserved** by every step of a safe cluster. -/
theorem Indexed.of_step (hi : Indexed c) (hr : Refines c h) (hs : Safe c h) {e : Event n α β}
    (hown : c.OwnSnapshot e) (hc' : c.step e = some c') : Indexed c' := by
  have hturn := fun s => hi.turn hr hown (Cluster.turn_of_step hc' s)
  obtain ⟨hcalls, hnews⟩ := Cluster.news_of_step hc'
  refine ⟨fun s => (hturn s).1, fun s => (hturn s).2.1, fun d hd => ?_, ?_⟩
  · -- a delivery of this incarnation was within the commit index before the step
    have hbefore : d.epoch ≤ (c.nodes d.server).epoch ∧ (d.epoch = (c.nodes d.server).epoch →
        d.msg.index ≤ (c.nodes d.server).server.commitIndex) := by
      rcases hnews d hd with hd | hsends
      · exact hi.applied d hd
      · exact ⟨hsends.2.1.le, fun _ => hi.sends hsends⟩
    obtain ⟨hepoch, hindex⟩ := hbefore
    -- in the same incarnation the commit index has not gone down
    rcases (hturn d.server).2.2 with ⟨hsame, hcommit, -⟩ | hnew
    · rw [hsame]
      exact ⟨hepoch, fun heq => (hindex heq).trans hcommit⟩
    · rw [hnew]
      exact ⟨by omega, fun heq => absurd heq (by omega)⟩
  · intro id caller epoch callee args reply hid
    rcases hcalls id _ hid with hid | hcalled
    · exact hi.call id caller epoch callee args reply hid
    · cases hcalled with
      | appendEntries s i args hb =>
        have hF := (hr.server caller).log
        obtain ⟨-, -, hcommit, -⟩ := hF.of_buildAppendEntries hb
        obtain ⟨q, -, hq, hlen⟩ := (hs.server caller).commit
        rw [hF.lastNew_of_buildAppendEntries hb, hF.getLastLogIndex_eq, hcommit]
        have := hq.length_le
        omega
      | appendEntriesReply id' _ _ _ _ hasked rf' reply hx =>
        exact hi.call id' caller epoch callee args none hasked

/-! ### Runs -/

/-- A run without stale replies, with `Snapshot` called for what was delivered, keeps the indices
in order and moves them on. -/
theorem indexed_of_reach {d : Cluster n α β} {h₀ : Logs n α} (hr : Refines d h₀) (hs : Safe d h₀)
    (hi : Indexed d)
    (hc : ReachWhile Cluster.step (fun c e => ¬ c.StaleReply e ∧ c.OwnSnapshot e) d c) :
    (∃ h, Refines c h ∧ Safe c h) ∧ Indexed c ∧
      ∀ s, (d.nodes s).Later (c.nodes s) ∨ (d.nodes s).epoch < (c.nodes s).epoch := by
  refine hc.invariant (P := fun c => (∃ h, Refines c h ∧ Safe c h) ∧ Indexed c ∧
    ∀ s, (d.nodes s).Later (c.nodes s) ∨ (d.nodes s).epoch < (c.nodes s).epoch)
    ⟨⟨h₀, hr, hs⟩, hi, fun s => Or.inl ⟨rfl, le_rfl, le_rfl⟩⟩ ?_
  rintro b e b' ⟨⟨h, hr, hs⟩, hi, hlater⟩ ⟨hfresh, hown⟩ hstep
  obtain ⟨s, h', hst, hr'⟩ := hr.of_step hstep
  refine ⟨⟨h', hr', hs.of_step hr hr' (hr.inv.of_steps hst).2 hfresh hstep⟩,
    hi.of_step hr hs hown hstep, fun s => ?_⟩
  obtain ⟨-, -, hturn⟩ := hi.turn hr hown (Cluster.turn_of_step hstep s)
  rcases hlater s with ⟨hepoch, hcommit, happlied⟩ | hnew
  · rcases hturn with ⟨hepoch', hcommit', happlied'⟩ | hepoch'
    · exact Or.inl ⟨hepoch'.trans hepoch, hcommit.trans hcommit', happlied.trans happlied'⟩
    · exact Or.inr (by omega)
  · rcases hturn with ⟨hepoch', -, -⟩ | hepoch'
    · exact Or.inr (by omega)
    · exact Or.inr (by omega)

theorem indexed_init : Indexed (Cluster.init : Cluster n α β) where
  server := fun s => ⟨le_rfl, le_rfl⟩
  applier := fun s => trivial
  applied := fun d hd => by cases hd
  call := fun id caller epoch callee args reply hid => by cases hid

/-- **The indices are ordered and do not go back**, in every run in which no leader believes a
stale reply and `Snapshot` is called for what was delivered: the snapshot and what is applied
are within the commit index, that is within the log, and until the server is restarted neither
the commit index nor what is applied decreases. -/
theorem index_order
    (hc : ReachWhile Cluster.step (fun c e => ¬ c.StaleReply e ∧ c.OwnSnapshot e) Cluster.init c)
    (s : Fin n) :
    ((c.nodes s).server.lastIncludedIndex ≤ (c.nodes s).server.commitIndex ∧
      (c.nodes s).server.commitIndex ≤ (c.nodes s).server.getLastLogIndex ∧
      (c.nodes s).server.lastApplied ≤ (c.nodes s).server.commitIndex) ∧
    ∀ c', ReachWhile Cluster.step (fun c e => ¬ c.StaleReply e ∧ c.OwnSnapshot e) c c' →
      (c'.nodes s).epoch = (c.nodes s).epoch →
      (c.nodes s).server.commitIndex ≤ (c'.nodes s).server.commitIndex ∧
        (c.nodes s).server.lastApplied ≤ (c'.nodes s).server.lastApplied := by
  obtain ⟨⟨h, hr, hs⟩, hi, -⟩ := indexed_of_reach refines_init safe_init indexed_init hc
  obtain ⟨hsnap, happlied⟩ := hi.server s
  refine ⟨⟨hsnap, ?_, happlied⟩, fun c' hc' hepoch => ?_⟩
  · obtain ⟨q, -, hq, hlen⟩ := (hs.server s).commit
    have := hq.length_le
    rw [(hr.server s).log.getLastLogIndex_eq]
    omega
  · obtain ⟨-, -, hlater⟩ := indexed_of_reach hr hs hi hc'
    rcases hlater s with ⟨-, hcommit, happlied⟩ | hnew
    · exact ⟨hcommit, happlied⟩
    · exact absurd hepoch (by omega)

/-- Server `0` commits an entry, delivers it and takes a snapshot; then it commits another one. -/
theorem index_order_snapshotRun : ∃ c c' : Cluster 2 ℕ ℕ,
    run (restrict Cluster.step fun c e => ¬ c.StaleReply e ∧ c.OwnSnapshot e) Cluster.init
      snapshotRun = some c ∧
    run (restrict Cluster.step fun c e => ¬ c.StaleReply e ∧ c.OwnSnapshot e) c
      [.start 0 (some 8), .heartbeat 0 1, .handle 2, .receive 2] = some c' ∧
    (c.nodes 0).server.lastIncludedIndex = 1 ∧ (c'.nodes 0).server.commitIndex = 2 ∧
    (c.nodes 0).server.lastIncludedIndex ≤ (c.nodes 0).server.commitIndex ∧
    (c.nodes 0).server.commitIndex ≤ (c'.nodes 0).server.commitIndex := by
  have hobs : ((run (restrict Cluster.step fun c e => ¬ c.StaleReply e ∧ c.OwnSnapshot e)
      Cluster.init snapshotRun).bind fun c =>
        (run (restrict Cluster.step fun c e => ¬ c.StaleReply e ∧ c.OwnSnapshot e) c
          [.start 0 (some 8), .heartbeat 0 1, .handle 2, .receive 2]).map fun c' =>
            ((c.nodes 0).server.lastIncludedIndex, (c'.nodes 0).server.commitIndex,
              (c.nodes 0).epoch, (c'.nodes 0).epoch)) = some (1, 2, 0, 0) := by decide +kernel
  obtain ⟨c, hc, hobs⟩ := Option.bind_eq_some_iff.mp hobs
  obtain ⟨c', hc', hval⟩ := Option.map_eq_some_iff.mp hobs
  simp only [Prod.mk.injEq] at hval
  obtain ⟨hindex, hcommit, hepoch, hepoch'⟩ := hval
  obtain ⟨⟨hsnap, -, -⟩, hmono⟩ := index_order (reachWhile_of_run _ _ _ hc) 0
  exact ⟨c, c', hc, hc', hindex, hcommit, hsnap,
    (hmono c' (reachWhile_of_run _ _ _ hc') (hepoch'.trans hepoch.symm)).1⟩

/-- Three servers; `0` leads the terms 1, 3 and 5 and `2` the terms 2, 4 and 6.  In term 5 the
leader believes a reply of term 3 and commits three entries, and `2` overwrites the last two
with one. -/
def overwrittenRun : List (Event 3 ℕ Unit) :=
  [.electionTimeout 0, .handle 1, .receive 1, .start 0 (some 10), .start 0 (some 11),
    .start 0 (some 12), .electionTimeout 2, .handle 3, .receive 3, .start 2 (some 20), .handle 2,
    .electionTimeout 0, .handle 4, .receive 4, .heartbeat 0 1, .handle 6, .receive 6,
    .heartbeat 0 1, .handle 7, .handle 5,
    .electionTimeout 2, .handle 9, .receive 9, .heartbeat 2 0, .handle 10, .receive 10,
    .heartbeat 2 0, .handle 11,
    .electionTimeout 0, .handle 12, .receive 12, .start 0 (some 30), .start 0 (some 31), .receive 7,
    .handle 13, .electionTimeout 2, .handle 15, .receive 15, .start 2 (some 40), .heartbeat 2 0,
    .handle 16]

/-- **A commit index beyond the log**, after one stale reply. -/
theorem not_commitIndex_le : ∃ c, run Cluster.step Cluster.init overwrittenRun = some c ∧
    Reach Cluster.step Cluster.init c ∧
    ¬ (c.nodes 0).server.commitIndex ≤ (c.nodes 0).server.getLastLogIndex := by
  have hobs : (run Cluster.step Cluster.init overwrittenRun).map (fun c =>
      ((c.nodes 0).server.commitIndex, (c.nodes 0).server.getLastLogIndex)) = some (3, 2) := by
    decide +kernel
  obtain ⟨c, hc, hval⟩ := Option.map_eq_some_iff.mp hobs
  simp only [Prod.mk.injEq] at hval
  refine ⟨c, hc, reach_of_run _ _ _ hc, ?_⟩
  rw [hval.1, hval.2]
  decide

end ExchangeLabs.Raft
