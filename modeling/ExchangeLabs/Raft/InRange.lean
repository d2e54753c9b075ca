import ExchangeLabs.Raft.NextIndex
import ExchangeLabs.Raft.Safety

/-!
# Indices within the log

A critical section that indexes `rf.log` out of range panics, with the mutex held.  The
handlers, `checkCommit`, `Snapshot` and the applier test what they are about to index; only
`broadcastHeartBeat` relies on `nextIndex`, which is set from replies.  A reply of the term
that the leader is in describes a part of its log; one of an earlier term may describe more
than the leader has by now, and nothing is compared with it.

## Main definitions

* `Server.HintsBeyond rf reply` — the hint of a failed reply points beyond the log.
* `Cluster.StaleHint c e` — a leader acts on such a reply to a request of another term.
* `Cluster.InRange c` — no critical section that may run next is out of range.

## Main results

* `Server.Holds.isSome_buildAppendEntries`, `Server.Holds.isSome_checkCommit` — the critical
  sections of a leader are within range where `nextIndex` is.
* `in_range` — **all are within range** in runs in which no leader acts on such replies.
* `not_in_range` — one stale reply makes the leader panic.
-/

namespace ExchangeLabs.Raft

open History

variable {n : ℕ} {α β : Type} {c c' : Cluster n α β} {h h' : Logs n α} {s : Fin n}

namespace Server

variable {rf rf' : Server n α β} {F : List (LogEntry α)}

/-! ### The critical sections one by one -/

theorem Holds.acceptTerm (hF : rf.Holds F) (term : ℤ) : (rf.acceptTerm term).Holds F := by
  unfold Server.acceptTerm
  dsimp only
  split_ifs <;> exact hF.congr rfl rfl rfl

/-- The term at an index that is in the log. -/
theorem Holds.isSome_getLogTerm (hF : rf.Holds F) {i : ℤ} (hi : i ≤ rf.getLastLogIndex) :
    (rf.getLogTerm i).isSome := by
  by_cases hlo : i < rf.lastIncludedIndex
  · unfold getLogTerm
    rw [if_pos hlo]
    rfl
  · rw [hF.getLastLogIndex_eq] at hi
    rw [hF.getLogTerm_eq (not_lt.mp hlo) hi]
    rfl

/-- **A leader's request** is within its log when its `nextIndex` is. -/
theorem Holds.isSome_buildAppendEntries (hF : rf.Holds F) {i : Fin n}
    (hnext : rf.state = .leader → rf.nextIndex i ≤ rf.getLastLogIndex + 1) :
    (rf.buildAppendEntries i).isSome := by
  by_cases hst : rf.state = .leader
  · by_cases hsnap : rf.nextIndex i - 1 < rf.lastIncludedIndex
    · unfold buildAppendEntries
      rw [if_neg (not_not.mpr hst), if_pos hsnap]
      rfl
    · have hle := hnext hst
      rw [hF.getLastLogIndex_eq] at hle
      rw [hF.buildAppendEntries_eq hst (not_lt.mp hsnap) (by omega)]
      rfl
  · unfold buildAppendEntries
    rw [if_pos hst]
    rfl

/-- **`checkCommit`** looks at the indices above the snapshot, down from the last one. -/
theorem Holds.isSome_checkCommit (hF : rf.Holds F) : rf.checkCommit.isSome := by
  have hscan : ∀ k : ℕ, rf.commitIndex + k ≤ rf.getLastLogIndex → (rf.scanCommit k).isSome := by
    intro k
    -- on the number of indices above the commit index that are still to be tried
    induction k with
    | zero => exact fun _ => rfl
    | succ k ih =>
      intro hk
      push_cast at hk
      unfold scanCommit
      dsimp only
      split_ifs
      · rfl
      · obtain ⟨t, ht⟩ := Option.isSome_iff_exists.mp (hF.isSome_getLogTerm hk)
        rw [ht]
        simp only [Option.bind_eq_bind, Option.bind_some]
        split
        · rfl
        · exact ih (by omega)
      · exact ih (by omega)
  unfold checkCommit
  split
  · rfl
  · by_cases hpos : 0 ≤ rf.getLastLogIndex - rf.commitIndex
    · exact hscan _ (by omega)
    · rw [Int.toNat_eq_zero.mpr (by omega)]
      rfl

theorem Holds.isSome_receiveAppendEntries (hF : rf.Holds F) (server : Fin n)
    (args : AppendingEntriesArgs n α) (reply : AppendingEntriesReply) :
    (rf.receiveAppendEntries server args reply).isSome := by
  unfold receiveAppendEntries
  dsimp only
  split_ifs
  · rfl
  · rfl
  · refine Holds.isSome_checkCommit (F := F) ?_
    exact hF.congr rfl rfl rfl
  · rfl
  · rfl

theorem Holds.isSome_receiveInstallSnapshot (hF : rf.Holds F) (server : Fin n)
    (args : InstallSnapshotArgs n β) (reply : InstallSnapshotReply) :
    (rf.receiveInstallSnapshot server args reply).isSome := by
  unfold receiveInstallSnapshot
  split
  · rfl
  split
  · rfl
  · refine Holds.isSome_checkCommit (F := F) ?_
    exact hF.congr rfl rfl rfl

theorem Holds.isSome_takeSnapshot (hF : rf.Holds F) (index : ℤ) (data : Option β) :
    (rf.takeSnapshot index data).isSome := by
  by_cases hnew : rf.lastIncludedIndex < index
  · obtain ⟨rf₁, heq, -, -⟩ := hF.takeSnapshot_eq hnew data
    rw [heq]
    rfl
  · unfold takeSnapshot
    rw [if_pos (not_lt.mp hnew)]
    rfl

/-- **The applier** tests the bounds of what it copies. -/
theorem isSome_copyBatch (rf : Server n α β) : rf.copyBatch.isSome := by
  unfold copyBatch
  split
  · rfl
  · next hbeyond =>
    have hcopy : ∀ i, rf.lastIncludedIndex ≤ i → (rf.copyEntries i rf.commitIndex).isSome := by
      intro i hi
      unfold copyEntries
      dsimp only
      split
      · next hin =>
        rw [subslice_of_le (by omega) (by omega) hin.2.2]
        rfl
      · rfl
    obtain ⟨entries, hentries⟩ := Option.isSome_iff_exists.mp
      (hcopy (if rf.lastApplied + 1 ≤ rf.lastIncludedIndex then rf.lastIncludedIndex + 1
        else rf.lastApplied + 1) (by split <;> omega))
    dsimp only
    rw [hentries]
    rfl

/-! ### Hints -/

/-- The hint of a failed reply points beyond the end of the log: its index does, and the leader
has no entry of the conflicting term to go by. -/
def HintsBeyond (rf : Server n α β) (reply : AppendingEntriesReply) : Prop :=
  (reply.conflictTerm = -1 ∨
    ∀ k < rf.log.length, rf.log[k]?.map LogEntry.term ≠ some reply.conflictTerm) ∧
  rf.getLastLogIndex + 1 < reply.conflictIndex

instance (rf : Server n α β) (reply : AppendingEntriesReply) :
    Decidable (rf.HintsBeyond reply) := by
  unfold HintsBeyond
  infer_instance

/-- These are the replies that move `nextIndex` beyond the log. -/
theorem lt_conflictNext_iff (rf : Server n α β) (reply : AppendingEntriesReply) :
    rf.getLastLogIndex + 1 < rf.conflictNext reply ↔ rf.HintsBeyond reply := by
  unfold conflictNext HintsBeyond
  dsimp only
  by_cases hnone : reply.conflictTerm = -1
  · rw [if_pos hnone]
    exact ⟨fun hlt => ⟨Or.inl hnone, hlt⟩, fun hb => hb.2⟩
  rw [if_neg hnone]
  rcases lastIndexOfTerm_spec rf.log reply.conflictTerm rf.log.length with
    ⟨heq, hall⟩ | ⟨k, hk, heq, hterm, -⟩
  · rw [heq, if_neg (by simp)]
    exact ⟨fun hlt => ⟨Or.inr hall, hlt⟩, fun hb => hb.2⟩
  · rw [heq, if_pos (by omega)]
    constructor
    · intro hlt
      unfold getLastLogIndex at hlt
      omega
    · rintro ⟨hnone' | hall, -⟩
      · exact absurd hnone' hnone
      · exact absurd hterm (hall k hk)

/-- **The hint of a rejection** in the term of the request: the follower's snapshot is beyond the
request, or the hint is not. -/
theorem Holds.conflictIndex_le (hF : rf.Holds F) {args : AppendingEntriesArgs n α}
    {reply : AppendingEntriesReply} (hx : rf.appendEntries args = some (rf', reply))
    (hfail : reply.success = false) (hterm : reply.term ≤ args.term) :
    rf'.currentTerm = args.term ∧ (reply.conflictIndex = rf'.lastIncludedIndex + 1 ∨
      reply.conflictIndex ≤ args.prevLogIndex + 1) := by
  unfold appendEntries at hx
  split at hx
  · next hold =>
    cases hx
    exact absurd hterm (not_le.mpr hold)
  next hold =>
  obtain ⟨⟨rf₂, reply₂⟩, hlog, hx⟩ := Option.bind_eq_some_iff.mp hx
  cases hx
  have hF₁ := hF.acceptTerm args.term
  have hterm₁ := acceptTerm_currentTerm (not_lt.mp hold)
  generalize rf.acceptTerm args.term = rf₁ at hlog hF₁ hterm₁
  unfold appendEntriesLog at hlog
  -- the request begins inside the snapshot, or beyond the log
  split_ifs at hlog with hA hB
  · cases hlog
    exact ⟨hterm₁, Or.inl rfl⟩
  · cases hlog
    refine ⟨hterm₁, Or.inr ?_⟩
    show rf₂.getLastLogIndex + 1 ≤ args.prevLogIndex + 1
    omega
  obtain ⟨t, -, hlog⟩ := Option.bind_eq_some_iff.mp hlog
  -- the terms differ, and the hint is where the scan down has ended
  split_ifs at hlog with hC
  · obtain ⟨i, hi, hlog⟩ := Option.bind_eq_some_iff.mp hlog
    cases hlog
    have hlast := hF₁.getLastLogIndex_eq
    obtain ⟨j, hj, -, hle, -⟩ := hF₁.scanConflict_eq t
      (args.prevLogIndex - rf₂.lastIncludedIndex).toNat (by omega)
    rw [hi, Option.some.injEq] at hj
    refine ⟨hterm₁, Or.inr ?_⟩
    show i + 1 ≤ args.prevLogIndex + 1
    omega
  · obtain ⟨rf₃, -, hlog⟩ := Option.bind_eq_some_iff.mp hlog
    cases hlog
    cases hfail

/-! ### The next index -/

/-- A leader's `nextIndex` is at most one beyond its log. -/
def NextInLog (rf : Server n α β) : Prop :=
  rf.state = .leader → ∀ i, rf.nextIndex i ≤ rf.getLastLogIndex + 1

theorem NextInLog.of_sameLead (hn : rf.NextInLog) (hs : rf.SameLead rf')
    (hlast : rf'.state = .leader → rf.getLastLogIndex ≤ rf'.getLastLogIndex) : rf'.NextInLog := by
  intro hl i
  obtain ⟨hl', -, -, hnext⟩ := hs hl
  have hold := hn hl' i
  have hgrow := hlast hl
  rw [hnext]
  omega

theorem nextInLog_becomeLeader (rf : Server n α β) : rf.becomeLeader.NextInLog :=
  fun _ _ => le_rfl

/-- `checkCommit` moves no `nextIndex` and leaves the log. -/
theorem NextInLog.checkCommit (hn : rf.NextInLog) (hx : rf.checkCommit = some rf') :
    rf'.NextInLog := by
  rw [checkCommit_eq hx]
  exact hn

theorem nextInLog_receiveAppendEntries {i : Fin n} {args : AppendingEntriesArgs n α}
    {reply : AppendingEntriesReply} (hn : rf.NextInLog)
    (hsucc : rf.state = .leader → reply.term ≤ rf.currentTerm → reply.success = true →
      args.prevLogIndex + args.entries.length > rf.matchIndex i →
      args.prevLogIndex + args.entries.length ≤ rf.getLastLogIndex)
    (hfail : rf.state = .leader → reply.term ≤ rf.currentTerm → reply.success = false →
      ¬ rf.HintsBeyond reply)
    (hx : rf.receiveAppendEntries i args reply = some rf') : rf'.NextInLog := by
  unfold receiveAppendEntries at hx
  dsimp only at hx
  split_ifs at hx with hterm hst hok hmore
  · cases hx
    exact fun hl => by cases hl
  · cases hx
    exact hn
  · refine NextInLog.checkCommit (fun hl j => ?_) hx
    have hlast := hsucc hl (not_lt.mp hterm) hok hmore
    show Function.update rf.nextIndex i (args.prevLogIndex + args.entries.length + 1) j ≤
      rf.getLastLogIndex + 1
    -- only the next index of the server that has replied changes
    by_cases hji : j = i
    · rw [hji, Function.update_self]
      omega
    · rw [Function.update_of_ne hji]
      exact hn hl j
  · cases hx
    exact hn
  · cases hx
    intro hl j
    have hin := hfail hl (not_lt.mp hterm) (Bool.eq_false_iff.mpr hok)
    rw [← lt_conflictNext_iff, not_lt] at hin
    show Function.update rf.nextIndex i (rf.conflictNext reply) j ≤ rf.getLastLogIndex + 1
    by_cases hji : j = i
    · rw [hji, Function.update_self]
      exact hin
    · rw [Function.update_of_ne hji]
      exact hn hl j

theorem nextInLog_receiveInstallSnapshot {i : Fin n} {args : InstallSnapshotArgs n β}
    {reply : InstallSnapshotReply} (hn : rf.NextInLog)
    (hlast : rf.state = .leader → args.term = rf.currentTerm →
      args.lastIncludedIndex ≤ rf.getLastLogIndex)
    (hx : rf.receiveInstallSnapshot i args reply = some rf') : rf'.NextInLog := by
  unfold receiveInstallSnapshot at hx
  split at hx
  · cases hx
    exact fun hl => by cases hl
  split at hx
  · cases hx
    exact hn
  · next hfresh =>
    push Not at hfresh
    refine NextInLog.checkCommit (fun hl j => ?_) hx
    have hin := hlast hl hfresh.2.symm
    have hold := hn hl j
    show (if rf.nextIndex i < args.lastIncludedIndex + 1 then
        Function.update rf.nextIndex i (args.lastIncludedIndex + 1) else rf.nextIndex) j ≤
      rf.getLastLogIndex + 1
    rw [raise_apply]
    split
    · next hji =>
      subst hji
      omega
    · exact hold

end Server

/-! ### The cluster -/

/-- A leader acts on a failed reply to a request of another term that points beyond its log. -/
def Cluster.StaleHint (c : Cluster n α β) : Event n α β → Prop
  | .receive id =>
    match c.calls id with
    | some { caller := s, epoch := _, callee := _, rpc := .appendEntries args (some reply) } =>
      let rf := (c.nodes s).server
      rf.state = .leader ∧ reply.term ≤ rf.currentTerm ∧ args.term ≠ rf.currentTerm ∧
        reply.success = false ∧ rf.HintsBeyond reply
    | _ => False
  | _ => False

instance (c : Cluster n α β) : (e : Event n α β) → Decidable (c.StaleHint e)
  | .receive id => by
    dsimp only [Cluster.StaleHint]
    exact match c.calls id with
    | some ⟨_, _, _, .appendEntries _ (some _)⟩ => inferInstanceAs (Decidable (_ ∧ _))
    | some ⟨_, _, _, .appendEntries _ none⟩ | some ⟨_, _, _, .requestVote ..⟩
    | some ⟨_, _, _, .installSnapshot ..⟩ | none => inferInstanceAs (Decidable False)
  | .electionTimeout _ | .heartbeat .. | .sendInstallSnapshot .. | .handle _ | .start ..
    | .snapshot ..
  | .applierCopy _ | .applierSend _ | .applierRecord _ | .restart _ =>
    inferInstanceAs (Decidable False)

/-- What the hint of a rejection in the term of its request is within: the leader's log. -/
def Rpc.Hints (h : Logs n α) : Rpc n α β → Prop
  | .appendEntries args (some reply) => reply.success = false → reply.term ≤ args.term →
    reply.conflictIndex ≤ (h.tlog args.term).length + 1
  | _ => True

theorem Rpc.Hints.of_le (hle : Le LogEntry.term h h') {caller callee : Fin n} {rpc : Rpc n α β}
    (hsound : rpc.Sound h caller callee) (hh : rpc.Hints h) : rpc.Hints h' := by
  cases rpc with
  | requestVote args reply => trivial
  | installSnapshot args reply => trivial
  | appendEntries args reply =>
    cases reply with
    | none => trivial
    | some reply =>
      intro hfail hterm
      have hold := hh hfail hterm
      have hgrow := (hle.tlog args.term (by simp [hsound.1])).length_le
      omega

/-- The next indices are within the logs, and the hints in flight are within the logs of the
leaders that asked. -/
structure Bounded (c : Cluster n α β) (h : Logs n α) : Prop where
  next : ∀ s, (c.nodes s).server.NextInLog
  hint : ∀ id call, c.calls id = some call → call.rpc.Hints h

/-- The log of a leader does not get shorter while it leads. -/
theorem getLastLogIndex_le {rf rf' : Server n α β} (hi : h.Inv LogEntry.term)
    (hi' : h'.Inv LogEntry.term) (hle : Le LogEntry.term h h') (ha : rf.At h s) (ha' : rf'.At h' s)
    (hs : rf.SameLead rf') (hl : rf'.state = .leader) :
    rf.getLastLogIndex ≤ rf'.getLastLogIndex := by
  obtain ⟨hl', hterm, -, -⟩ := hs hl
  have hel := ha.leader hl'
  rw [ha.log.getLastLogIndex_eq, ha'.log.getLastLogIndex_eq, hi.log_of_leader hel,
    hi'.log_of_leader (ha'.leader hl), ← ha'.term, hterm, ha.term]
  exact_mod_cast (hle.tlog _ (by simp [hel])).length_le

theorem server_of_appendEntries {id : ℕ} {caller callee : Fin n} {epoch : ℕ}
    {args : AppendingEntriesArgs n α} {rf' : Server n α β} {reply : AppendingEntriesReply}
    (hid : c.calls id = some ⟨caller, epoch, callee, .appendEntries args none⟩)
    (hx : (c.nodes callee).server.appendEntries args = some (rf', reply))
    (hc' : c.step (.handle id) = some c') : (c'.nodes callee).server = rf' := by
  obtain ⟨call, hid', hc'⟩ := Option.bind_eq_some_iff.mp hc'
  rw [hid] at hid'
  cases hid'
  obtain ⟨⟨rf₁, reply₁⟩, hx', hc'⟩ := Option.bind_eq_some_iff.mp hc'
  cases hx.symm.trans hx'
  cases hc'
  rw [Cluster.setCall_nodes, Cluster.setServer, Cluster.setNode_self]

/-- **A rejection in the term of the request** hints at what the leader has: it points into the
request, or just above the follower's snapshot, which is committed. -/
theorem Bounded.hint_of_step (hb : Bounded c h) (hr : Refines c h) (hr' : Refines c' h')
    (hs' : Safe c' h') (hle : Le LogEntry.term h h') {e : Event n α β} (hc' : c.step e = some c')
    {id : ℕ} {call : Call n α β} (hid : c'.calls id = some call) : call.rpc.Hints h' := by
  rcases (Cluster.news_of_step hc').1 id call hid with hold | hnew
  · exact (hb.hint id call hold).of_le hle (hr.call id call hold)
  have hsound := hr'.call id call hid
  cases hnew with
  | appendEntriesReply id' caller epoch callee args hasked rf' reply hx =>
    intro hfail hterm
    obtain ⟨hel, hslice, -⟩ := hsound
    obtain ⟨hterm', hsnap | hin⟩ := (hr.server callee).log.conflictIndex_le hx hfail hterm
    · have ha' := hr'.server callee
      obtain ⟨q, hq, -, hlen⟩ := (hs'.server callee).snapshot
      rw [server_of_appendEntries hasked hx hc'] at ha' hlen
      rw [← ha'.term, hterm'] at hq
      have hpre := (hq.prefix_tlog hr'.inv (by simp [hel])).length_le
      omega
    · have := hslice.le
      omega
  | _ => trivial

/-- **The next indices stay within the logs** in every step in which no leader acts on a reply of
another term that moves one beyond. -/
theorem Bounded.of_step (hb : Bounded c h) (hr : Refines c h) (hr' : Refines c' h')
    (hs' : Safe c' h') (hle : Le LogEntry.term h h') {e : Event n α β} (hfresh : ¬ c.StaleReply e)
    (hhint : ¬ c.StaleHint e) (hc' : c.step e = some c') : Bounded c' h' := by
  refine ⟨fun s => ?_, fun id call hid => hb.hint_of_step hr hr' hs' hle hc' hid⟩
  have ha := hr.server s
  have hn := hb.next s
  rcases Cluster.acted_of_step hc' s with hsame | hacted
  · rw [hsame]
    exact hn
  have hlog : (c.nodes s).server.state = .leader →
      (c.nodes s).server.getLastLogIndex = (h.tlog (c.nodes s).server.currentTerm).length := by
    intro hl
    rw [ha.log.getLastLogIndex_eq, hr.inv.log_of_leader (ha.leader hl), ha.term]
  -- only the two replies raise a next index; the log of a leader never shrinks
  rcases hacted.sameLead with hlead | hlead | ⟨id, i, args, reply, rfl, hid, hx⟩ |
    ⟨id, i, args, reply, rfl, hid, hx⟩
  · exact hn.of_sameLead hlead fun hl =>
      getLastLogIndex_le hr.inv hr'.inv hle ha (hr'.server s) hlead hl
  · rw [hlead]
    exact Server.nextInLog_becomeLeader _
  · obtain ⟨-, hslice, -⟩ := hr.call id _ hid
    refine Server.nextInLog_receiveAppendEntries hn (fun hl hterm hsucc hmore => ?_)
      (fun hl hterm hfail hbeyond => ?_) hx
    · -- otherwise this is a stale reply
      have hpresent : args.term = (c.nodes s).server.currentTerm := by
        by_contra hne
        apply hfresh
        simp only [Cluster.StaleReply, hid]
        exact ⟨hl, hterm, hne, hsucc, hmore⟩
      have hnew := hslice.lastNew_le
      have hprev := hslice.nonneg
      rw [hlog hl, ← hpresent]
      unfold AppendingEntriesArgs.lastNew at hnew
      omega
    · have hpresent : args.term = (c.nodes s).server.currentTerm := by
        by_contra hne
        apply hhint
        simp only [Cluster.StaleHint, hid]
        exact ⟨hl, hterm, hne, hfail, hbeyond⟩
      -- the hint was within the log of its term
      have hin := hb.hint id _ hid hfail (hterm.trans hpresent.ge)
      rw [hpresent, ← hlog hl] at hin
      exact absurd hbeyond.2 (not_lt.mpr hin)
  · obtain ⟨-, hprefix⟩ := hr.call id _ hid
    refine Server.nextInLog_receiveInstallSnapshot hn (fun hl hterm => ?_) hx
    rw [hlog hl, ← hterm]
    exact hprefix.le

theorem bounded_init : Bounded (Cluster.init : Cluster n α β) History.init where
  next := fun s hl => by cases hl
  hint := fun id call hid => by cases hid

/-! ### Runs -/

/-- No critical section that may run next indexes the log out of range, and a leader's `nextIndex`
is at most one beyond its log. -/
structure Cluster.InRange (c : Cluster n α β) : Prop where
  nextIndex : ∀ s i, (c.nodes s).server.state = .leader →
    (c.nodes s).server.nextIndex i ≤ (c.nodes s).server.getLastLogIndex + 1
  buildAppendEntries : ∀ s i, ((c.nodes s).server.buildAppendEntries i).isSome
  checkCommit : ∀ s, ((c.nodes s).server.checkCommit).isSome
  appendEntries : ∀ id caller epoch callee args,
    c.calls id = some ⟨caller, epoch, callee, .appendEntries args none⟩ →
    ((c.nodes callee).server.appendEntries args).isSome
  receiveAppendEntries : ∀ id caller epoch callee args reply,
    c.calls id = some ⟨caller, epoch, callee, .appendEntries args (some reply)⟩ →
    ((c.nodes caller).server.receiveAppendEntries callee args reply).isSome
  installSnapshot : ∀ id caller epoch callee args,
    c.calls id = some ⟨caller, epoch, callee, .installSnapshot args none⟩ →
    ((c.nodes callee).server.installSnapshot args).isSome
  receiveInstallSnapshot : ∀ id caller epoch callee args reply,
    c.calls id = some ⟨caller, epoch, callee, .installSnapshot args (some reply)⟩ →
    ((c.nodes caller).server.receiveInstallSnapshot callee args reply).isSome
  takeSnapshot : ∀ s index data, ((c.nodes s).server.takeSnapshot index data).isSome
  copyBatch : ∀ s, ((c.nodes s).server.copyBatch).isSome

/-- What the next indices are within decides what is in range. -/
theorem inRange_of_next (hr : Refines c h) (hn : ∀ s, (c.nodes s).server.NextInLog) :
    c.InRange where
  nextIndex := fun s i hl => hn s hl i
  buildAppendEntries := fun s i =>
    (hr.server s).log.isSome_buildAppendEntries fun hl => hn s hl i
  checkCommit := fun s => (hr.server s).log.isSome_checkCommit
  appendEntries := by
    intro id caller epoch callee args hid
    obtain ⟨hel, hslice, -⟩ := hr.call id _ hid
    obtain ⟨rf', reply, -, hx, -⟩ :=
      (hr.server callee).appendEntries hr.inv hel (hr.callee id _ hid) hslice
    rw [hx]
    rfl
  receiveAppendEntries := fun id caller epoch callee args reply _ =>
    (hr.server caller).log.isSome_receiveAppendEntries callee args reply
  installSnapshot := by
    intro id caller epoch callee args hid
    obtain ⟨hel, hprefix⟩ := hr.call id _ hid
    obtain ⟨rf', reply, -, hx, -⟩ :=
      (hr.server callee).installSnapshot hr.inv (hr.saved callee) hel (hr.callee id _ hid) hprefix
    rw [hx]
    rfl
  receiveInstallSnapshot := fun id caller epoch callee args reply _ =>
    (hr.server caller).log.isSome_receiveInstallSnapshot callee args reply
  takeSnapshot := fun s index data => (hr.server s).log.isSome_takeSnapshot index data
  copyBatch := fun s => (c.nodes s).server.isSome_copyBatch

/-- **No index is out of range** after a run in which no leader acts on a reply to an
`AppendEntries` of another term, where it raises `matchIndex` or points beyond the log. -/
theorem in_range
    (hc : ReachWhile Cluster.step (fun c e => ¬ c.StaleReply e ∧ ¬ c.StaleHint e) Cluster.init c) :
    c.InRange := by
  have hinv : ∃ h, Refines c h ∧ Safe c h ∧ Bounded c h := by
    refine hc.invariant (P := fun c => ∃ h, Refines c h ∧ Safe c h ∧ Bounded c h)
      ⟨History.init, refines_init, safe_init, bounded_init⟩ ?_
    rintro d e d' ⟨h, hr, hs, hb⟩ ⟨hfresh, hhint⟩ hstep
    obtain ⟨s, h', hst, hr'⟩ := hr.of_step hstep
    have hle := (hr.inv.of_steps hst).2
    have hs' := hs.of_step hr hr' hle hfresh hstep
    exact ⟨h', hr', hs', hb.of_step hr hr' hs' hle hfresh hhint hstep⟩
  obtain ⟨h, hr, -, hb⟩ := hinv
  exact inRange_of_next hr hb.next

theorem in_range_rejectedRun : ∃ c : Cluster 2 ℕ Unit,
    run (restrict Cluster.step fun c e => ¬ c.StaleReply e ∧ ¬ c.StaleHint e) Cluster.init
      rejectedRun = some c ∧ (c.nodes 0).server.state = .leader ∧ c.InRange := by
  have hobs : (run (restrict Cluster.step fun c e => ¬ c.StaleReply e ∧ ¬ c.StaleHint e)
      Cluster.init rejectedRun).map (fun c => (c.nodes 0).server.state) = some .leader := by
    decide +kernel
  obtain ⟨c, hc, hl⟩ := Option.map_eq_some_iff.mp hobs
  exact ⟨c, hc, hl, in_range (reachWhile_of_run _ _ _ hc)⟩

/-- Three servers; `0` leads the terms 1, 3 and 5 and `2` the terms 2 and 4.  In term 3 the log of
`0` with two entries reaches `1`; the reply comes when `0` leads again, with the one entry it took
from `2`. -/
def shortenedRun : List (Event 3 ℕ Unit) :=
  [.electionTimeout 0, .handle 1, .receive 1, .start 0 (some 10), .start 0 (some 11),
    .electionTimeout 2, .handle 3, .receive 3, .start 2 (some 20), .handle 2,
    .electionTimeout 0, .handle 4, .receive 4, .heartbeat 0 1, .handle 6, .receive 6,
    .heartbeat 0 1, .handle 7, .handle 5,
    .electionTimeout 2, .handle 9, .receive 9, .heartbeat 2 0, .handle 10, .receive 10,
    .heartbeat 2 0, .handle 11,
    .electionTimeout 0, .handle 12, .receive 12, .receive 7]

/-- **A leader panics** after one stale reply: its next request would start two beyond its log. -/
theorem not_in_range : ∃ c, run Cluster.step Cluster.init shortenedRun = some c ∧
    Reach Cluster.step Cluster.init c ∧ (c.nodes 0).server.state = .leader ∧
    (c.nodes 0).server.buildAppendEntries 1 = none ∧ ¬ c.InRange := by
  have hobs : (run Cluster.step Cluster.init shortenedRun).map (fun c =>
      ((c.nodes 0).server.state, (c.nodes 0).server.nextIndex 1,
        (c.nodes 0).server.getLastLogIndex,
        ((c.nodes 0).server.buildAppendEntries 1).isSome)) =
      some (.leader, 3, 1, false) := by decide +kernel
  obtain ⟨c, hc, hval⟩ := Option.map_eq_some_iff.mp hobs
  simp only [Prod.mk.injEq] at hval
  obtain ⟨hl, hnext, hlast, hbuild⟩ := hval
  refine ⟨c, hc, reach_of_run _ _ _ hc, hl, Option.isNone_iff_eq_none.mp (by simpa using hbuild),
    fun hin => ?_⟩
  have hle := hin.nextIndex 0 1 hl
  rw [hnext, hlast] at hle
  exact absurd hle (by decide)

end ExchangeLabs.Raft
