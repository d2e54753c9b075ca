import ExchangeLabs.Raft.Redelivery

/-!
# Compaction is transparent

`Snapshot(k)` takes away the entries up to `k` and leaves a dummy entry with the term at
`k`.  Votes depend on the end of the log only, and a request that starts at `k` or above
on what is above `k` and the term at `k`; so a compacted server answers as it would have
answered before.

## Main definitions

* `SameAbove k rf rf'` — the two agree on terms, votes, state, the commit index and the
  entries above `k`.
* `Compacts k rf rf'` — and `rf'` has its snapshot at `k`, with the same term there and the
  same end of the log.

## Main results

* `Compacts.requestVote`, `Compacts.appendEntries` — the two give the same replies, and still
  agree; the scan of the compacted server stops at its snapshot.
* `exists_installSnapshot` — the leader's snapshot up to `k` does to the log what `Snapshot(k)`
  does.
* `compaction_transparent` — **all of it for every server and every `k`.**
-/

namespace ExchangeLabs.Raft

variable {n : ℕ} {α β : Type}

namespace Server

variable {rf rf' rf₁ rf₂ : Server n α β} {k i : ℤ}

/-! ### What is left after a compaction -/

/-- The two agree on what decides about votes, and on the entries above `k`. -/
structure SameAbove (k : ℤ) (rf rf' : Server n α β) : Prop where
  currentTerm : rf'.currentTerm = rf.currentTerm
  votedFor : rf'.votedFor = rf.votedFor
  state : rf'.state = rf.state
  commitIndex : rf'.commitIndex = rf.commitIndex
  entryAt : ∀ i, k < i → rf'.entryAt i = rf.entryAt i

/-- `rf'` is `rf` with a snapshot at `k`. -/
structure Compacts (k : ℤ) (rf rf' : Server n α β) : Prop extends SameAbove k rf rf' where
  le : rf.lastIncludedIndex ≤ k
  lastIncludedIndex : rf'.lastIncludedIndex = k
  le_last : k ≤ rf.getLastLogIndex
  getLastLogIndex : rf'.getLastLogIndex = rf.getLastLogIndex
  getLastLogTerm : rf'.getLastLogTerm = rf.getLastLogTerm
  getLogTerm : rf'.getLogTerm k = rf.getLogTerm k

/-- The log starts with a dummy entry of the snapshot's last term. -/
def HasDummy (rf : Server n α β) : Prop :=
  ∃ d rest, rf.log = d :: rest ∧ d.term = rf.lastIncludedTerm

/-- What `Snapshot` leaves of a server, for an index of its log above its snapshot. -/
def compactTo (rf : Server n α β) (k t : ℤ) : Server n α β :=
  { rf with
    log := { command := none, term := t } :: rf.log.drop (k - rf.lastIncludedIndex + 1).toNat
    lastIncludedIndex := k
    lastIncludedTerm := t }

/-- **`Snapshot`** of an index of the log. -/
theorem exists_takeSnapshot (hlt : rf.lastIncludedIndex < k) (hle : k ≤ rf.getLastLogIndex)
    (data : Option β) :
    ∃ e, rf.entryAt k = some e ∧
      rf.takeSnapshot k data = some ((rf.compactTo k e.term).save data) := by
  obtain ⟨e, he⟩ := exists_entryAt hlt hle
  have helem : elemAt rf.log (k - rf.lastIncludedIndex) = some e := by
    unfold entryAt at he
    rwa [if_pos hlt] at he
  have hlen : rf.getLastLogIndex = rf.lastIncludedIndex + rf.log.length - 1 := rfl
  refine ⟨e, he, ?_⟩
  unfold takeSnapshot
  rw [if_neg (not_le.mpr hlt)]
  simp only
  rw [if_neg (not_lt.mpr hle), helem]
  simp only [Option.bind_eq_bind, Option.bind_some]
  rw [rf.trimLog_eq (by omega) (by omega)]
  rfl

/-- The last term of a log with an entry above the snapshot. -/
theorem exists_getLastLogTerm (hlt : rf.lastIncludedIndex < rf.getLastLogIndex) :
    ∃ e, rf.entryAt rf.getLastLogIndex = some e ∧ rf.getLastLogTerm = e.term := by
  obtain ⟨e, he⟩ := exists_entryAt hlt le_rfl
  refine ⟨e, he, ?_⟩
  rw [entryAt_of_lt hlt] at he
  have hpos : (rf.getLastLogIndex - rf.lastIncludedIndex).toNat = rf.log.length - 1 := by
    unfold getLastLogIndex
    omega
  unfold getLastLogTerm
  rw [List.getLast?_eq_getElem?, ← hpos, he]

theorem hasDummy_compactTo (rf : Server n α β) (k t : ℤ) : (rf.compactTo k t).HasDummy :=
  ⟨_, _, rfl, rfl⟩

/-- **What a compaction keeps.** -/
theorem compacts_compactTo (hlt : rf.lastIncludedIndex < k) (hle : k ≤ rf.getLastLogIndex)
    {e : LogEntry α} (he : rf.entryAt k = some e) : Compacts k rf (rf.compactTo k e.term) := by
  have hlen : rf.getLastLogIndex = rf.lastIncludedIndex + rf.log.length - 1 := rfl
  have hentry : ∀ i, k < i → (rf.compactTo k e.term).entryAt i = rf.entryAt i := by
    intro i hi
    rw [entryAt_of_lt (show (rf.compactTo k e.term).lastIncludedIndex < i from hi),
      entryAt_of_lt (hlt.trans hi)]
    show (_ :: rf.log.drop (k - rf.lastIncludedIndex + 1).toNat)[(i - k).toNat]? = _
    -- the dummy is at `k`, so the entries above it move up by one place
    have hpos : (i - k).toNat = (i - k - 1).toNat + 1 := by omega
    rw [hpos, List.getElem?_cons_succ, List.getElem?_drop]
    congr 1
    omega
  have hlast : (rf.compactTo k e.term).getLastLogIndex = rf.getLastLogIndex := by
    show k + (_ :: rf.log.drop (k - rf.lastIncludedIndex + 1).toNat).length - 1 = _
    rw [List.length_cons, List.length_drop]
    push_cast
    omega
  have hterm : rf.getLogTerm k = some e.term := by
    rw [getLogTerm_of_lt hlt, he]
    rfl
  refine ⟨⟨rfl, rfl, rfl, rfl, hentry⟩, hlt.le, rfl, hle, hlast, ?_, ?_⟩
  · obtain ⟨x, hx, hxt⟩ := exists_getLastLogTerm (hlt.trans_le hle)
    rcases eq_or_lt_of_le hle with heq | habove
    · -- only the dummy is left
      rw [← heq, he] at hx
      cases hx
      have hnil : rf.log.drop (k - rf.lastIncludedIndex + 1).toNat = [] :=
        List.drop_eq_nil_of_le (by omega)
      rw [hxt]
      unfold getLastLogTerm compactTo
      rw [hnil]
      rfl
    · obtain ⟨y, hy, hyt⟩ := exists_getLastLogTerm
        (show (rf.compactTo k e.term).lastIncludedIndex < _ from hlast ▸ habove)
      rw [hlast, hentry _ habove, hx] at hy
      cases hy
      rw [hyt, hxt]
  · rw [hterm]
    exact (rf.compactTo k e.term).getLogTerm_lastIncludedIndex

/-! ### The two sides of a simulation -/

theorem SameAbove.congr (h : SameAbove k rf rf') (hterm : rf₂.currentTerm = rf₁.currentTerm)
    (hvote : rf₂.votedFor = rf₁.votedFor) (hstate : rf₂.state = rf₁.state)
    (hcommit : rf₂.commitIndex = rf₁.commitIndex) (hlog₁ : rf₁.log = rf.log)
    (hindex₁ : rf₁.lastIncludedIndex = rf.lastIncludedIndex) (hlog₂ : rf₂.log = rf'.log)
    (hindex₂ : rf₂.lastIncludedIndex = rf'.lastIncludedIndex) : SameAbove k rf₁ rf₂ :=
  ⟨hterm, hvote, hstate, hcommit, fun i hi => by
    rw [entryAt_congr hlog₁ hindex₁, entryAt_congr hlog₂ hindex₂, h.entryAt i hi]⟩

/-- The terms from `k` on are the same. -/
theorem Compacts.getLogTerm_eq (h : Compacts k rf rf') (hi : k ≤ i) :
    rf'.getLogTerm i = rf.getLogTerm i := by
  rcases eq_or_lt_of_le hi with rfl | hlt
  · exact h.getLogTerm
  · rw [getLogTerm_of_lt (h.lastIncludedIndex.trans_lt hlt), getLogTerm_of_lt (h.le.trans_lt hlt),
      h.entryAt i hlt]

/-- The present term and the state, as the handlers move them. -/
theorem Compacts.update (h : Compacts k rf rf') (term : ℤ) (vote : Option (Fin n)) (state : State) :
    Compacts k { rf with currentTerm := term, votedFor := vote, state := state }
      { rf' with currentTerm := term, votedFor := vote, state := state } :=
  ⟨⟨rfl, rfl, rfl, h.commitIndex, h.entryAt⟩, h.le, h.lastIncludedIndex, h.le_last,
    h.getLastLogIndex, h.getLastLogTerm, h.getLogTerm⟩

theorem Compacts.stepDown (h : Compacts k rf rf') (term : ℤ) :
    Compacts k (rf.stepDown term) (rf'.stepDown term) := h.update term none .follower

theorem Compacts.acceptTerm (h : Compacts k rf rf') (term : ℤ) :
    Compacts k (rf.acceptTerm term) (rf'.acceptTerm term) := by
  have hcandidate : ∀ {rf rf' : Server n α β}, Compacts k rf rf' →
      Compacts k (if rf.state = .candidate then { rf with state := .follower } else rf)
        (if rf'.state = .candidate then { rf' with state := .follower } else rf') := by
    intro rf rf' h
    rw [h.state]
    split
    · have := h.update rf.currentTerm rf.votedFor .follower
      rwa [← h.currentTerm, ← h.votedFor] at this ⊢
    · exact h
  unfold Server.acceptTerm
  dsimp only
  rw [h.currentTerm]
  split
  · exact hcandidate (h.stepDown term)
  · exact hcandidate h

/-! ### Votes -/

/-- **A vote request** is answered as before. -/
theorem Compacts.requestVote (h : Compacts k rf rf') (args : RequestVoteArgs n) :
    SameAbove k (rf.requestVote args).1 (rf'.requestVote args).1 ∧
      (rf'.requestVote args).2 = (rf.requestVote args).2 := by
  have hok : ∀ {rf rf' : Server n α β}, Compacts k rf rf' → rf'.logOK args = rf.logOK args := by
    intro rf rf' h
    unfold logOK
    rw [h.getLastLogTerm, h.getLastLogIndex]
  unfold Server.requestVote
  rw [h.currentTerm]
  split
  · exact ⟨h.toSameAbove.congr h.currentTerm h.votedFor h.state h.commitIndex rfl rfl rfl rfl, rfl⟩
  · have hnew : Compacts k (if args.term > rf.currentTerm then rf.stepDown args.term else rf)
        (if args.term > rf.currentTerm then rf'.stepDown args.term else rf') := by
      split
      · exact h.stepDown args.term
      · exact h
    dsimp only
    -- the rest is the same in both branches of the test of the term
    generalize (if args.term > rf.currentTerm then rf.stepDown args.term else rf) = rf₁ at hnew ⊢
    generalize (if args.term > rf.currentTerm then rf'.stepDown args.term else rf') = rf₂
      at hnew ⊢
    rw [hnew.votedFor, hok hnew, hnew.currentTerm]
    split
    · exact ⟨hnew.toSameAbove.congr rfl rfl hnew.state hnew.commitIndex rfl rfl rfl rfl, rfl⟩
    · exact ⟨hnew.toSameAbove.congr hnew.currentTerm hnew.votedFor hnew.state hnew.commitIndex
        rfl rfl rfl rfl, rfl⟩

/-! ### Requests to append -/

/-- **The scan for a conflict** stops at the snapshot, if it would go on beyond it. -/
theorem Compacts.scanConflict (h : Compacts k rf rf') (t : ℤ) : ∀ d : ℕ,
    k + d ≤ rf.getLastLogIndex → ∃ i,
      rf.scanConflict t ((k - rf.lastIncludedIndex).toNat + d) = some i ∧
        rf'.scanConflict t d = some (max i k) := by
  intro d
  have hle := h.le
  -- on how far above `k` the scan starts; at `k` the compacted log ends it
  induction d with
  | zero =>
    intro hlast
    obtain ⟨i, hi, hik⟩ := rf.exists_scanConflict t (k - rf.lastIncludedIndex).toNat (by omega)
    refine ⟨i, hi, ?_⟩
    show some rf'.lastIncludedIndex = _
    rw [h.lastIncludedIndex, max_eq_right (by omega)]
  | succ d ih =>
    intro hlast
    push_cast at hlast
    obtain ⟨i, hi, hi'⟩ := ih (by omega)
    have hpos : rf.lastIncludedIndex + (((k - rf.lastIncludedIndex).toNat + d : ℕ) + 1) =
        k + (d + 1) := by
      push_cast
      omega
    obtain ⟨u, hu⟩ := rf.exists_getLogTerm (show rf.lastIncludedIndex ≤ k + (d + 1) by omega) hlast
    rw [← Nat.add_assoc]
    unfold Server.scanConflict
    rw [hpos, h.lastIncludedIndex, h.getLogTerm_eq (by omega), hu]
    simp only [Option.bind_eq_bind, Option.bind_some]
    split
    · exact ⟨i, hi, hi'⟩
    · exact ⟨_, rfl, by rw [max_eq_left (by omega)]⟩

/-- The loop passes over the same entries on both sides. -/
theorem Compacts.merged_le {entries log log' : List (LogEntry α)} {m m' : ℕ}
    (hentry : ∀ j, k < j → rf'.entryAt j = rf.entryAt j) (hi : k ≤ i)
    (hm : rf.Merged i entries log m) (hm' : rf'.Merged i entries log' m') : m' ≤ m := by
  by_contra hlt
  obtain ⟨x, e, hx, he, hterm⟩ := hm'.same m (not_le.mp hlt)
  rw [hentry _ (by omega)] at hx
  rcases hm.outcome with ⟨hall, -⟩ | ⟨-, -, hdiff⟩
  · have := (List.getElem?_eq_some_iff.mp he).1
    omega
  · exact hdiff x e hx he hterm

/-- **The loop of `AppendEntries`** leaves the same entries above `k`. -/
theorem Compacts.mergeEntries (h : Compacts k rf rf') (hi : k ≤ i) (hlast : i ≤ rf.getLastLogIndex)
    (entries : List (LogEntry α)) :
    ∃ log log', rf.mergeEntries (i + 1) entries = some { rf with log := log } ∧
      rf'.mergeEntries (i + 1) entries = some { rf' with log := log' } ∧
      ∀ j, k < j → ({ rf' with log := log' } : Server n α β).entryAt j =
        ({ rf with log := log } : Server n α β).entryAt j := by
  have hle := h.le
  have hindex := h.lastIncludedIndex
  obtain ⟨log, m, hmerge, hm⟩ := exists_merged rf entries i (by omega) hlast
  obtain ⟨log', m', hmerge', hm'⟩ := exists_merged rf' entries i (by omega)
    (by rw [h.getLastLogIndex]; exact hlast)
  have hmm : m' = m := le_antisymm (Compacts.merged_le h.entryAt hi hm hm')
    (Compacts.merged_le (fun j hj => (h.entryAt j hj).symm) hi hm' hm)
  subst hmm
  refine ⟨log, log', hmerge, hmerge', fun j hj => ?_⟩
  rcases hm.outcome with ⟨hall, rfl⟩ | ⟨hlt, hlog, -⟩
  · rcases hm'.outcome with ⟨-, rfl⟩ | ⟨hlt, -⟩
    · exact h.entryAt j hj
    · omega
  · rcases hm'.outcome with ⟨hall, -⟩ | ⟨-, hlog', -⟩
    · omega
    · rw [hm.entryAt_of_cut (by omega) hlog, hm'.entryAt_of_cut (by omega) hlog', h.entryAt j hj]

/-- What a compacted server answers to `AppendEntries`, beside what it would have answered. -/
structure SameReply (k : ℤ) (mismatch : Prop) (reply reply' : AppendingEntriesReply) : Prop where
  term : reply'.term = reply.term
  success : reply'.success = reply.success
  conflictTerm : reply'.conflictTerm = reply.conflictTerm
  conflictIndex : mismatch → reply'.conflictIndex = max reply.conflictIndex (k + 1)
  otherwise : ¬ mismatch → reply'.conflictIndex = reply.conflictIndex

/-- The request is not of an old term, and the log has another term where it starts. -/
def Mismatch (rf : Server n α β) (args : AppendingEntriesArgs n α) : Prop :=
  rf.currentTerm ≤ args.term ∧ args.prevLogIndex ≤ rf.getLastLogIndex ∧
    rf.getLogTerm args.prevLogIndex ≠ some args.prevLogTerm

theorem advanceCommit_eq (rf : Server n α β) (args : AppendingEntriesArgs n α) :
    rf.advanceCommit args = { rf with commitIndex := (rf.advanceCommit args).commitIndex } := by
  unfold advanceCommit
  split <;> rfl

/-- The handler of `AppendEntries` behind the test of the request's term. -/
theorem Compacts.appendEntriesLog (h : Compacts k rf rf') {args : AppendingEntriesArgs n α}
    (hprev : k ≤ args.prevLogIndex) :
    ∃ rf₁ reply₁ rf₂ reply₂, rf.appendEntriesLog args = some (rf₁, reply₁) ∧
      rf'.appendEntriesLog args = some (rf₂, reply₂) ∧ SameAbove k rf₁ rf₂ ∧
      SameReply k (args.prevLogIndex ≤ rf.getLastLogIndex ∧
        rf.getLogTerm args.prevLogIndex ≠ some args.prevLogTerm) reply₁ reply₂ := by
  have hle := h.le
  unfold Server.appendEntriesLog
  rw [h.lastIncludedIndex, h.getLastLogIndex, h.currentTerm, h.getLogTerm_eq hprev,
    if_neg (not_lt.mpr (hle.trans hprev)), if_neg (not_lt.mpr hprev)]
  -- beyond the log, at an entry of another term, or at one that agrees
  by_cases hB : args.prevLogIndex > rf.getLastLogIndex
  · rw [if_pos hB, if_pos hB]
    exact ⟨_, _, _, _, rfl, rfl, h.toSameAbove, rfl, rfl, rfl,
      fun hmis => absurd hmis.1 (not_le.mpr hB), fun _ => rfl⟩
  rw [if_neg hB, if_neg hB]
  obtain ⟨t, ht⟩ := rf.exists_getLogTerm (hle.trans hprev) (not_lt.mp hB)
  rw [ht]
  simp only [Option.bind_eq_bind, Option.bind_some]
  by_cases hC : t ≠ args.prevLogTerm
  · rw [if_pos hC, if_pos hC]
    obtain ⟨i, hi, hi'⟩ := h.scanConflict t (args.prevLogIndex - k).toNat (by omega)
    have hpos : (k - rf.lastIncludedIndex).toNat + (args.prevLogIndex - k).toNat =
        (args.prevLogIndex - rf.lastIncludedIndex).toNat := by omega
    rw [hpos] at hi
    rw [hi, hi']
    refine ⟨_, _, _, _, rfl, rfl, h.toSameAbove, rfl, rfl, rfl, fun _ => ?_, fun hmis => ?_⟩
    · show max i k + 1 = max (i + 1) (k + 1)
      rw [max_add_add_right]
    · exact absurd ⟨not_lt.mp hB, fun heq => hC (Option.some.inj heq)⟩ hmis
  · rw [if_neg hC, if_neg hC]
    push Not at hC
    obtain ⟨log, log', hmerge, hmerge', hentry⟩ :=
      h.mergeEntries hprev (not_lt.mp hB) args.entries
    rw [hmerge, hmerge']
    refine ⟨_, _, _, _, rfl, rfl, ?_, rfl, rfl, rfl, fun hmis => ?_, fun _ => rfl⟩
    · have hcommit : ({ rf' with log := log' }.advanceCommit args).commitIndex =
          ({ rf with log := log }.advanceCommit args).commitIndex := by
        unfold Server.advanceCommit
        dsimp only
        rw [h.commitIndex]
        split <;> rfl
      rw [advanceCommit_eq, advanceCommit_eq { rf' with log := log' }]
      exact ⟨h.currentTerm, h.votedFor, h.state, hcommit, hentry⟩
    · exact absurd (congrArg some hC) hmis.2

theorem acceptTerm_getLastLogIndex (rf : Server n α β) (term : ℤ) :
    (rf.acceptTerm term).getLastLogIndex = rf.getLastLogIndex := by
  unfold acceptTerm
  dsimp only
  split_ifs <;> rfl

theorem acceptTerm_getLogTerm (rf : Server n α β) (term i : ℤ) :
    (rf.acceptTerm term).getLogTerm i = rf.getLogTerm i := by
  unfold acceptTerm
  dsimp only
  split_ifs <;> rfl

/-- **A request** that starts at `k` or above is answered as before, but for the index of a
conflict, which is above the snapshot. -/
theorem Compacts.appendEntries (h : Compacts k rf rf') {args : AppendingEntriesArgs n α}
    (hprev : k ≤ args.prevLogIndex) :
    ∃ rf₁ reply₁ rf₂ reply₂, rf.appendEntries args = some (rf₁, reply₁) ∧
      rf'.appendEntries args = some (rf₂, reply₂) ∧ SameAbove k rf₁ rf₂ ∧
      SameReply k (rf.Mismatch args) reply₁ reply₂ := by
  unfold Server.appendEntries
  rw [h.currentTerm]
  by_cases hold : args.term < rf.currentTerm
  · rw [if_pos hold, if_pos hold]
    exact ⟨_, _, _, _, rfl, rfl,
      h.toSameAbove.congr h.currentTerm h.votedFor h.state h.commitIndex rfl rfl rfl rfl,
      rfl, rfl, rfl, fun hmis => absurd hmis.1 (not_le.mpr hold), fun _ => rfl⟩
  rw [if_neg hold, if_neg hold]
  obtain ⟨rf₁, reply₁, rf₂, reply₂, hx₁, hx₂, hsame, hreply⟩ :=
    (h.acceptTerm args.term).appendEntriesLog hprev
  rw [hx₁, hx₂]
  refine ⟨_, _, _, _, rfl, rfl, hsame.congr hsame.currentTerm hsame.votedFor hsame.state
    hsame.commitIndex rfl rfl rfl rfl, hreply.term, hreply.success, hreply.conflictTerm, ?_, ?_⟩
  · intro hmis
    refine hreply.conflictIndex ?_
    rw [acceptTerm_getLastLogIndex, acceptTerm_getLogTerm]
    exact hmis.2
  · intro hmis
    refine hreply.otherwise ?_
    rw [acceptTerm_getLastLogIndex, acceptTerm_getLogTerm]
    exact fun hlog => hmis ⟨not_lt.mp hold, hlog⟩

/-! ### The leader's snapshot -/

/-- The body of `InstallSnapshot`, where the log has the snapshot's last entry. -/
theorem exists_installSnapshotLog (rf : Server n α β) (hlt : rf.lastIncludedIndex < k)
    (hle : k ≤ rf.getLastLogIndex) {args : InstallSnapshotArgs n β}
    (hindex : args.lastIncludedIndex = k)
    (hterm : rf.getLogTerm k = some args.lastIncludedTerm) :
    ∃ rf₁, rf.installSnapshotLog args = some rf₁ ∧
      rf₁.log = (rf.compactTo k args.lastIncludedTerm).log ∧ rf₁.lastIncludedIndex = k ∧
      rf₁.lastIncludedTerm = args.lastIncludedTerm := by
  have hlen : rf.getLastLogIndex = rf.lastIncludedIndex + rf.log.length - 1 := rfl
  have hhas : rf.hasEntry args = some true := by
    unfold hasEntry
    rw [hindex, if_pos hle, hterm]
    simp only [Option.bind_eq_bind, Option.bind_some, decide_true]
  unfold installSnapshotLog snapshotLog
  rw [hindex, if_neg (not_le.mpr hlt), hhas]
  simp only [Option.bind_eq_bind, Option.bind_some, if_true]
  rw [rf.trimLog_eq (by omega) (by omega)]
  exact ⟨_, rfl, rfl, rfl, rfl⟩

/-- What `InstallSnapshot` does before its body leaves the log alone. -/
theorem installSnapshot_of_current (rf : Server n α β) {args : InstallSnapshotArgs n β}
    (hcurrent : rf.currentTerm ≤ args.term) :
    ∃ (rf₁ : Server n α β) (reply : InstallSnapshotReply),
      rf.installSnapshot args = (rf₁.installSnapshotLog args).bind (fun rf' => some (rf', reply)) ∧
      rf₁.log = rf.log ∧ rf₁.lastIncludedIndex = rf.lastIncludedIndex ∧
      rf₁.lastIncludedTerm = rf.lastIncludedTerm := by
  unfold installSnapshot
  rw [if_neg (not_lt.mpr hcurrent)]
  dsimp only
  split_ifs <;> exact ⟨_, _, rfl, rfl, rfl, rfl⟩

/-- **`InstallSnapshot`** up to `k`, in a term that is not over, where the log has the snapshot's
last entry: what comes after it stays. -/
theorem exists_installSnapshot (hlt : rf.lastIncludedIndex < k) (hle : k ≤ rf.getLastLogIndex)
    {args : InstallSnapshotArgs n β} (hcurrent : rf.currentTerm ≤ args.term)
    (hindex : args.lastIncludedIndex = k) (hterm : rf.getLogTerm k = some args.lastIncludedTerm) :
    ∃ rf₁ reply, rf.installSnapshot args = some (rf₁, reply) ∧
      rf₁.log = (rf.compactTo k args.lastIncludedTerm).log ∧ rf₁.lastIncludedIndex = k ∧
      rf₁.lastIncludedTerm = args.lastIncludedTerm := by
  obtain ⟨rf₂, reply, hx, hlog, hi, ht⟩ := rf.installSnapshot_of_current hcurrent
  obtain ⟨rf₁, hbody, hlog₁, hindex₁, hterm₁⟩ := rf₂.exists_installSnapshotLog (hi ▸ hlt)
    (by unfold getLastLogIndex; rw [hlog, hi]; exact hle) hindex
    (by unfold getLogTerm; rw [hlog, hi, ht]; exact hterm)
  refine ⟨rf₁, reply, by rw [hx, hbody]; rfl, hlog₁.trans ?_, hindex₁, hterm₁⟩
  unfold compactTo
  rw [hlog, hi]

theorem Compacts.save (h : Compacts k rf rf') (data : Option β) : Compacts k rf (rf'.save data) :=
  ⟨⟨h.currentTerm, h.votedFor, h.state, h.commitIndex, h.entryAt⟩, h.le, h.lastIncludedIndex,
    h.le_last, h.getLastLogIndex, h.getLastLogTerm, h.getLogTerm⟩

end Server

/-- **Compaction is transparent.**  After `Snapshot(k)` the log starts with its dummy entry, ends as
before and has the same entries above `k` and the same term at `k`; every vote request, and every
request that starts at `k` or above, is answered as before and leaves the two alike; and the
leader's snapshot up to `k`, in a term that is not over, would have left the same log. -/
theorem compaction_transparent {rf : Server n α β} {k : ℤ} (hlt : rf.lastIncludedIndex < k)
    (hle : k ≤ rf.getLastLogIndex) (data : Option β) :
    ∃ rf', rf.takeSnapshot k data = some rf' ∧ rf'.HasDummy ∧
      rf'.getLastLogIndex = rf.getLastLogIndex ∧ rf'.getLastLogTerm = rf.getLastLogTerm ∧
      (∀ i, k < i → rf'.entryAt i = rf.entryAt i) ∧ rf'.getLogTerm k = rf.getLogTerm k ∧
      (∀ args, Server.SameAbove k (rf.requestVote args).1 (rf'.requestVote args).1 ∧
        (rf'.requestVote args).2 = (rf.requestVote args).2) ∧
      (∀ args : AppendingEntriesArgs n α, k ≤ args.prevLogIndex →
        ∃ rf₁ reply₁ rf₂ reply₂, rf.appendEntries args = some (rf₁, reply₁) ∧
          rf'.appendEntries args = some (rf₂, reply₂) ∧ Server.SameAbove k rf₁ rf₂ ∧
          Server.SameReply k (rf.Mismatch args) reply₁ reply₂) ∧
      (∀ args : InstallSnapshotArgs n β, rf.currentTerm ≤ args.term →
        args.lastIncludedIndex = k → rf.getLogTerm k = some args.lastIncludedTerm →
        ∃ rf₁ reply, rf.installSnapshot args = some (rf₁, reply) ∧ rf₁.log = rf'.log ∧
          rf₁.lastIncludedIndex = rf'.lastIncludedIndex ∧
          rf₁.lastIncludedTerm = rf'.lastIncludedTerm) := by
  obtain ⟨e, he, hx⟩ := Server.exists_takeSnapshot hlt hle data
  have hc := (Server.compacts_compactTo hlt hle he).save data
  refine ⟨_, hx, rf.hasDummy_compactTo k e.term, hc.getLastLogIndex, hc.getLastLogTerm,
    hc.entryAt, hc.getLogTerm, hc.requestVote, fun args hprev => hc.appendEntries hprev, ?_⟩
  intro args hcurrent hindex hterm
  have ht : args.lastIncludedTerm = e.term := by
    rw [Server.getLogTerm_of_lt hlt, he] at hterm
    exact (Option.some.inj hterm).symm
  obtain ⟨rf₁, reply, hinstall, hlog, hi, ht'⟩ :=
    Server.exists_installSnapshot hlt hle hcurrent hindex hterm
  rw [ht] at hlog ht'
  exact ⟨rf₁, reply, hinstall, hlog, hi, ht'⟩

/-- A follower of term 2 with two entries of term 1. -/
def twoEntries : Server 2 ℕ Unit :=
  { Server.initial 0 ⟨none, none⟩ with
    currentTerm := 2, log := [⟨none, 0⟩, ⟨some 10, 1⟩, ⟨some 11, 1⟩] }

theorem compaction_transparent_twoEntries : ∃ rf' : Server 2 ℕ Unit,
    twoEntries.takeSnapshot 1 (some ()) = some rf' ∧ rf'.getLastLogIndex = 2 ∧
      rf'.getLastLogTerm = 1 := by
  obtain ⟨rf', hx, -, hlast, hterm, -⟩ :=
    compaction_transparent (show twoEntries.lastIncludedIndex < 1 by decide)
      (show 1 ≤ twoEntries.getLastLogIndex by decide) (some ())
  exact ⟨rf', hx, hlast, hterm⟩

/-- **An old leader's snapshot** is not installed, whatever entry the log has at its end. -/
theorem not_installSnapshot_stale : ¬ ∀ (rf rf' rf₁ : Server 2 ℕ Unit) (k : ℤ) (data : Option Unit)
    (args : InstallSnapshotArgs 2 Unit) (reply : InstallSnapshotReply), rf.HasDummy →
    rf.lastIncludedIndex < k → k ≤ rf.getLastLogIndex → rf.takeSnapshot k data = some rf' →
    args.lastIncludedIndex = k → rf.getLogTerm k = some args.lastIncludedTerm →
    rf.installSnapshot args = some (rf₁, reply) →
    rf₁.lastIncludedIndex = rf'.lastIncludedIndex := by
  intro hall
  have hindex := hall twoEntries ((twoEntries.compactTo 1 1).save (some ())) twoEntries 1 (some ())
    { term := 1, leaderId := 1, lastIncludedIndex := 1, lastIncludedTerm := 1, data := some () }
    { term := 2 } ⟨_, _, rfl, rfl⟩ (by decide) (by decide) rfl rfl rfl rfl
  exact absurd hindex (by decide)

end ExchangeLabs.Raft
