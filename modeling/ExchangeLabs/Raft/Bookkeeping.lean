import ExchangeLabs.Raft.Refinement

/-!
# The leader's bookkeeping and the commit index

What each critical section does to the fields that the history does not show:
`commitIndex`, `lastIncludedIndex` and the `matchIndex` of a leader.

## Main definitions

* `Server.Keeps rf rf'` — these fields have not moved.

## Main results

* `Server.checkCommit_cases` — the commit index moves to an entry of the present
  term that is counted a majority of times, or it does not move.
* `Server.appendEntries_fields`, `Server.installSnapshot_fields` — where a
  request may move the commit index and the snapshot.
-/

namespace ExchangeLabs.Raft

variable {n : ℕ} {α β : Type}

namespace Server

variable {rf rf' : Server n α β}

/-- The snapshot, the commit index and a leader's bookkeeping have not moved. -/
structure Keeps (rf rf' : Server n α β) : Prop where
  lastIncludedIndex : rf'.lastIncludedIndex = rf.lastIncludedIndex
  commitIndex : rf'.commitIndex = rf.commitIndex
  leader : rf'.state = .leader →
    rf.state = .leader ∧ rf'.currentTerm = rf.currentTerm ∧ rf'.matchIndex = rf.matchIndex

theorem Keeps.refl (rf : Server n α β) : rf.Keeps rf := ⟨rfl, rfl, fun hl => ⟨hl, rfl, rfl⟩⟩

theorem Keeps.trans {rf'' : Server n α β} (h₁ : rf.Keeps rf') (h₂ : rf'.Keeps rf'') :
    rf.Keeps rf'' where
  lastIncludedIndex := h₂.lastIncludedIndex.trans h₁.lastIncludedIndex
  commitIndex := h₂.commitIndex.trans h₁.commitIndex
  leader := fun hl => by
    obtain ⟨h3, h4, h5⟩ := h₂.leader hl
    obtain ⟨h6, h7, h8⟩ := h₁.leader h3
    exact ⟨h6, h4.trans h7, h5.trans h8⟩

theorem keeps_stepDown (rf : Server n α β) (term : ℤ) : rf.Keeps (rf.stepDown term) :=
  ⟨rfl, rfl, fun hl => by cases hl⟩

theorem keeps_persist (rf : Server n α β) : rf.Keeps rf.persist :=
  ⟨rfl, rfl, fun hl => ⟨hl, rfl, rfl⟩⟩

theorem keeps_acceptTerm (rf : Server n α β) (term : ℤ) : rf.Keeps (rf.acceptTerm term) := by
  have hcand : ∀ rf : Server n α β,
      rf.Keeps (if rf.state = .candidate then { rf with state := .follower } else rf) := by
    intro rf
    split
    · exact ⟨rfl, rfl, fun hl => by cases hl⟩
    · exact Keeps.refl rf
  unfold acceptTerm
  dsimp only
  by_cases hnew : term > rf.currentTerm
  · rw [if_pos hnew]
    exact (keeps_stepDown rf term).trans (hcand _)
  · rw [if_neg hnew]
    exact hcand rf

theorem acceptTerm_currentTerm {term : ℤ} (hle : rf.currentTerm ≤ term) :
    (rf.acceptTerm term).currentTerm = term := by
  unfold acceptTerm
  dsimp only
  rcases eq_or_lt_of_le hle with rfl | hlt
  · rw [if_neg (lt_irrefl _)]
    split <;> rfl
  · rw [if_pos hlt]
    split <;> rfl

theorem keeps_startElection (rf : Server n α β) : rf.Keeps rf.startElection.1 :=
  ⟨rfl, rfl, fun hl => by cases hl⟩

theorem keeps_requestVote (rf : Server n α β) (args : RequestVoteArgs n) :
    rf.Keeps (rf.requestVote args).1 := by
  unfold requestVote
  split
  · exact keeps_persist rf
  · have h₁ : rf.Keeps (if args.term > rf.currentTerm then rf.stepDown args.term else rf) := by
      split
      · exact keeps_stepDown rf _
      · exact Keeps.refl rf
    dsimp only
    generalize (if args.term > rf.currentTerm then rf.stepDown args.term else rf) = rf₁ at h₁ ⊢
    split
    · exact h₁.trans ⟨rfl, rfl, fun hl => ⟨hl, rfl, rfl⟩⟩
    · exact h₁.trans (keeps_persist _)

theorem keeps_start (rf : Server n α β) (command : Option α) : rf.Keeps (rf.start command).1 := by
  unfold start
  split
  · exact Keeps.refl rf
  · exact ⟨rfl, rfl, fun hl => ⟨hl, rfl, rfl⟩⟩

/-! ### Requests -/

/-- The loop of `AppendEntries` changes nothing but the log. -/
theorem mergeEntries_fields : ∀ (entries : List (LogEntry α)) (index : ℤ) (rf rf' : Server n α β),
    rf.mergeEntries index entries = some rf' → rf' = { rf with log := rf'.log } := by
  intro entries
  induction entries with
  | nil =>
    intro index rf rf' hx
    cases hx
    rfl
  | cons entry entries ih =>
    intro index rf rf' hx
    unfold mergeEntries at hx
    split at hx
    · obtain ⟨t, -, hx⟩ := Option.bind_eq_some_iff.mp hx
      split at hx
      · obtain ⟨kept, -, hx⟩ := Option.bind_eq_some_iff.mp hx
        cases hx
        rfl
      · exact ih _ _ _ hx
    · have hrest := ih _ _ _ hx
      exact hrest

/-- **`AppendEntries`** moves the commit index only with a success, and then not
beyond the leader's commit index or the end of the request. -/
theorem appendEntries_fields {args : AppendingEntriesArgs n α} {reply : AppendingEntriesReply}
    (hx : rf.appendEntries args = some (rf', reply)) :
    rf.Keeps rf' ∨
      reply.success = true ∧ rf'.lastIncludedIndex = rf.lastIncludedIndex ∧
        rf'.currentTerm = args.term ∧
        rf'.commitIndex ≤ args.leaderCommit ∧
        rf'.commitIndex ≤ args.prevLogIndex + args.entries.length ∧
        (rf'.state = .leader →
          rf.state = .leader ∧ rf'.currentTerm = rf.currentTerm ∧
            rf'.matchIndex = rf.matchIndex) := by
  unfold appendEntries at hx
  split at hx
  · cases hx
    exact Or.inl (keeps_persist rf)
  next hold =>
  obtain ⟨⟨rf₂, reply₂⟩, hlog, hx⟩ := Option.bind_eq_some_iff.mp hx
  cases hx
  have hacc := keeps_acceptTerm rf args.term
  have hterm := acceptTerm_currentTerm (not_lt.mp hold)
  generalize rf.acceptTerm args.term = rf₁ at hlog hacc hterm
  unfold appendEntriesLog at hlog
  split at hlog
  · cases hlog
    exact Or.inl (hacc.trans (keeps_persist _))
  split at hlog
  · cases hlog
    exact Or.inl (hacc.trans (keeps_persist _))
  obtain ⟨t, -, hlog⟩ := Option.bind_eq_some_iff.mp hlog
  split at hlog
  · obtain ⟨i, -, hlog⟩ := Option.bind_eq_some_iff.mp hlog
    cases hlog
    exact Or.inl (hacc.trans (keeps_persist _))
  · obtain ⟨rf₃, hmerge, hlog⟩ := Option.bind_eq_some_iff.mp hlog
    cases hlog
    have hrf₃ := mergeEntries_fields _ _ _ _ hmerge
    generalize rf₃.log = log at hrf₃
    subst hrf₃
    unfold advanceCommit
    split
    · have hmin : ∀ a b : ℤ, (if a < b then a else b) ≤ a ∧ (if a < b then a else b) ≤ b := by
        intro a b
        split <;> omega
      exact Or.inr ⟨rfl, hacc.lastIncludedIndex, hterm, (hmin _ _).1, (hmin _ _).2, hacc.leader⟩
    · exact Or.inl (hacc.trans ⟨rfl, rfl, fun hl => ⟨hl, rfl, rfl⟩⟩)

/-- **`InstallSnapshot`** moves the snapshot to that of the request, and the commit
index at least to it; or it moves nothing, since the request is of an earlier
term or its snapshot is no newer. -/
theorem installSnapshot_fields {args : InstallSnapshotArgs n β} {reply : InstallSnapshotReply}
    (hx : rf.installSnapshot args = some (rf', reply)) :
    (rf'.state = .leader →
      rf.state = .leader ∧ rf'.currentTerm = rf.currentTerm ∧ rf'.matchIndex = rf.matchIndex) ∧
    reply.term = rf'.currentTerm ∧ args.term ≤ rf'.currentTerm ∧
    (rf'.lastIncludedIndex = rf.lastIncludedIndex ∧ rf'.commitIndex = rf.commitIndex ∧
        (args.term < reply.term ∨ args.lastIncludedIndex ≤ rf.lastIncludedIndex) ∨
      rf.lastIncludedIndex ≤ args.lastIncludedIndex ∧
        rf'.lastIncludedIndex = args.lastIncludedIndex ∧
        rf'.lastIncludedTerm = args.lastIncludedTerm ∧
        (rf'.commitIndex = rf.commitIndex ∨ rf'.commitIndex = args.lastIncludedIndex)) := by
  unfold installSnapshot at hx
  split at hx
  · next hold =>
    cases hx
    exact ⟨fun hl => ⟨hl, rfl, rfl⟩, rfl, hold.le, Or.inl ⟨rfl, rfl, Or.inl hold⟩⟩
  next hold =>
  obtain ⟨rf₂, hlog, hx⟩ := Option.bind_eq_some_iff.mp hx
  cases hx
  -- the server that takes in the snapshot
  have hacc : ∀ rf₁ : Server n α β, rf.Keeps rf₁ → ∀ rf₂ : Server n α β,
      rf₂ = (if rf₁.state = .candidate then { rf₁ with state := .follower } else rf₁) →
      rf.Keeps rf₂ ∧ rf₂.currentTerm = rf₁.currentTerm := by
    rintro rf₁ hk rf₂ rfl
    split
    · exact ⟨⟨hk.lastIncludedIndex, hk.commitIndex, fun hl => by cases hl⟩, rfl⟩
    · exact ⟨hk, rfl⟩
  have hk₁ : rf.Keeps
      (if args.term > rf.currentTerm then (rf.stepDown args.term).persist else rf) := by
    split
    · exact (keeps_stepDown rf _).trans (keeps_persist _)
    · exact Keeps.refl rf
  have hT₁ : args.term ≤
      (if args.term > rf.currentTerm then (rf.stepDown args.term).persist else rf).currentTerm := by
    split
    · exact le_rfl
    · omega
  obtain ⟨hk, hterm⟩ := hacc _ hk₁ _ rfl
  rw [← hterm] at hT₁
  generalize (if args.term > rf.currentTerm then (rf.stepDown args.term).persist else rf) = rf₁ at *
  generalize (if rf₁.state = .candidate then { rf₁ with state := .follower } else rf₁) = rf₃ at *
  unfold installSnapshotLog at hlog
  split at hlog
  · next hold =>
    cases hlog
    refine ⟨hk.leader, hterm.symm, hT₁, Or.inl ⟨hk.lastIncludedIndex, hk.commitIndex, Or.inr ?_⟩⟩
    rw [← hk.lastIncludedIndex]
    exact hold
  · next hnew =>
    obtain ⟨log, -, hlog⟩ := Option.bind_eq_some_iff.mp hlog
    cases hlog
    have hlo := hk.lastIncludedIndex
    refine ⟨hk.leader, hterm.symm, hT₁, Or.inr ⟨by omega, rfl, rfl, ?_⟩⟩
    change (if _ then _ else _) = _ ∨ (if _ then _ else _) = _
    split
    · exact Or.inr rfl
    · exact Or.inl hk.commitIndex

/-! ### Replies -/

/-- A vote makes a leader or moves nothing. -/
theorem receiveVote_cases (rf : Server n α β) (votesReceived : ℕ) (term : ℤ)
    (reply : RequestVoteReply) : rf.Keeps (rf.receiveVote votesReceived term reply).1 ∨
      (rf.receiveVote votesReceived term reply).1 = rf.becomeLeader := by
  unfold receiveVote
  split
  · exact Or.inl (Keeps.refl rf)
  split
  · exact Or.inl ((keeps_stepDown rf _).trans (keeps_persist _))
  split
  · split
    · exact Or.inr rfl
    · exact Or.inl (Keeps.refl rf)
  · exact Or.inl (Keeps.refl rf)

/-- **`checkCommit`** moves the commit index to an entry of the present term, above
the snapshot, that a majority is counted for; or it moves nothing. -/
theorem checkCommit_cases (hx : rf.checkCommit = some rf') :
    rf' = rf ∨ ∃ N, rf' = { rf with commitIndex := N } ∧ rf.lastIncludedIndex < N ∧
      N ≤ rf.getLastLogIndex ∧ rf.countMatch N > n / 2 ∧ rf.getLogTerm N = some rf.currentTerm := by
  have hscan : ∀ k : ℕ, rf.commitIndex + k ≤ rf.getLastLogIndex → ∀ rf',
    rf.scanCommit k = some rf' →
      rf' = rf ∨ ∃ N, rf' = { rf with commitIndex := N } ∧ rf.lastIncludedIndex < N ∧
        N ≤ rf.getLastLogIndex ∧ rf.countMatch N > n / 2 ∧
        rf.getLogTerm N = some rf.currentTerm := by
    intro k
    induction k with
    | zero =>
      intro _ rf' hx
      cases hx
      exact Or.inl rfl
    | succ k ih =>
      intro hk rf' hx
      unfold scanCommit at hx
      dsimp only at hx
      split at hx
      · cases hx
        exact Or.inl rfl
      next habove =>
      split at hx
      · next hcount =>
        obtain ⟨t, ht, hx⟩ := Option.bind_eq_some_iff.mp hx
        split at hx
        · next heq =>
          cases hx
          exact Or.inr ⟨_, rfl, not_le.mp habove, by push_cast at hk; omega, hcount, heq ▸ ht⟩
        · exact ih (by push_cast at hk; omega) rf' hx
      · exact ih (by push_cast at hk; omega) rf' hx
  unfold checkCommit at hx
  split at hx
  · cases hx
    exact Or.inl rfl
  · by_cases hpos : 0 ≤ rf.getLastLogIndex - rf.commitIndex
    · exact hscan _ (by omega) rf' hx
    · rw [Int.toNat_eq_zero.mpr (by omega)] at hx
      cases hx
      exact Or.inl rfl

/-- The servers that `countMatch` counts. -/
theorem countMatch_eq (rf : Server n α β) (N : ℤ) :
    rf.countMatch N = (insert rf.me (Finset.univ.filter fun i => rf.matchIndex i ≥ N)).card := by
  unfold countMatch
  have hcard : (List.finRange n).countP (fun i => i ≠ rf.me && decide (rf.matchIndex i ≥ N))
      = ((Finset.univ.filter fun i => rf.matchIndex i ≥ N).erase rf.me).card := by
    rw [List.countP_eq_length_filter, ← List.toFinset_card_of_nodup
      ((List.nodup_finRange n).filter _)]
    congr 1
    ext i
    simp
  rw [hcard, ← Finset.card_erase_add_one (Finset.mem_insert_self rf.me _),
    Finset.erase_insert_eq_erase, Nat.add_comm]

end Server

end ExchangeLabs.Raft
