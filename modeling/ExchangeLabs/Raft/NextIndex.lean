import ExchangeLabs.Raft.Actions
import ExchangeLabs.Raft.Bookkeeping

/-!
# The next index of a follower

A leader sends from `nextIndex` on what it does not know to be on a follower: above
`matchIndex`.  A success and an installed snapshot only ever move `nextIndex` up, but
a failed reply sets it to where its hint points, and nothing is compared with it: a
failed reply that comes late, or one of a follower that is behind the leader's snapshot,
moves it back to what is recorded as replicated.

## Main definitions

* `Server.HintsBack` — the hint of a failed reply points below what is recorded.
* `Cluster.FailureHintsBack c e` — a leader acts on such a reply.

## Main results

* `Server.conflictNext_le_iff` — these are the replies that move it back.
* `matchIndex_lt_nextIndex` — **in runs without them `nextIndex` stays above `matchIndex`.**
* `not_matchIndex_lt_nextIndex` — a late one breaks it.
-/

namespace ExchangeLabs.Raft

open History

variable {n : ℕ} {α β : Type} {c c' : Cluster n α β}

namespace Server

variable {rf rf' : Server n α β}

/-- The last position of a term below `i`. -/
theorem lastIndexOfTerm_spec (log : List (LogEntry α)) (t : ℤ) (i : ℕ) :
    (lastIndexOfTerm log t i = -1 ∧ ∀ k < i, log[k]?.map LogEntry.term ≠ some t) ∨
      ∃ k < i, lastIndexOfTerm log t i = k ∧ log[k]?.map LogEntry.term = some t ∧
        ∀ j < i, log[j]?.map LogEntry.term = some t → j ≤ k := by
  induction i with
  | zero => exact Or.inl ⟨rfl, fun k hk => absurd hk (Nat.not_lt_zero k)⟩
  | succ i ih =>
    rw [lastIndexOfTerm]
    split
    · next hi => exact Or.inr ⟨i, Nat.lt_succ_self i, rfl, hi, fun j hj _ => Nat.le_of_lt_succ hj⟩
    · next hi =>
      rcases ih with ⟨hnone, hall⟩ | ⟨k, hk, heq, hterm, hlast⟩
      · refine Or.inl ⟨hnone, fun k hk => ?_⟩
        rcases Nat.lt_succ_iff_lt_or_eq.mp hk with hlt | rfl
        · exact hall k hlt
        · exact hi
      · refine Or.inr ⟨k, by omega, heq, hterm, fun j hj hj' => ?_⟩
        rcases Nat.lt_succ_iff_lt_or_eq.mp hj with hlt | rfl
        · exact hlast j hlt hj'
        · exact absurd hj' hi

/-- The hint of a failed reply points below what is recorded as replicated on the server: its
index does, or, where the leader has entries of the conflicting term, all of these do. -/
def HintsBack (rf : Server n α β) (server : Fin n) (reply : AppendingEntriesReply) : Prop :=
  if reply.conflictTerm = -1 ∨
      ∀ k < rf.log.length, rf.log[k]?.map LogEntry.term ≠ some reply.conflictTerm then
    reply.conflictIndex ≤ rf.matchIndex server
  else
    ∀ k < rf.log.length, rf.log[k]?.map LogEntry.term = some reply.conflictTerm →
      rf.lastIncludedIndex + k < rf.matchIndex server

instance (rf : Server n α β) (server : Fin n) (reply : AppendingEntriesReply) :
    Decidable (rf.HintsBack server reply) := by
  unfold HintsBack
  infer_instance

theorem conflictNext_le_iff (rf : Server n α β) (server : Fin n) (reply : AppendingEntriesReply) :
    rf.conflictNext reply ≤ rf.matchIndex server ↔ rf.HintsBack server reply := by
  unfold conflictNext HintsBack
  dsimp only
  by_cases hnone : reply.conflictTerm = -1
  · rw [if_pos hnone, if_pos (Or.inl hnone)]
  rw [if_neg hnone]
  -- the leader has no entry of the conflicting term, or takes its last one
  rcases lastIndexOfTerm_spec rf.log reply.conflictTerm rf.log.length with
    ⟨heq, hall⟩ | ⟨k, hk, heq, hterm, hlast⟩
  · rw [heq, if_neg (by simp), if_pos (Or.inr hall)]
  · have hex : ¬ (reply.conflictTerm = -1 ∨
        ∀ k < rf.log.length, rf.log[k]?.map LogEntry.term ≠ some reply.conflictTerm) := by
      rintro (h | h)
      · exact hnone h
      · exact h k hk hterm
    rw [heq, if_pos (by omega), if_neg hex]
    constructor
    · intro hle j hj hj'
      have := hlast j hj hj'
      omega
    · intro hlt
      have := hlt k hk hterm
      omega

/-! ### Who moves the bookkeeping -/

/-- A leader was one before, with the same bookkeeping. -/
def SameLead (rf rf' : Server n α β) : Prop :=
  rf'.state = .leader → rf.state = .leader ∧ rf'.currentTerm = rf.currentTerm ∧
    rf'.matchIndex = rf.matchIndex ∧ rf'.nextIndex = rf.nextIndex

theorem SameLead.refl (rf : Server n α β) : rf.SameLead rf := fun hl => ⟨hl, rfl, rfl, rfl⟩

theorem SameLead.trans {rf'' : Server n α β} (h₁ : rf.SameLead rf') (h₂ : rf'.SameLead rf'') :
    rf.SameLead rf'' := by
  intro hl
  obtain ⟨hl', hterm', hmatch', hnext'⟩ := h₂ hl
  obtain ⟨hl'', hterm, hmatch, hnext⟩ := h₁ hl'
  exact ⟨hl'', hterm'.trans hterm, hmatch'.trans hmatch, hnext'.trans hnext⟩

theorem sameLead_of_ne (hst : rf'.state ≠ .leader) : rf.SameLead rf' := fun hl => absurd hl hst

theorem sameLead_persist (rf : Server n α β) : rf.SameLead rf.persist :=
  fun hl => ⟨hl, rfl, rfl, rfl⟩

theorem sameLead_stepDown (rf : Server n α β) (term : ℤ) : rf.SameLead (rf.stepDown term) :=
  sameLead_of_ne (by simp [stepDown])

theorem sameLead_acceptTerm (rf : Server n α β) (term : ℤ) : rf.SameLead (rf.acceptTerm term) := by
  unfold acceptTerm
  dsimp only
  split_ifs
  · exact sameLead_of_ne (by simp)
  · exact sameLead_stepDown rf term
  · exact sameLead_of_ne (by simp)
  · exact SameLead.refl rf

theorem sameLead_requestVote (rf : Server n α β) (args : RequestVoteArgs n) :
    rf.SameLead (rf.requestVote args).1 := by
  unfold requestVote
  dsimp only
  split_ifs
  · exact sameLead_persist rf
  · exact sameLead_of_ne (by simp [stepDown, persist, save])
  · exact sameLead_of_ne (by simp [stepDown, persist, save])
  · exact fun hl => ⟨hl, rfl, rfl, rfl⟩
  · exact sameLead_persist rf

theorem sameLead_appendEntriesLog {args : AppendingEntriesArgs n α} {reply : AppendingEntriesReply}
    (hx : rf.appendEntriesLog args = some (rf', reply)) : rf.SameLead rf' := by
  unfold appendEntriesLog at hx
  split_ifs at hx
  · cases hx
    exact SameLead.refl _
  · cases hx
    exact SameLead.refl _
  obtain ⟨t, -, hx⟩ := Option.bind_eq_some_iff.mp hx
  split_ifs at hx
  · obtain ⟨i, -, hx⟩ := Option.bind_eq_some_iff.mp hx
    cases hx
    exact SameLead.refl _
  · obtain ⟨rf₁, hmerge, hx⟩ := Option.bind_eq_some_iff.mp hx
    cases hx
    have hrf₁ := mergeEntries_fields _ _ _ _ hmerge
    generalize rf₁.log = log at hrf₁
    subst hrf₁
    unfold advanceCommit
    split <;> exact fun hl => ⟨hl, rfl, rfl, rfl⟩

theorem sameLead_appendEntries {args : AppendingEntriesArgs n α} {reply : AppendingEntriesReply}
    (hx : rf.appendEntries args = some (rf', reply)) : rf.SameLead rf' := by
  unfold appendEntries at hx
  split at hx
  · cases hx
    exact sameLead_persist rf
  · obtain ⟨⟨rf₁, reply₁⟩, hlog, hx⟩ := Option.bind_eq_some_iff.mp hx
    cases hx
    exact ((sameLead_acceptTerm rf _).trans (sameLead_appendEntriesLog hlog)).trans
      (sameLead_persist rf₁)

theorem sameLead_installSnapshotLog {args : InstallSnapshotArgs n β}
    (hx : rf.installSnapshotLog args = some rf') : rf.SameLead rf' := by
  unfold installSnapshotLog at hx
  split at hx
  · cases hx
    exact SameLead.refl rf
  · obtain ⟨log, -, hx⟩ := Option.bind_eq_some_iff.mp hx
    cases hx
    exact fun hl => ⟨hl, rfl, rfl, rfl⟩

theorem sameLead_installSnapshot {args : InstallSnapshotArgs n β} {reply : InstallSnapshotReply}
    (hx : rf.installSnapshot args = some (rf', reply)) : rf.SameLead rf' := by
  unfold installSnapshot at hx
  split at hx
  · cases hx
    exact SameLead.refl rf
  obtain ⟨rf₂, hlog, hx⟩ := Option.bind_eq_some_iff.mp hx
  cases hx
  refine SameLead.trans ?_ (sameLead_installSnapshotLog hlog)
  split_ifs
  · exact sameLead_of_ne (by simp)
  · exact (sameLead_stepDown rf _).trans (sameLead_persist _)
  · exact sameLead_of_ne (by simp)
  · exact SameLead.refl rf

theorem sameLead_receiveVote (rf : Server n α β) (votesReceived : ℕ) (term : ℤ)
    (reply : RequestVoteReply) : rf.SameLead (rf.receiveVote votesReceived term reply).1 ∨
      (rf.receiveVote votesReceived term reply).1 = rf.becomeLeader := by
  unfold receiveVote
  split_ifs
  · exact Or.inl (SameLead.refl rf)
  · exact Or.inl ((sameLead_stepDown rf _).trans (sameLead_persist _))
  · exact Or.inr rfl
  · exact Or.inl (SameLead.refl rf)
  · exact Or.inl (SameLead.refl rf)

theorem sameLead_start (rf : Server n α β) (command : Option α) :
    rf.SameLead (rf.start command).1 := by
  unfold start
  split
  · exact SameLead.refl rf
  · exact fun hl => ⟨hl, rfl, rfl, rfl⟩

theorem sameLead_takeSnapshot {index : ℤ} {data : Option β}
    (hx : rf.takeSnapshot index data = some rf') : rf.SameLead rf' := by
  unfold takeSnapshot at hx
  split at hx
  · cases hx
    exact SameLead.refl rf
  · obtain ⟨e, -, hx⟩ := Option.bind_eq_some_iff.mp hx
    obtain ⟨log, -, hx⟩ := Option.bind_eq_some_iff.mp hx
    cases hx
    exact fun hl => ⟨hl, rfl, rfl, rfl⟩

theorem sameLead_checkCommit (hx : rf.checkCommit = some rf') : rf.SameLead rf' := by
  rw [checkCommit_eq hx]
  exact fun hl => ⟨hl, rfl, rfl, rfl⟩

end Server

/-- **Who moves the bookkeeping of a leader**: winning an election, and the replies to
`AppendEntries` and `InstallSnapshot`. -/
theorem Cluster.Acted.sameLead {s : Fin n} {e : Event n α β} {rf' : Server n α β}
    (ha : c.Acted s e rf') :
    (c.nodes s).server.SameLead rf' ∨ rf' = (c.nodes s).server.becomeLeader ∨
      (∃ id i args reply, e = .receive id ∧
        c.calls id = some ⟨s, (c.nodes s).epoch, i, .appendEntries args (some reply)⟩ ∧
        (c.nodes s).server.receiveAppendEntries i args reply = some rf') ∨
      ∃ id i args reply, e = .receive id ∧
        c.calls id = some ⟨s, (c.nodes s).epoch, i, .installSnapshot args (some reply)⟩ ∧
        (c.nodes s).server.receiveInstallSnapshot i args reply = some rf' := by
  cases ha with
  | startElection hst => exact Or.inl (Server.sameLead_of_ne (by simp [Server.startElection,
      Server.persist, Server.save]))
  | requestVote id caller epoch args hid => exact Or.inl (Server.sameLead_requestVote _ _)
  | appendEntries id caller epoch args hid rf' reply hx =>
    exact Or.inl (Server.sameLead_appendEntries hx)
  | installSnapshot id caller epoch args hid rf' reply hx =>
    exact Or.inl (Server.sameLead_installSnapshot hx)
  -- a vote may win the election
  | receiveVote id callee args reply hid =>
    rcases Server.sameLead_receiveVote (c.nodes s).server ((c.nodes s).votesReceived args.term)
      args.term reply with hsame | hlead
    · exact Or.inl hsame
    · exact Or.inr (Or.inl hlead)
  | receiveAppendEntries id callee args reply hid rf' hx =>
    exact Or.inr (Or.inr (Or.inl ⟨id, callee, args, reply, rfl, hid, hx⟩))
  | receiveInstallSnapshot id callee args reply hid rf' hx =>
    exact Or.inr (Or.inr (Or.inr ⟨id, callee, args, reply, rfl, hid, hx⟩))
  | start command => exact Or.inl (Server.sameLead_start _ _)
  | takeSnapshot index data rf' hx => exact Or.inl (Server.sameLead_takeSnapshot hx)
  | recordApplied newLastApplied happ => exact Or.inl fun hl => ⟨hl, rfl, rfl, rfl⟩
  | make =>
    refine Or.inl (Server.sameLead_of_ne ?_)
    rw [(Server.persister_make s _).2.2]
    simp

/-! ### Above what is recorded -/

namespace Server

variable {rf rf' : Server n α β}

/-- What a leader sends to the others starts above what it has recorded for them. -/
def Ordered (rf : Server n α β) : Prop :=
  rf.state = .leader → ∀ i, i ≠ rf.me → rf.matchIndex i < rf.nextIndex i

theorem Ordered.of_sameLead (ho : rf.Ordered) (hs : rf.SameLead rf') (hme : rf'.me = rf.me) :
    rf'.Ordered := by
  intro hl i hi
  obtain ⟨hl', -, hmatch, hnext⟩ := hs hl
  rw [hmatch, hnext]
  exact ho hl' i (hme ▸ hi)

theorem ordered_becomeLeader (hlog : rf.log ≠ []) : rf.becomeLeader.Ordered := by
  intro _ i hi
  have hlen := List.length_pos_iff.mpr hlog
  show Function.update (fun _ => rf.lastIncludedIndex) rf.me rf.getLastLogIndex i <
    rf.getLastLogIndex + 1
  have hne : i ≠ rf.me := hi
  rw [Function.update_of_ne hne]
  unfold getLastLogIndex
  omega

theorem ordered_receiveAppendEntries {i : Fin n} {args : AppendingEntriesArgs n α}
    {reply : AppendingEntriesReply} (ho : rf.Ordered)
    (hhint : rf.state = .leader → reply.term ≤ rf.currentTerm → reply.success = false →
      ¬ rf.HintsBack i reply)
    (hx : rf.receiveAppendEntries i args reply = some rf') : rf'.Ordered := by
  unfold receiveAppendEntries at hx
  dsimp only at hx
  split_ifs at hx with hterm hst hsucc hmore
  · cases hx
    exact ho.of_sameLead ((sameLead_stepDown rf _).trans (sameLead_persist _)) rfl
  · cases hx
    exact ho
  · -- a success that is news moves both up
    have hme : rf'.me = rf.me := by rw [checkCommit_eq hx]
    refine Ordered.of_sameLead (fun hl j hj => ?_) (sameLead_checkCommit hx) hme
    by_cases hji : j = i
    · subst hji
      simp only [Function.update_self]
      omega
    · simp only [Function.update_of_ne hji]
      exact ho hl j hj
  · cases hx
    exact ho
  · cases hx
    intro hl j hj
    by_cases hji : j = i
    · subst hji
      -- a rejection takes the next index back, but not to what is matched
      have hback := hhint hl (not_lt.mp hterm) (Bool.eq_false_iff.mpr hsucc)
      rw [← conflictNext_le_iff, not_le] at hback
      simpa only [Function.update_self] using hback
    · simp only [Function.update_of_ne hji]
      exact ho hl j hj

/-- An entry that is raised to a value, unless it is there already. -/
theorem raise_apply (f : Fin n → ℤ) (i j : Fin n) (v : ℤ) :
    (if f i < v then Function.update f i v else f) j = if j = i then max (f i) v else f j := by
  by_cases hji : j = i
  · subst hji
    rw [if_pos rfl]
    split
    · next hlt => rw [Function.update_self, max_eq_right hlt.le]
    · next hge => rw [max_eq_left (not_lt.mp hge)]
  · rw [if_neg hji]
    split
    · rw [Function.update_of_ne hji]
    · rfl

theorem ordered_receiveInstallSnapshot {i : Fin n} {args : InstallSnapshotArgs n β}
    {reply : InstallSnapshotReply} (ho : rf.Ordered)
    (hx : rf.receiveInstallSnapshot i args reply = some rf') : rf'.Ordered := by
  unfold receiveInstallSnapshot at hx
  split at hx
  · cases hx
    exact ho.of_sameLead ((sameLead_stepDown rf _).trans (sameLead_persist _)) rfl
  split at hx
  · cases hx
    exact ho
  · have hme : rf'.me = rf.me := by rw [checkCommit_eq hx]
    refine Ordered.of_sameLead (fun hl j hj => ?_) (sameLead_checkCommit hx) hme
    have hold := ho hl j hj
    simp only [raise_apply]
    split_ifs with hji
    · subst hji
      omega
    · exact hold

end Server

/-- A leader acts on a failed reply that points below what it has recorded. -/
def Cluster.FailureHintsBack (c : Cluster n α β) : Event n α β → Prop
  | .receive id =>
    match c.calls id with
    | some { caller := s, epoch := _, callee := i, rpc := .appendEntries _ (some reply) } =>
      (c.nodes s).server.state = .leader ∧ reply.term ≤ (c.nodes s).server.currentTerm ∧
        reply.success = false ∧ (c.nodes s).server.HintsBack i reply
    | _ => False
  | _ => False

instance (c : Cluster n α β) : (e : Event n α β) → Decidable (c.FailureHintsBack e)
  | .receive id => by
    dsimp only [Cluster.FailureHintsBack]
    exact match c.calls id with
    | some ⟨_, _, _, .appendEntries _ (some _)⟩ => inferInstanceAs (Decidable (_ ∧ _))
    | some ⟨_, _, _, .appendEntries _ none⟩ | some ⟨_, _, _, .requestVote ..⟩
    | some ⟨_, _, _, .installSnapshot ..⟩ | none => inferInstanceAs (Decidable False)
  | .electionTimeout _ | .heartbeat .. | .sendInstallSnapshot .. | .handle _ | .start ..
    | .snapshot ..
  | .applierCopy _ | .applierSend _ | .applierRecord _ | .restart _ =>
    inferInstanceAs (Decidable False)

theorem ordered_of_step {h : Logs n α} (hr : Refines c h) {e : Event n α β}
    (hok : ¬ c.FailureHintsBack e) (hc' : c.step e = some c')
    (ho : ∀ s, (c.nodes s).server.Ordered) (s : Fin n) : (c'.nodes s).server.Ordered := by
  obtain ⟨-, h', -, hr'⟩ := hr.of_step hc'
  have hme : (c'.nodes s).server.me = (c.nodes s).server.me :=
    (hr'.server s).me.trans (hr.server s).me.symm
  rcases Cluster.acted_of_step hc' s with hsame | hacted
  · rw [hsame]
    exact ho s
  rcases hacted.sameLead with hlead | hlead | ⟨id, i, args, reply, rfl, hid, hx⟩ |
    ⟨id, i, args, reply, rfl, hid, hx⟩
  · exact (ho s).of_sameLead hlead hme
  · rw [hlead]
    obtain ⟨d, hlog, -⟩ := (hr.server s).log.log
    exact Server.ordered_becomeLeader (hlog ▸ List.cons_ne_nil _ _)
  · refine Server.ordered_receiveAppendEntries (ho s) (fun hl hterm hsucc hback => hok ?_) hx
    simp only [Cluster.FailureHintsBack, hid]
    exact ⟨hl, hterm, hsucc, hback⟩
  · exact Server.ordered_receiveInstallSnapshot (ho s) hx

/-- **`nextIndex` stays above `matchIndex`** at every leader, for every other server, in the runs in
which no leader acts on a failed reply that points below what it has recorded. -/
theorem matchIndex_lt_nextIndex
    (hc : ReachWhile Cluster.step (fun c e => ¬ c.FailureHintsBack e) Cluster.init c) {s i : Fin n}
    (hl : (c.nodes s).server.state = .leader) (hi : i ≠ s) :
    (c.nodes s).server.matchIndex i < (c.nodes s).server.nextIndex i := by
  have hinv : (∃ h, Refines c h) ∧ ∀ s, (c.nodes s).server.Ordered := by
    refine hc.invariant (P := fun c => (∃ h, Refines c h) ∧ ∀ s, (c.nodes s).server.Ordered)
      ⟨⟨_, refines_init⟩, fun s hl => by cases hl⟩ ?_
    rintro d e d' ⟨⟨h, hr⟩, ho⟩ hok hstep
    obtain ⟨-, h', -, hr'⟩ := hr.of_step hstep
    exact ⟨⟨h', hr'⟩, ordered_of_step hr hok hstep ho⟩
  obtain ⟨⟨h, hr⟩, ho⟩ := hinv
  exact ho s hl i ((hr.server s).me.symm ▸ hi)

/-- Server `0` leads term 2 with an entry of term 1, which the other one does not have.  Two
requests are rejected; the first rejection is answered by a request that succeeds. -/
def rejectedRun : List (Event 2 ℕ Unit) :=
  [.electionTimeout 0, .handle 0, .receive 0, .start 0 (some 7), .restart 0,
    .electionTimeout 0, .handle 1, .receive 1, .heartbeat 0 1, .heartbeat 0 1, .handle 2, .handle 3,
    .receive 2, .heartbeat 0 1, .handle 4, .receive 4]

theorem matchIndex_lt_nextIndex_rejectedRun : ∃ c : Cluster 2 ℕ Unit,
    run (restrict Cluster.step fun c e => ¬ c.FailureHintsBack e) Cluster.init
      rejectedRun = some c ∧
      (c.nodes 0).server.state = .leader ∧
      (c.nodes 0).server.matchIndex 1 < (c.nodes 0).server.nextIndex 1 := by
  have hobs : (run (restrict Cluster.step fun c e => ¬ c.FailureHintsBack e) Cluster.init
      rejectedRun).map (fun c => (c.nodes 0).server.state) = some .leader := by decide +kernel
  obtain ⟨c, hc, hl⟩ := Option.map_eq_some_iff.mp hobs
  exact ⟨c, hc, hl, matchIndex_lt_nextIndex (reachWhile_of_run _ _ _ hc) hl (by decide)⟩

/-- **`nextIndex` falls back**: the other rejection, of the same term, comes last. -/
theorem not_matchIndex_lt_nextIndex : ∃ c : Cluster 2 ℕ Unit,
    run Cluster.step Cluster.init (rejectedRun ++ [.receive 3]) = some c ∧
      Reach Cluster.step Cluster.init c ∧ (c.nodes 0).server.state = .leader ∧
      ¬ (c.nodes 0).server.matchIndex 1 < (c.nodes 0).server.nextIndex 1 := by
  have hobs : (run Cluster.step Cluster.init (rejectedRun ++ [.receive 3])).map (fun c =>
      ((c.nodes 0).server.state, (c.nodes 0).server.matchIndex 1, (c.nodes 0).server.nextIndex 1)) =
      some (.leader, 1, 1) := by decide +kernel
  obtain ⟨c, hc, hval⟩ := Option.map_eq_some_iff.mp hobs
  simp only [Prod.mk.injEq] at hval
  obtain ⟨hl, hmatch, hnext⟩ := hval
  refine ⟨c, hc, reach_of_run _ _ _ hc, hl, ?_⟩
  rw [hmatch, hnext]
  decide

end ExchangeLabs.Raft
