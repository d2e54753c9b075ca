import ExchangeLabs.Raft.Bookkeeping
import ExchangeLabs.Raft.Simulation

/-!
# State machine safety

The second half of the argument: what a leader takes for replicated is, what is
taken for committed is, and only what is committed is delivered.  It rests on
the leader believing a reply only in the term of its request, which the source
checks for `InstallSnapshot` and not for `AppendEntries`; so the steps here are
those at which no leader believes a stale reply to `AppendEntries`.

## Main definitions

* `Settled h T L k` — the first `k` entries of `L` are committed up to the term `T`.
* `Safe c h` — the invariant, field by field.

## Main results

* `Server.At.committed_of_count` — what `checkCommit` counts is chosen.
* `Safe.of_step` — **the invariant is preserved** by every step that believes no
  stale reply.
* `exists_safe` — so it holds after every run of such steps.
-/

namespace ExchangeLabs.Raft

open History

variable {n : ℕ} {α β : Type} {c c' : Cluster n α β} {h h' : Logs n α} {s : Fin n}

/-! ### The invariant -/

/-- The log `L` starts with `k` entries or more that are committed up to the term `T`. -/
def Settled (h : Logs n α) (T : ℤ) (L : List (LogEntry α)) (k : ℤ) : Prop :=
  ∃ q, Committed LogEntry.term h T q ∧ q <+: L ∧ k ≤ q.length

/-- The indices of a server say what is replicated and committed. -/
structure Server.Safe (rf : Server n α β) (h : Logs n α) (s : Fin n) : Prop where
  /-- What a leader takes for replicated is acknowledged. -/
  matched : rf.state = .leader → ∀ i, rf.lastIncludedIndex < rf.matchIndex i →
    rf.matchIndex i ≤ (h.tlog (h.term s)).length ∧ Acked h i (h.term s) (rf.matchIndex i).toNat
  commit : Settled h (h.term s) (h.log s) rf.commitIndex
  snapshot : Settled h (h.term s) (h.log s) rf.lastIncludedIndex

/-- What a request says about commitment, and a reply to a snapshot about the
follower that took it. -/
def Rpc.Safe (h : Logs n α) (callee : Fin n) : Rpc n α β → Prop
  | .requestVote _ _ => True
  | .appendEntries args _ => Settled h args.term (h.tlog args.term) args.leaderCommit
  | .installSnapshot args reply =>
    Settled h args.term (h.tlog args.term) args.lastIncludedIndex ∧
      ∀ r, reply = some r → r.term ≤ args.term →
        Acked h callee args.term args.lastIncludedIndex.toNat

/-- What the applier is about to deliver is committed. -/
def Applier.Safe (h : Logs n α) (s : Fin n) : Applier α β → Prop
  | .sendSnapshot msg _ =>
    msg.commandValid = false ∧ Settled h (h.term s) (h.log s) msg.snapshotIndex
  | .sendEntries index entries _ =>
    1 ≤ index ∧ ∃ q, Committed LogEntry.term h (h.term s) q ∧ q <+: h.log s ∧
      entries <+: q.drop (index - 1).toNat
  | _ => True

/-- What has been delivered is committed. -/
def Delivery.Safe (h : Logs n α) (d : Delivery n α β) : Prop :=
  ∃ q, Committed LogEntry.term h (h.term d.server) q ∧ q <+: h.log d.server ∧
    d.msg.index ≤ q.length ∧
    (d.msg.commandValid = true → 1 ≤ d.msg.commandIndex ∧
      ∃ e, q[(d.msg.commandIndex - 1).toNat]? = some e ∧ e.command = d.msg.command)

structure Safe (c : Cluster n α β) (h : Logs n α) : Prop where
  server : ∀ s, (c.nodes s).server.Safe h s
  call : ∀ id call, c.calls id = some call → call.rpc.Safe h call.callee
  applier : ∀ s, (c.nodes s).applier.Safe h s
  applied : ∀ d ∈ c.applied, d.Safe h

/-! ### Stability -/

section Stability

/-- A server keeps its committed prefixes. -/
theorem Le.keeps_log (hi : h.Inv LogEntry.term) (hle : Le LogEntry.term h h')
    {q : List (LogEntry α)} (hq : Committed LogEntry.term h (h.term s) q) (hqs : q <+: h.log s) :
    Committed LogEntry.term h' (h'.term s) q ∧ q <+: h'.log s :=
  ⟨(hq.of_le hi hle).mono (hle.term_le s), hle.keeps s q hq hqs⟩

theorem Settled.of_log (hi : h.Inv LogEntry.term) (hle : Le LogEntry.term h h') {k : ℤ}
    (hk : Settled h (h.term s) (h.log s) k) : Settled h' (h'.term s) (h'.log s) k := by
  obtain ⟨q, hq, hqs, hlen⟩ := hk
  obtain ⟨h1, h2⟩ := Le.keeps_log hi hle hq hqs
  exact ⟨q, h1, h2, hlen⟩

theorem Settled.of_tlog (hi : h.Inv LogEntry.term) (hle : Le LogEntry.term h h') {T k : ℤ}
    (hT : (h.elected T).isSome) (hk : Settled h T (h.tlog T) k) : Settled h' T (h'.tlog T) k := by
  obtain ⟨q, hq, hqs, hlen⟩ := hk
  exact ⟨q, hq.of_le hi hle, hqs.trans (hle.tlog T hT), hlen⟩

theorem Settled.mono {T k k' : ℤ} {L : List (LogEntry α)} (hk : Settled h T L k) (hk' : k' ≤ k) :
    Settled h T L k' := by
  obtain ⟨q, hq, hqs, hlen⟩ := hk
  exact ⟨q, hq, hqs, hk'.trans hlen⟩

theorem settled_zero {T : ℤ} {L : List (LogEntry α)} : Settled h T L 0 :=
  ⟨[], .nil, List.nil_prefix, le_rfl⟩

/-- What is settled in the leader's log and held by a server is settled there. -/
theorem Settled.of_take_isPrefix {T U k : ℤ} {m : ℕ} {L F : List (LogEntry α)}
    (hk : Settled h T L k)
    (hTU : T ≤ U) (hkm : k ≤ m) (hF : L.take m <+: F) : Settled h U F k := by
  obtain ⟨q, hq, hqL, hlen⟩ := hk
  refine ⟨q.take m, (hq.of_isPrefix (List.take_prefix m q)).mono hTU, ?_, ?_⟩
  · exact (List.IsPrefix.take hqL m).trans hF
  · rw [List.length_take]
    omega

/-- **Settled prefixes agree.** -/
theorem Settled.take_eq (hi : h.Inv LogEntry.term) {T U k : ℤ} {L F : List (LogEntry α)}
    (hL : Settled h T L k) (hF : Settled h U F k) : L.take k.toNat = F.take k.toNat := by
  obtain ⟨p, hp, hpL, hplen⟩ := hL
  obtain ⟨q, hq, hqF, hqlen⟩ := hF
  rw [take_eq_of_isPrefix hpL (by omega), take_eq_of_isPrefix hqF (by omega)]
  rcases hp.isPrefix_or_isPrefix hi hq with hpq | hqp
  · exact (take_eq_of_isPrefix hpq (by omega)).symm
  · exact take_eq_of_isPrefix hqp (by omega)

theorem Rpc.Safe.of_le (hi : h.Inv LogEntry.term) (hle : Le LogEntry.term h h')
    {caller callee : Fin n} {rpc : Rpc n α β} (hsound : rpc.Sound h caller callee)
    (hs : rpc.Safe h callee) : rpc.Safe h' callee := by
  cases rpc with
  | requestVote args reply => trivial
  | appendEntries args reply => exact Settled.of_tlog hi hle (by simp [hsound.1]) hs
  | installSnapshot args reply =>
    have hT : (h.elected args.term).isSome := by simp [hsound.1]
    have hlen := hsound.2.le
    exact ⟨Settled.of_tlog hi hle hT hs.1,
      fun r hr hterm => (hs.2 r hr hterm).of_le hle hT (by omega)⟩

theorem Applier.Safe.of_le (hi : h.Inv LogEntry.term) (hle : Le LogEntry.term h h')
    {a : Applier α β} (hs : a.Safe h s) : a.Safe h' s := by
  cases a with
  | waiting => trivial
  | sendSnapshot msg newLastApplied => exact ⟨hs.1, hs.2.of_log hi hle⟩
  | sendEntries index entries lastIndex =>
    obtain ⟨h1, q, hq, hqs, hent⟩ := hs
    obtain ⟨h2, h3⟩ := Le.keeps_log hi hle hq hqs
    exact ⟨h1, q, h2, h3, hent⟩
  | sent newLastApplied => trivial

theorem Delivery.Safe.of_le (hi : h.Inv LogEntry.term) (hle : Le LogEntry.term h h')
    {d : Delivery n α β} (hs : d.Safe h) : d.Safe h' := by
  obtain ⟨q, hq, hqs, hrest⟩ := hs
  obtain ⟨h1, h2⟩ := Le.keeps_log hi hle hq hqs
  exact ⟨q, h1, h2, hrest⟩

/-- What a critical section leaves alone stays safe; what it moves has to be. -/
theorem Server.Safe.of_le {rf rf' : Server n α β} (hi : h.Inv LogEntry.term)
    (hle : Le LogEntry.term h h') (ha : rf.At h s) (ha' : rf'.At h' s) (hs : rf.Safe h s)
    (hlii : rf.lastIncludedIndex ≤ rf'.lastIncludedIndex)
    (hleader : rf'.state = .leader →
      rf.state = .leader ∧ rf'.currentTerm = rf.currentTerm ∧ rf'.matchIndex = rf.matchIndex)
    (hcommit : rf'.commitIndex = rf.commitIndex ∨
      Settled h' (h'.term s) (h'.log s) rf'.commitIndex)
    (hsnap : rf'.lastIncludedIndex = rf.lastIncludedIndex ∨
      Settled h' (h'.term s) (h'.log s) rf'.lastIncludedIndex) : rf'.Safe h' s where
  matched := by
    intro hl i hi'
    obtain ⟨hst, hterm, hm⟩ := hleader hl
    rw [hm] at hi' ⊢
    rw [← ha'.term, hterm, ha.term]
    have hT : (h.elected (h.term s)).isSome := by simp [ha.leader hst]
    obtain ⟨h1, h2⟩ := hs.matched hst i (hlii.trans_lt hi')
    have hpre := (hle.tlog _ hT).length_le
    exact ⟨by omega, h2.of_le hle hT (by omega)⟩
  commit := by
    rcases hcommit with heq | hset
    · rw [heq]
      exact hs.commit.of_log hi hle
    · exact hset
  snapshot := by
    rcases hsnap with heq | hset
    · rw [heq]
      exact hs.snapshot.of_log hi hle
    · exact hset

theorem Server.Safe.of_keeps {rf rf' : Server n α β} (hi : h.Inv LogEntry.term)
    (hle : Le LogEntry.term h h') (ha : rf.At h s) (ha' : rf'.At h' s) (hs : rf.Safe h s)
    (hk : rf.Keeps rf') : rf'.Safe h' s :=
  hs.of_le hi hle ha ha' hk.lastIncludedIndex.ge hk.leader (Or.inl hk.commitIndex)
    (Or.inl hk.lastIncludedIndex)

/-- **One server moves**: the rest of the cluster stays safe. -/
theorem Safe.of_actor (hr : Refines c h) (hs : Safe c h) (hr' : Refines c' h')
    (hle : Le LogEntry.term h h') (hother : ∀ r ≠ s, c'.nodes r = c.nodes r)
    (hserver : (c'.nodes s).server.Safe h' s) (happ : (c'.nodes s).applier.Safe h' s)
    (hcall : ∀ id call, c'.calls id = some call →
      c.calls id = some call ∨ call.rpc.Safe h' call.callee)
    (happlied : ∀ d ∈ c'.applied, d ∈ c.applied ∨ d.Safe h') : Safe c' h' where
  server := by
    intro r
    rcases eq_or_ne r s with rfl | hrs
    · exact hserver
    · have ha' := hr'.server r
      rw [hother r hrs] at ha' ⊢
      exact (hs.server r).of_keeps hr.inv hle (hr.server r) ha' (Server.Keeps.refl _)
  call := by
    intro id call hx
    rcases hcall id call hx with hx | hx
    · exact (hs.call id call hx).of_le hr.inv hle (hr.call id call hx)
    · exact hx
  applier := by
    intro r
    rcases eq_or_ne r s with rfl | hrs
    · exact happ
    · rw [hother r hrs]
      exact (hs.applier r).of_le hr.inv hle
  applied := by
    intro d hd
    rcases happlied d hd with hd | hd
    · exact (hs.applied d hd).of_le hr.inv hle
    · exact hd

end Stability

/-! ### Committing -/

/-- What a leader takes for replicated is held in its term. -/
theorem Server.Safe.take_isPrefix {rf : Server n α β} (hs : rf.Safe h s) (hl : rf.state = .leader)
    {i : Fin n} {N : ℤ} (hlo : rf.lastIncludedIndex < N) (hN : N ≤ rf.matchIndex i) :
    (h.tlog (h.term s)).take N.toNat <+: h.hlog i (h.term s) := by
  obtain ⟨-, -, h3⟩ := hs.matched hl i (by omega)
  exact (List.take_prefix_take_left (by omega)).trans h3

/-- **What `checkCommit` counts is committed**: a majority has held it in the
present term, and it ends in an entry of that term. -/
theorem Server.At.committed_of_count {rf : Server n α β} (hi : h.Inv LogEntry.term)
    (ha : rf.At h s) (hs : rf.Safe h s) (hl : rf.state = .leader) {N : ℤ}
    (hlo : rf.lastIncludedIndex < N) (hN : N ≤ rf.getLastLogIndex)
    (hcount : rf.countMatch N > n / 2) (hterm : rf.getLogTerm N = some rf.currentTerm) :
    Settled h (h.term s) (h.log s) N := by
  have hel := ha.leader hl
  have hlog := hi.log_of_leader hel
  have hnn := ha.log.nonneg
  rw [ha.log.getLastLogIndex_eq] at hN
  rw [ha.log.getLogTerm_eq hlo.le hN, Option.some.injEq, ha.term] at hterm
  obtain ⟨k, hk⟩ : ∃ k : ℕ, N.toNat = k + 1 := ⟨N.toNat - 1, by omega⟩
  obtain ⟨e, -, he, het⟩ := exists_take_eq (F := h.log s) (k := k) (by omega)
  rw [hk] at hterm
  have hlen : N ≤ ((h.log s).take N.toNat).length := by
    rw [List.length_take]
    omega
  refine ⟨(h.log s).take N.toNat, Or.inr ⟨h.term s, le_rfl, _, ?_, List.prefix_rfl⟩,
    List.take_prefix _ _, hlen⟩
  refine
    { led := by simp [hel]
      last := ⟨(h.log s).take k, e, hk ▸ he, het ▸ hterm⟩
      prefix_tlog := hlog ▸ List.take_prefix _ _
      -- those that are counted, and the leader itself, which `checkCommit` does not ask
      majority := ⟨insert rf.me (Finset.univ.filter fun i => rf.matchIndex i ≥ N), ?_,
        fun i hmem => ?_⟩ }
  · rw [Server.countMatch_eq] at hcount
    unfold IsMajority
    rw [Fintype.card_fin]
    omega
  · rw [hlog]
    rcases Finset.mem_insert.mp hmem with rfl | hmem
    · rw [ha.me, ← hi.leader_log _ _ hel]
      exact List.take_prefix _ _
    · exact hs.take_isPrefix hl hlo (Finset.mem_filter.mp hmem).2

/-- **`checkCommit`** keeps a leader safe. -/
theorem Server.Safe.checkCommit {rf rf' : Server n α β} (hs : rf.Safe h s)
    (hi : h.Inv LogEntry.term) (ha : rf.At h s) (hl : rf.state = .leader)
    (hx : rf.checkCommit = some rf') : rf'.Safe h s := by
  rcases Server.checkCommit_cases hx with rfl | ⟨N, rfl, hlo, hN, hcount, hterm⟩
  · exact hs
  · exact
      { matched := hs.matched
        commit := ha.committed_of_count hi hs hl hlo hN hcount hterm
        snapshot := hs.snapshot }

/-- A leader learns that a follower has acknowledged `N`. -/
theorem Server.Safe.update_matchIndex {rf : Server n α β} (hs : rf.Safe h s) {p : Fin n} {N : ℤ}
    (hN : N ≤ (h.tlog (h.term s)).length) (hack : Acked h p (h.term s) N.toNat)
    (nextIndex : Fin n → ℤ) :
    ({ rf with matchIndex := Function.update rf.matchIndex p N, nextIndex := nextIndex }
      : Server n α β).Safe h s where
  matched := by
    intro hl i hlo
    rcases eq_or_ne i p with rfl | hip
    · simp only [Function.update_self] at hlo ⊢
      exact ⟨hN, hack⟩
    · simp only [Function.update_of_ne hip] at hlo ⊢
      exact hs.matched hl i hlo
  commit := hs.commit
  snapshot := hs.snapshot

/-- **A fresh reply to `AppendEntries`** keeps the leader safe. -/
theorem Server.Safe.receiveAppendEntries {rf rf' : Server n α β} (hi : h.Inv LogEntry.term)
    (hle : Le LogEntry.term h h') (ha : rf.At h s) (ha' : rf'.At h' s) (hs : rf.Safe h s)
    {p : Fin n}
    {args : AppendingEntriesArgs n α} {reply : AppendingEntriesReply}
    (hslice : args.SliceOf (h.tlog args.term))
    (hack : reply.success = true → Acked h p args.term args.lastNew)
    (hfresh : rf.state = .leader → reply.term ≤ rf.currentTerm → reply.success = true →
      args.prevLogIndex + args.entries.length > rf.matchIndex p → args.term = rf.currentTerm)
    (hx : rf.receiveAppendEntries p args reply = some rf') : rf'.Safe h' s := by
  unfold Server.receiveAppendEntries at hx
  by_cases hnew : reply.term > rf.currentTerm
  · rw [if_pos hnew] at hx
    cases hx
    exact hs.of_keeps hi hle ha ha' ((Server.keeps_stepDown _ _).trans (Server.keeps_persist _))
  rw [if_neg hnew] at hx
  split at hx
  · cases hx
    exact hs.of_keeps hi hle ha ha' (Server.Keeps.refl _)
  next hl =>
  have hl := not_not.mp hl
  split at hx
  · next hsucc =>
    dsimp only at hx
    split at hx
    · next hmore =>
      -- the follower holds all that the request was about
      have hterm : args.term = h.term s :=
        (hfresh hl (not_lt.mp hnew) hsucc hmore).trans ha.term
      have hprev := hslice.nonneg
      have hlast : (args.prevLogIndex + args.entries.length : ℤ) = args.lastNew := by
        unfold AppendingEntriesArgs.lastNew
        omega
      have hN := hslice.lastNew_le
      have hrec := hs.update_matchIndex (p := p) (N := args.prevLogIndex + args.entries.length)
        (by rw [hlast, ← hterm]; exact_mod_cast hN)
        (by rw [hlast, Int.toNat_natCast, ← hterm]; exact hack hsucc)
        (Function.update rf.nextIndex p (args.prevLogIndex + args.entries.length + 1))
      have hcc := hrec.checkCommit hi (ha.congr rfl rfl fun hl => hl) hl hx
      have ha₁ : rf'.At h s := by
        rw [Server.checkCommit_eq hx]
        exact ha.congr rfl rfl fun hl => hl
      exact hcc.of_keeps hi hle ha₁ ha' (Server.Keeps.refl _)
    · cases hx
      exact hs.of_keeps hi hle ha ha' (Server.Keeps.refl _)
  · cases hx
    exact hs.of_keeps hi hle ha ha' ⟨rfl, rfl, fun hl => ⟨hl, rfl, rfl⟩⟩

/-- **A reply to `InstallSnapshot`** keeps the leader safe; here the source checks
that it is fresh. -/
theorem Server.Safe.receiveInstallSnapshot {rf rf' : Server n α β} (hi : h.Inv LogEntry.term)
    (hle : Le LogEntry.term h h') (ha : rf.At h s) (ha' : rf'.At h' s) (hs : rf.Safe h s)
    {p : Fin n}
    {args : InstallSnapshotArgs n β} {reply : InstallSnapshotReply}
    (hpre : args.PrefixOf (h.tlog args.term))
    (hack : reply.term ≤ args.term → Acked h p args.term args.lastIncludedIndex.toNat)
    (hx : rf.receiveInstallSnapshot p args reply = some rf') : rf'.Safe h' s := by
  unfold Server.receiveInstallSnapshot at hx
  by_cases hnew : reply.term > rf.currentTerm
  · rw [if_pos hnew] at hx
    cases hx
    exact hs.of_keeps hi hle ha ha' ((Server.keeps_stepDown _ _).trans (Server.keeps_persist _))
  rw [if_neg hnew] at hx
  split at hx
  · cases hx
    exact hs.of_keeps hi hle ha ha' (Server.Keeps.refl _)
  next hl =>
  push Not at hl
  obtain ⟨hl, hterm⟩ := hl
  have hack := hack (hterm ▸ not_lt.mp hnew)
  rw [← hterm, ha.term] at hpre hack
  -- the match index is raised to the end of the snapshot, which the follower holds
  have hrec : Server.Safe { rf with
      matchIndex :=
        if rf.matchIndex p < args.lastIncludedIndex then
          Function.update rf.matchIndex p args.lastIncludedIndex
        else rf.matchIndex
      nextIndex :=
        if rf.nextIndex p < args.lastIncludedIndex + 1 then
          Function.update rf.nextIndex p (args.lastIncludedIndex + 1)
        else rf.nextIndex } h s := by
    by_cases hlt : rf.matchIndex p < args.lastIncludedIndex
    · simp only [if_pos hlt]
      exact hs.update_matchIndex hpre.le hack _
    · simp only [if_neg hlt]
      exact ⟨hs.matched, hs.commit, hs.snapshot⟩
  have hcc := hrec.checkCommit hi (ha.congr rfl rfl fun hl => hl) hl hx
  have ha₁ : rf'.At h s := by
    rw [Server.checkCommit_eq hx]
    exact ha.congr rfl rfl fun hl => hl
  exact hcc.of_keeps hi hle ha₁ ha' (Server.Keeps.refl _)

/-- **Winning an election** keeps a server safe: a new leader takes nothing for
replicated but its own log. -/
theorem Server.Safe.becomeLeader {rf : Server n α β} (hi : h.Inv LogEntry.term)
    (hi' : h'.Inv LogEntry.term) (hle : Le LogEntry.term h h') (ha : rf.At h s)
    (ha' : rf.becomeLeader.At h' s) (hs : rf.Safe h s) : rf.becomeLeader.Safe h' s where
  matched := by
    intro hl i hlo
    have hel := ha'.leader hl
    rcases eq_or_ne i rf.me with rfl | hne
    · have hm : rf.becomeLeader.matchIndex rf.me = (h'.tlog (h'.term s)).length := by
        rw [← hi'.log_of_leader hel, ← ha'.log.getLastLogIndex_eq]
        simp [Server.becomeLeader, getLastLogIndex]
      refine ⟨hm.le, ?_⟩
      rw [hm, Int.toNat_natCast, ha.me]
      refine ⟨le_rfl, ?_⟩
      rw [List.take_length, hi'.leader_log _ _ hel]
    · have hm : rf.becomeLeader.matchIndex i = rf.becomeLeader.lastIncludedIndex := by
        simp [Server.becomeLeader, hne]
      exact absurd (hm ▸ hlo) (lt_irrefl _)
  commit := hs.commit.of_log hi hle
  snapshot := hs.snapshot.of_log hi hle

/-! ### Requests and calls of the service -/

/-- **`AppendEntries`** keeps a follower safe: it commits what the leader has
committed and the request has brought. -/
theorem Server.Safe.appendEntries {rf rf' : Server n α β} (hi : h.Inv LogEntry.term)
    (hle : Le LogEntry.term h h') (ha : rf.At h s) (ha' : rf'.At h' s) (hs : rf.Safe h s)
    {args : AppendingEntriesArgs n α} {reply : AppendingEntriesReply}
    (hT : (h.elected args.term).isSome) (hslice : args.SliceOf (h'.tlog args.term))
    (hcommit : Settled h args.term (h.tlog args.term) args.leaderCommit)
    (hack : reply.success = true → Acked h' s args.term args.lastNew)
    (hx : rf.appendEntries args = some (rf', reply)) : rf'.Safe h' s := by
  rcases Server.appendEntries_fields hx with hk | ⟨hsucc, hlii, hterm, hlc, hlast, hl⟩
  · exact hs.of_keeps hi hle ha ha' hk
  refine hs.of_le hi hle ha ha' hlii.ge hl (Or.inr ?_) (Or.inl hlii)
  obtain ⟨hTs, hpre⟩ := hack hsucc
  -- the follower is in the term of the request
  rw [← hterm, ha'.term] at hpre
  have hcommit' := (hcommit.of_tlog hi hle hT).mono hlc
  rw [← hterm, ha'.term] at hcommit'
  refine hcommit'.of_take_isPrefix le_rfl ?_ hpre
  have hprev := hslice.nonneg
  unfold AppendingEntriesArgs.lastNew
  omega

/-- A server that took the snapshot of a request has it in its log. -/
theorem Server.At.take_prefix_of_snapshot {rf : Server n α β} (hi : h.Inv LogEntry.term)
    (ha : rf.At h s) {args : InstallSnapshotArgs n β} (hpre : args.PrefixOf (h.tlog args.term))
    (hlii : rf.lastIncludedIndex = args.lastIncludedIndex)
    (hlit : rf.lastIncludedTerm = args.lastIncludedTerm) :
    (h.tlog args.term).take args.lastIncludedIndex.toNat <+: h.log s := by
  have hle := ha.log.le
  have hle' := hpre.le
  have hterm := ha.log.term
  rw [hlit, hlii, hpre.term] at hterm
  have hvalid : Valid LogEntry.term h (h.log s) := hi.valid_hlog s _
  rw [take_eq_of_logTerm_eq (hi.valid_tlog _) hvalid (by omega) (by omega) hterm]
  exact List.take_prefix _ _

/-- **`InstallSnapshot`** keeps a follower safe, and a follower that does not
answer with a later term holds what the snapshot stands for. -/
theorem Server.Safe.installSnapshot {rf rf' : Server n α β} (hi : h.Inv LogEntry.term)
    (hi' : h'.Inv LogEntry.term) (hle : Le LogEntry.term h h') (ha : rf.At h s) (ha' : rf'.At h' s)
    (hs : rf.Safe h s) {args : InstallSnapshotArgs n β} {reply : InstallSnapshotReply}
    (hT : (h.elected args.term).isSome) (hpre : args.PrefixOf (h'.tlog args.term))
    (hset : Settled h args.term (h.tlog args.term) args.lastIncludedIndex)
    (hx : rf.installSnapshot args = some (rf', reply)) :
    rf'.Safe h' s ∧
      (reply.term ≤ args.term → Acked h' s args.term args.lastIncludedIndex.toNat) := by
  obtain ⟨hl, hreply, hTs, hcase⟩ := Server.installSnapshot_fields hx
  rw [ha'.term] at hreply hTs
  have hset' := hset.of_tlog hi hle hT
  -- a follower that holds the prefix in the term of the request has acknowledged it
  have hack : (h'.tlog args.term).take args.lastIncludedIndex.toNat <+: h'.log s →
      reply.term ≤ args.term → Acked h' s args.term args.lastIncludedIndex.toNat := by
    intro hlog hle
    have heq : h'.term s = args.term := by omega
    exact ⟨hTs, heq ▸ hlog⟩
  -- the snapshot is not newer than the log of the server, or it is taken over
  rcases hcase with ⟨hlii, hcommit, hold⟩ | ⟨hlo, hlii, hlit, hcommit⟩
  · have hsafe := hs.of_keeps hi hle ha ha' ⟨hlii, hcommit, hl⟩
    refine ⟨hsafe, fun hr => hack ?_ hr⟩
    have hold' : args.lastIncludedIndex ≤ rf'.lastIncludedIndex := by omega
    rw [hset'.take_eq hi' (hsafe.snapshot.mono hold')]
    exact List.take_prefix _ _
  · have hlog := ha'.take_prefix_of_snapshot hi' hpre hlii hlit
    have hnn := hpre.nonneg
    have hnew := hset'.of_take_isPrefix hTs (by omega) hlog
    refine ⟨hs.of_le hi hle ha ha' (hlii ▸ hlo) hl ?_ (Or.inr (hlii ▸ hnew)), hack hlog⟩
    rcases hcommit with heq | heq
    · exact Or.inl heq
    · exact Or.inr (heq ▸ hnew)

/-- **`Snapshot`** of what has been delivered keeps a server safe. -/
theorem Server.Safe.takeSnapshot {rf rf' : Server n α β} (ha : rf.At h s) (ha' : rf'.At h s)
    (hi : h.Inv LogEntry.term) (hs : rf.Safe h s) {index : ℤ} {data : Option β}
    (hset : Settled h (h.term s) (h.log s) index) (hx : rf.takeSnapshot index data = some rf') :
    rf'.Safe h s := by
  by_cases hnew : rf.lastIncludedIndex < index
  · obtain ⟨rf₁, h1, -, h3⟩ := ha.log.takeSnapshot_eq hnew data
    rw [h1] at hx
    cases hx
    have hlii : rf₁.lastIncludedIndex = min index (h.log s).length := by rw [h3]
    refine hs.of_le hi (Le.refl _ _) ha ha' ?_ (fun hl => ⟨?_, ?_, ?_⟩) (Or.inl ?_) (Or.inr ?_)
    · change _ ≤ rf₁.lastIncludedIndex
      rw [hlii]
      exact le_min hnew.le ha.log.le
    · change rf₁.state = .leader at hl
      rwa [h3] at hl
    · change rf₁.currentTerm = _
      rw [h3]
    · change rf₁.matchIndex = _
      rw [h3]
    · change rf₁.commitIndex = _
      rw [h3]
    · -- what is thrown away ends where the service says, or with the log
      change Settled h _ _ rf₁.lastIncludedIndex
      exact hset.mono (hlii ▸ min_le_left _ _)
  · unfold Server.takeSnapshot at hx
    rw [if_pos (not_lt.mp hnew)] at hx
    cases hx
    exact hs

/-- **`Make`** takes nothing for committed but the snapshot. -/
theorem Server.Safe.make {rf : Server n α β} (hme : rf.me = s) (hsaved : rf.Saved)
    (hs : rf.Safe h s) : (Server.make s rf.persister).Safe h s := by
  subst hme
  obtain ⟨-, -, hst⟩ := Server.persister_make rf.me rf.persister
  have hlii := congrArg Persisted.lastIncludedIndex (Server.toPersisted_make hsaved)
  change (Server.make rf.me rf.persister).lastIncludedIndex = rf.lastIncludedIndex at hlii
  have hcommit : (Server.make rf.me rf.persister).commitIndex =
      (Server.make rf.me rf.persister).lastIncludedIndex ∨
      (Server.make rf.me rf.persister).commitIndex = 0 := by
    have hread : ((Server.initial rf.me rf.persister).readPersist).commitIndex = 0 := by
      unfold Server.readPersist
      split <;> rfl
    unfold Server.make
    dsimp only
    split
    · exact Or.inl rfl
    · exact Or.inr hread
  refine
    { matched := fun hl => absurd (hst ▸ hl) (by simp)
      commit := ?_
      snapshot := hlii ▸ hs.snapshot }
  rcases hcommit with heq | heq
  · rw [heq, hlii]
    exact hs.snapshot
  · rw [heq]
    exact settled_zero

/-! ### Delivery -/

/-- **The applier copies** only what is committed. -/
theorem Server.Safe.copyBatch {rf : Server n α β} (ha : rf.At h s) (hs : rf.Safe h s)
    {a : Applier α β} (hx : rf.copyBatch = some a) : a.Safe h s := by
  unfold Server.copyBatch at hx
  split at hx
  · cases hx
    exact ⟨rfl, hs.snapshot⟩
  next hbeyond =>
  obtain ⟨entries, hcopy, hx⟩ := Option.bind_eq_some_iff.mp hx
  cases hx
  rw [if_neg (by omega)] at hcopy ⊢
  have hnn := ha.log.nonneg
  obtain ⟨q, hq, hqs, hlen⟩ := hs.commit
  refine ⟨by omega, q, hq, hqs, ?_⟩
  unfold Server.copyEntries at hcopy
  dsimp only at hcopy
  split at hcopy
  · next hin =>
    obtain ⟨h1, h2, h3⟩ := hin
    rw [subslice_of_le (by omega) (by omega) h3, Option.some.injEq] at hcopy
    obtain ⟨d, hd, -⟩ := ha.log.log
    -- the batch begins `j` entries behind the snapshot
    obtain ⟨j, hj⟩ : ∃ j : ℕ, rf.lastApplied = rf.lastIncludedIndex + j :=
      ⟨(rf.lastApplied - rf.lastIncludedIndex).toNat, by omega⟩
    have hfirst : (rf.lastApplied + 1 - rf.lastIncludedIndex).toNat = j + 1 := by omega
    have hlast : (rf.commitIndex - rf.lastIncludedIndex + 1).toNat
        = (rf.commitIndex - rf.lastIncludedIndex).toNat + 1 := by omega
    have hcommit : rf.lastIncludedIndex.toNat + (rf.commitIndex - rf.lastIncludedIndex).toNat
        = rf.commitIndex.toNat := by omega
    have hstart : (rf.lastApplied + 1 - 1).toNat = rf.lastIncludedIndex.toNat + j := by omega
    rw [hfirst, hlast, hd, List.take_succ_cons, List.drop_succ_cons, List.take_drop, hcommit,
      take_eq_of_isPrefix hqs (by omega), List.drop_drop] at hcopy
    rw [← hcopy, hstart]
    exact (List.take_prefix _ _).drop _
  · cases hcopy
    exact List.nil_prefix

/-- **The applier delivers** an entry it has copied. -/
theorem Applier.Safe.deliver {index : ℤ} {entry : LogEntry α} {entries : List (LogEntry α)}
    {lastIndex : ℤ} (hs : (Applier.sendEntries index (entry :: entries) lastIndex
      : Applier α β).Safe h s) (epoch : ℕ) :
    (Applier.sendEntries (index + 1) entries lastIndex : Applier α β).Safe h s ∧
      Delivery.Safe h { server := s, epoch := epoch, msg := (
        { commandValid := true, command := entry.command, commandIndex := index }
          : ApplyMsg α β) } := by
  obtain ⟨h1, q, hq, hqs, x, hx⟩ := hs
  have hget : q[(index - 1).toNat]? = some entry := by
    have := congrArg (fun l => l[0]?) hx.symm
    simpa using this
  have hnext : (index + 1 - 1).toNat = (index - 1).toNat + 1 := by omega
  refine ⟨⟨by omega, q, hq, hqs, x, ?_⟩, q, hq, hqs, ?_, fun _ => ⟨h1, entry, hget, rfl⟩⟩
  · rw [hnext, ← List.drop_drop, ← hx]
    rfl
  · have := (List.getElem?_eq_some_iff.mp hget).1
    change index ≤ _
    omega

/-! ### Every event -/

/-- A node is put in the place of another and no call is made or answered. -/
theorem Safe.setNode (hr : Refines c h) (hs : Safe c h) {node : Node n α β}
    (hr' : Refines (c.setNode s node) h') (hle : Le LogEntry.term h h')
    (hserver : node.server.Safe h' s) (happ : node.applier.Safe h' s) :
    Safe (c.setNode s node) h' :=
  hs.of_actor hr hr' hle (fun r hrs => c.setNode_of_ne node hrs) (by simpa using hserver)
    (by simpa using happ) (fun _ _ hx => Or.inl hx) fun _ hd => Or.inl hd

/-- The callee of a call moves and answers it. -/
theorem Safe.answer (hr : Refines c h) (hs : Safe c h) {id epoch : ℕ} {caller callee : Fin n}
    {rf' : Server n α β} {rpc : Rpc n α β}
    (hr' : Refines ((c.setServer callee rf').setCall id (some ⟨caller, epoch, callee, rpc⟩)) h')
    (hle : Le LogEntry.term h h') (hrf' : rf'.Safe h' callee) (hrpc : rpc.Safe h' callee) :
    Safe ((c.setServer callee rf').setCall id (some ⟨caller, epoch, callee, rpc⟩)) h' := by
  refine hs.of_actor (s := callee) hr hr' hle (fun r hrs => c.setNode_of_ne _ hrs)
    (by simpa [Cluster.setServer] using hrf')
    (by simpa [Cluster.setServer] using (hs.applier callee).of_le hr.inv hle)
    (fun id' call' hx => ?_) fun _ hd => Or.inl hd
  rw [Cluster.setCall_calls] at hx
  split at hx
  · cases hx
    exact Or.inr hrpc
  · exact Or.inl hx

/-- The caller of a call moves and the call is over. -/
theorem Safe.finish (hr : Refines c h) (hs : Safe c h) {id : ℕ} {node : Node n α β}
    (hr' : Refines ((c.setNode s node).setCall id none) h') (hle : Le LogEntry.term h h')
    (happ : node.applier = (c.nodes s).applier)
    (hnode : node.server.At h' s → node.server.Safe h' s) :
    Safe ((c.setNode s node).setCall id none) h' := by
  have hat := hr'.server s
  simp only [Cluster.setCall_nodes, Cluster.setNode_self] at hat
  refine hs.of_actor (s := s) hr hr' hle (fun r hrs => c.setNode_of_ne _ hrs)
    (by simpa using hnode hat) (by simpa [happ] using (hs.applier s).of_le hr.inv hle)
    (fun id' call' hx => ?_) fun _ hd => Or.inl hd
  rw [Cluster.setCall_calls] at hx
  split at hx
  · cases hx
  · exact Or.inl hx

/-- The callee of a call handles its request. -/
theorem Safe.handle (hr : Refines c h) (hs : Safe c h) (hr' : Refines c' h')
    (hle : Le LogEntry.term h h') {id : ℕ} (hc' : c.step (.handle id) = some c') : Safe c' h' := by
  cases Cluster.stepped_of_step hc' with
  | requestVote _ caller epoch callee args hid =>
    have hat : ((c.nodes callee).server.requestVote args).1.At h' callee := by
      simpa [Cluster.setServer] using hr'.server callee
    exact hs.answer hr hr' hle ((hs.server callee).of_keeps hr.inv hle (hr.server callee) hat
      (Server.keeps_requestVote _ _)) trivial
  | appendEntries _ caller epoch callee args hid rf' r hx =>
    have hat : rf'.At h' callee := by simpa [Cluster.setServer] using hr'.server callee
    have hsafe := hs.call id _ hid
    have hT : (h.elected args.term).isSome := by simp [(hr.call id _ hid).1]
    obtain ⟨-, hslice, hack⟩ := hr'.call id ⟨caller, epoch, callee, .appendEntries args (some r)⟩
      (by rw [Cluster.setCall_calls, if_pos rfl])
    exact hs.answer hr hr' hle
      ((hs.server callee).appendEntries hr.inv hle (hr.server callee) hat hT
      hslice hsafe (hack r rfl) hx) (hsafe.of_tlog hr.inv hle hT)
  | installSnapshot _ caller epoch callee args hid rf' r hx =>
    have hat : rf'.At h' callee := by simpa [Cluster.setServer] using hr'.server callee
    have hsound := hr.call id _ hid
    have hsafe := hs.call id _ hid
    have hT : (h.elected args.term).isSome := by simp [hsound.1]
    obtain ⟨hrf', hack⟩ := (hs.server callee).installSnapshot hr.inv hr'.inv hle (hr.server callee)
      hat hT (hsound.2.of_isPrefix (hle.tlog _ hT)) hsafe.1 hx
    refine hs.answer hr hr' hle hrf' ⟨hsafe.1.of_tlog hr.inv hle hT, fun r' hr' hterm => ?_⟩
    cases hr'
    exact hack hterm

/-- The caller of a call receives its reply, and the reply is not stale. -/
theorem Safe.receive (hr : Refines c h) (hs : Safe c h) (hr' : Refines c' h')
    (hle : Le LogEntry.term h h') {id : ℕ} (hfresh : ¬ c.StaleReply (.receive id))
    (hc' : c.step (.receive id) = some c') : Safe c' h' := by
  cases Cluster.stepped_of_step hc' with
  | receiveVote _ caller callee args r hid =>
    refine hs.finish hr hr' hle rfl fun hat => ?_
    rcases Server.receiveVote_cases (c.nodes caller).server
      ((c.nodes caller).votesReceived args.term) args.term r with hk | heq
    · exact (hs.server caller).of_keeps hr.inv hle (hr.server caller) hat hk
    · rw [heq] at hat ⊢
      exact (hs.server caller).becomeLeader hr.inv hr'.inv hle (hr.server caller) hat
  | receiveAppendEntries _ caller callee args r hid rf' hx =>
    have hsound := hr.call id _ hid
    refine hs.finish hr hr' hle rfl fun hat => ?_
    refine (hs.server caller).receiveAppendEntries hr.inv hle (hr.server caller) hat hsound.2.1
      (hsound.2.2 r rfl) (fun hl hterm hsucc hmore => ?_) hx
    by_contra hne
    apply hfresh
    simp only [Cluster.StaleReply, hid]
    exact ⟨hl, hterm, hne, hsucc, hmore⟩
  | receiveInstallSnapshot _ caller callee args r hid rf' hx =>
    exact hs.finish hr hr' hle rfl fun hat => (hs.server caller).receiveInstallSnapshot hr.inv hle
      (hr.server caller) hat (hr.call id _ hid).2 ((hs.call id _ hid).2 r rfl) hx

/-- A call is made that says nothing wrong about commitment. -/
theorem Safe.addCall (hr : Refines c h) (hs : Safe c h) {i : Fin n} {rpc : Rpc n α β}
    (hr' : Refines (c.addCall s i rpc) h) (hrpc : rpc.Safe h i) : Safe (c.addCall s i rpc) h := by
  refine hs.of_actor (s := s) hr hr' (Le.refl _ _) (fun _ _ => rfl) (hs.server s) (hs.applier s)
    (fun id call hx => ?_) fun _ hd => Or.inl hd
  change (c.setCall c.nextCall _).calls id = some call at hx
  rw [Cluster.setCall_calls] at hx
  split at hx
  · cases hx
    exact Or.inr hrpc
  · exact Or.inl hx

/-- What has been delivered to a server is settled. -/
theorem Safe.settled_of_delivered (hs : Safe c h) {index : ℤ} (hd : c.Delivered s index) :
    Settled h (h.term s) (h.log s) index := by
  obtain ⟨d, hd, rfl, hle⟩ := hd
  obtain ⟨q, hq, hqs, hlen, -⟩ := hs.applied d hd
  exact ⟨q, hq, hqs, hle.trans hlen⟩

/-- A message that says nothing wrong is delivered. -/
theorem Safe.deliver (hr : Refines c h) (hs : Safe c h) (hle : Le LogEntry.term h h')
    {applier : Applier α β} {msg : ApplyMsg α β}
    (hr' : Refines ((c.setNode s { c.nodes s with applier := applier }).deliver s msg) h')
    (happ : applier.Safe h' s)
    (hmsg : ∀ epoch, Delivery.Safe h' { server := s, epoch := epoch, msg := msg }) :
    Safe ((c.setNode s { c.nodes s with applier := applier }).deliver s msg) h' := by
  have hnode : ((c.setNode s { c.nodes s with applier := applier }).deliver s msg).nodes s =
      { c.nodes s with applier := applier } := c.setNode_self s _
  have hat := hr'.server s
  rw [hnode] at hat
  refine hs.of_actor (s := s) hr hr' hle (fun r hrs => c.setNode_of_ne _ hrs) ?_ ?_
    (fun _ _ hx => Or.inl hx) fun d hd => ?_
  · rw [hnode]
    exact (hs.server s).of_keeps hr.inv hle (hr.server s) hat (Server.Keeps.refl _)
  · rw [hnode]
    exact happ
  · rcases List.mem_cons.mp hd with rfl | hd
    · exact Or.inr (hmsg _)
    · exact Or.inl hd

/-- A server that starts an election stays safe, for a vote request says nothing
about commitment. -/
theorem Safe.electionTimeout (hr : Refines c h) (hs : Safe c h) (hr' : Refines c' h')
    (hle : Le LogEntry.term h h') (hc' : c.step (.electionTimeout s) = some c') : Safe c' h' := by
  generalize hnode : { c.nodes s with
    server := (c.nodes s).server.startElection.1
    votesReceived := Function.update (c.nodes s).votesReceived
      (c.nodes s).server.startElection.1.currentTerm 1 } = node
  have heq : c' = (c.setNode s node).askVotes s (c.nodes s).server.startElection.2 := by
    cases Cluster.stepped_of_step hc'
    rw [hnode]
  obtain ⟨hnodes, happlied, -, hcalls, -⟩ := askVotes_foldl s _ (List.finRange n)
    (c.setNode s node) (List.nodup_finRange n) hr.fresh c' heq
  have hat := hr'.server s
  rw [hnodes, Cluster.setNode_self] at hat
  refine hs.of_actor (s := s) hr hr' hle (fun r hrs => ?_) ?_ ?_ (fun id call hx => ?_)
    fun d hd => Or.inl (happlied ▸ hd)
  · rw [hnodes]
    exact c.setNode_of_ne _ hrs
  · rw [hnodes, Cluster.setNode_self]
    refine (hs.server s).of_keeps hr.inv hle (hr.server s) hat ?_
    rw [← hnode]
    exact Server.keeps_startElection _
  · rw [hnodes, Cluster.setNode_self, ← hnode]
    exact (hs.applier s).of_le hr.inv hle
  · rcases hcalls id call hx with hx | ⟨-, -, -, -, hrpc⟩
    · exact Or.inl hx
    · exact Or.inr (by rw [hrpc]; trivial)

/-- A leader sends what it has committed. -/
theorem Safe.heartbeat (hr : Refines c h) (hs : Safe c h) {i : Fin n}
    (hc' : c.step (.heartbeat s i) = some c') : Safe c' h := by
  have hr' := hr.heartbeat hc'
  cases Cluster.stepped_of_step hc' with
  | nothing => exact hs
  | needsSnapshot => exact hs.setNode hr hr' (Le.refl _ _) (hs.server s) (hs.applier s)
  | callAppendEntries _ _ _ args hb =>
    obtain ⟨hst, hterm, hcommit, -⟩ := (hr.server s).log.of_buildAppendEntries hb
    have hel := (hr.server s).leader hst
    refine hs.addCall hr hr' ?_
    change Settled h args.term (h.tlog args.term) args.leaderCommit
    rw [hterm, hcommit, (hr.server s).term, ← hr.inv.log_of_leader hel]
    exact (hs.server s).commit

/-- A leader sends a snapshot of what is committed. -/
theorem Safe.sendInstallSnapshot (hr : Refines c h) (hs : Safe c h) {i : Fin n}
    (hc' : c.step (.sendInstallSnapshot s i) = some c') : Safe c' h := by
  have hr' := hr.sendInstallSnapshot hc'
  cases Cluster.stepped_of_step hc' with
  | noSnapshot => exact hs.setNode hr hr' (Le.refl _ _) (hs.server s) (hs.applier s)
  | callInstallSnapshot _ _ hpos args hb =>
    have hr₁ := hr.setInstalling (hr.ne_of_installing hpos) ((c.nodes s).installing i - 1)
    have hs₁ := hs.setNode hr hr₁ (Le.refl _ _) (hs.server s) (hs.applier s)
    unfold Server.buildInstallSnapshot at hb
    split at hb
    · cases hb
    · next hst =>
      cases hb
      have hel := (hr.server s).leader (not_not.mp hst)
      refine hs₁.addCall hr₁ hr' ⟨?_, fun r hx => by cases hx⟩
      change Settled h (c.nodes s).server.currentTerm (h.tlog (c.nodes s).server.currentTerm)
        (c.nodes s).server.lastIncludedIndex
      rw [(hr.server s).term, ← hr.inv.log_of_leader hel]
      exact (hs.server s).snapshot

/-- What is safe stays safe while others move on. -/
theorem Safe.of_le (hr : Refines c h) (hs : Safe c h) (hr' : Refines c h')
    (hle : Le LogEntry.term h h') : Safe c h' where
  server := fun s =>
    (hs.server s).of_keeps hr.inv hle (hr.server s) (hr'.server s) (Server.Keeps.refl _)
  call := fun id call hx => (hs.call id call hx).of_le hr.inv hle (hr.call id call hx)
  applier := fun s => (hs.applier s).of_le hr.inv hle
  applied := fun d hd => (hs.applied d hd).of_le hr.inv hle

/-- **The invariant is preserved** by every step that believes no stale reply. -/
theorem Safe.of_step (hr : Refines c h) (hs : Safe c h) (hr' : Refines c' h')
    (hle : Le LogEntry.term h h') {e : Event n α β} (hfresh : ¬ c.StaleReply e)
    (hc' : c.step e = some c') : Safe c' h' := by
  cases Cluster.stepped_of_step hc' with
  | electionTimeout => exact hs.electionTimeout hr hr' hle hc'
  | nothing | needsSnapshot | callAppendEntries =>
    exact (hs.heartbeat hr hc').of_le (hr.heartbeat hc') hr' hle
  | noSnapshot | callInstallSnapshot =>
    exact (hs.sendInstallSnapshot hr hc').of_le (hr.sendInstallSnapshot hc') hr' hle
  | requestVote | appendEntries | installSnapshot => exact hs.handle hr hr' hle hc'
  | receiveVote | receiveAppendEntries | receiveInstallSnapshot =>
    exact hs.receive hr hr' hle hfresh hc'
  | start s command =>
    have hat := hr'.server s
    rw [Cluster.setServer, Cluster.setNode_self] at hat
    exact hs.setNode hr hr' hle ((hs.server s).of_keeps hr.inv hle (hr.server s) hat
      (Server.keeps_start _ _)) ((hs.applier s).of_le hr.inv hle)
  | takeSnapshot s index data hd rf' hx =>
    obtain ⟨hat₁, -, -⟩ := (hr.server s).takeSnapshot (hr.saved s) hx
    have hsafe := (hs.server s).takeSnapshot (hr.server s) hat₁ hr.inv
      (hs.settled_of_delivered hd) hx
    have hat := hr'.server s
    rw [Cluster.setServer, Cluster.setNode_self] at hat
    exact hs.setNode hr hr' hle (hsafe.of_keeps hr.inv hle hat₁ hat (Server.Keeps.refl _))
      ((hs.applier s).of_le hr.inv hle)
  | applierCopy s _ applier hx =>
    have hat := hr'.server s
    rw [Cluster.setNode_self] at hat
    exact hs.setNode hr hr' hle
      ((hs.server s).of_keeps hr.inv hle (hr.server s) hat (Server.Keeps.refl _))
      (((hs.server s).copyBatch (hr.server s) hx).of_le hr.inv hle)
  | deliverSnapshot s msg newLastApplied heq =>
    have happ := hs.applier s
    rw [heq] at happ
    obtain ⟨hvalid, q, hq, hqs, hlen⟩ := happ.of_le hr.inv hle
    refine hs.deliver hr hle hr' trivial fun epoch => ⟨q, hq, hqs, ?_, fun hv => ?_⟩
    · simpa [ApplyMsg.index, hvalid] using hlen
    · exact absurd (hvalid.symm.trans hv) (by simp)
  | deliverEntry s index entry entries lastIndex heq =>
    have happ := hs.applier s
    rw [heq] at happ
    exact hs.deliver hr hle hr' ((happ.of_le hr.inv hle).deliver 0).1
      fun epoch => ((happ.of_le hr.inv hle).deliver epoch).2
  | recordApplied s newLastApplied =>
    have hat := hr'.server s
    rw [Cluster.setNode_self] at hat
    exact hs.setNode hr hr' hle ((hs.server s).of_keeps hr.inv hle (hr.server s) hat
      ⟨rfl, rfl, fun hl => ⟨hl, rfl, rfl⟩⟩) trivial
  -- the server starts again with what it has saved
  | restart s =>
    obtain ⟨hat₁, -⟩ := (hr.server s).make (hr.saved s)
    have hsafe := (hs.server s).make (hr.server s).me (hr.saved s)
    have hat := hr'.server s
    rw [Cluster.setNode_self] at hat
    exact hs.setNode hr hr' hle (hsafe.of_keeps hr.inv hle hat₁ hat (Server.Keeps.refl _)) trivial

theorem safe_init : Safe (Cluster.init : Cluster n α β) History.init where
  server := fun s =>
    { matched := fun hl => by cases hl
      commit := settled_zero
      snapshot := settled_zero }
  call := fun id call hx => by cases hx
  applier := fun s => trivial
  applied := fun d hd => by cases hd

/-- **Runs without stale replies are safe.** -/
theorem exists_safe (hrun : ReachWhile Cluster.step (fun c e => ¬ c.StaleReply e) Cluster.init c) :
    ∃ h, Refines c h ∧ Safe c h := by
  refine hrun.invariant (P := fun c => ∃ h, Refines c h ∧ Safe c h)
    ⟨History.init, refines_init, safe_init⟩ ?_
  rintro d e d' ⟨h, hr, hs⟩ hfresh hstep
  obtain ⟨s, h', hst, hr'⟩ := hr.of_step hstep
  exact ⟨h', hr', hs.of_step hr hr' (hr.inv.of_steps hst).2 hfresh hstep⟩

end ExchangeLabs.Raft
