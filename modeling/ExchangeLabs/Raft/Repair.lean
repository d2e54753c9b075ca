import ExchangeLabs.Raft.InRange
import ExchangeLabs.Raft.Redelivery

/-!
# Log repair

A leader that does not know where the log of a follower leaves its own sends from
`nextIndex` on, and a rejection tells it where to go on: to the follower's snapshot or the
end of its log, or, where the terms differ, to its own last entry of the follower's term,
and if it has none, to the start of that term at the follower.  Left alone, the two come
to an end: the terms that the rejections name go down.

## Main definitions

* `Comparable FL FF` — two histories of one cluster: terms go up, the same index and term
  mean the same prefix, and a term starts at the same index in both.
* `round`, `repair` — one request with its reply, and rounds up to the first that is accepted
  or would need a snapshot.
* `Diverged` — a leader in front of a follower, with their histories.
* `Repaired` — what comes out of the rounds.

## Main results

* `Comparable.lt_of_term_eq` — the leader's last entry of a conflicting term is below the
  conflict, and the follower has that term there too.
* `Diverged.repaired_inside` — every conflict moves the request down.
* `log_repair` — **the rounds end**, after at most two more rejections than there are
  terms in the follower's log.
-/

namespace ExchangeLabs.Raft

variable {n : ℕ} {α β : Type}

/-! ### Two histories -/

/-- The history `F` has the term `t` from the index `s` on. -/
def StartsAt (F : List (LogEntry α)) (t : ℤ) (s : ℕ) : Prop :=
  s ≤ F.length ∧ logTerm (F.take s) = t ∧ ∀ j < s, logTerm (F.take j) ≠ t

/-- Histories of a leader and of a follower. -/
structure Comparable (FL FF : List (LogEntry α)) : Prop where
  leader : ∀ i j, i ≤ j → j ≤ FL.length → logTerm (FL.take i) ≤ logTerm (FL.take j)
  follower : ∀ i j, i ≤ j → j ≤ FF.length → logTerm (FF.take i) ≤ logTerm (FF.take j)
  matching : ∀ k ≤ FL.length, k ≤ FF.length → logTerm (FF.take k) = logTerm (FL.take k) →
    FF.take k = FL.take k
  start : ∀ t s s', StartsAt FL t s → StartsAt FF t s' → s = s'

variable {FL FF F : List (LogEntry α)}

theorem exists_startsAt {i : ℕ} (hi : i ≤ F.length) :
    ∃ s ≤ i, StartsAt F (logTerm (F.take i)) s := by
  classical
  have hex : ∃ s, logTerm (F.take s) = logTerm (F.take i) := ⟨i, rfl⟩
  have hle := Nat.find_min' hex rfl
  exact ⟨Nat.find hex, hle, hle.trans hi, Nat.find_spec hex, fun j hj => Nat.find_min hex hj⟩

/-- A term that both have starts below where either has it. -/
theorem Comparable.exists_start (hc : Comparable FL FF) {p q : ℕ} (hp : p ≤ FF.length)
    (hq : q ≤ FL.length) (heq : logTerm (FL.take q) = logTerm (FF.take p)) :
    ∃ s ≤ p, s ≤ q ∧ logTerm (FL.take s) = logTerm (FF.take p) ∧
      logTerm (FF.take s) = logTerm (FF.take p) := by
  obtain ⟨s, hsq, hs⟩ := exists_startsAt hq
  obtain ⟨s', hsp, hs'⟩ := exists_startsAt hp
  rw [heq] at hs
  obtain rfl := hc.start _ s s' hs hs'
  exact ⟨s, hsp, hsq, hs.2.1, hs'.2.1⟩

/-- **Where the leader has the term of a conflict**: below it, and the follower has the term
there too. -/
theorem Comparable.lt_of_term_eq (hc : Comparable FL FF) {p q : ℕ} (hp : p ≤ FF.length)
    (hq : q ≤ FL.length) (heq : logTerm (FL.take q) = logTerm (FF.take p))
    (hne : logTerm (FF.take p) ≠ logTerm (FL.take p)) :
    q < p ∧ logTerm (FF.take q) = logTerm (FL.take q) := by
  obtain ⟨s, hsp, hsq, hsL, hsF⟩ := hc.exists_start hp hq heq
  have hlt : q < p := by
    by_contra hle
    refine hne (le_antisymm ?_ ?_)
    · rw [← hsL]
      exact hc.leader s p hsp (by omega)
    · rw [← heq]
      exact hc.leader p q (by omega) hq
  refine ⟨hlt, le_antisymm ?_ ?_⟩
  · rw [heq]
    exact hc.follower q p hlt.le hp
  · rw [heq, ← hsF]
    exact hc.follower s q hsq (by omega)

/-- The terms of a history are not negative. -/
theorem Comparable.zero_le_term (hc : Comparable FL FF) {p : ℕ} (hp : p ≤ FF.length) :
    0 ≤ logTerm (FF.take p) := hc.follower 0 p (Nat.zero_le p) hp

/-- A follower's log matches the history of the leader. -/
theorem Comparable.matches (hc : Comparable FL FF) {f : Server n α β} (hF : f.Holds FF) :
    f.Matches FL := by
  intro i x y hpos hx hy hterm j hjpos hj hji
  have hlt := hj.trans_le hji
  rw [hF.entryAt_eq hlt] at hx
  have hi : i.toNat = (i - 1).toNat + 1 := by omega
  have htake : FF.take i.toNat = FL.take i.toNat := by
    refine hc.matching _ ?_ ?_ ?_
    · rw [hi]
      exact (List.getElem?_eq_some_iff.mp hy).1
    · rw [hi]
      exact (List.getElem?_eq_some_iff.mp hx).1
    · rw [hi, logTerm_take_succ hx, logTerm_take_succ hy, hterm]
  have hjlt : (j - 1).toNat < i.toNat := by omega
  rw [hF.entryAt_eq hj, ← List.getElem?_take_of_lt hjlt, htake, List.getElem?_take_of_lt hjlt]

/-! ### Rounds -/

/-- What a round comes to. -/
inductive Round (n : ℕ) (α β : Type)
  /-- The leader has discarded what the follower needs, and sends its snapshot instead. -/
  | installs
  | replied (leader follower : Server n α β) (reply : AppendingEntriesReply)

/-- A request from the leader `rf` to the follower `f`, which is `server`, and its reply. -/
def round (server : Fin n) (rf f : Server n α β) : Option (Round n α β) := do
  match ← rf.buildAppendEntries server with
  | .nothing => none
  | .snapshot => some .installs
  | .append args =>
    let (f', reply) ← f.appendEntries args
    let rf' ← rf.receiveAppendEntries server args reply
    some (.replied rf' f' reply)

/-- The rejections of the rounds in their order, and what comes after the last. -/
structure Repair (n : ℕ) (α β : Type) where
  rejections : List AppendingEntriesReply
  leader : Server n α β
  follower : Server n α β
  installs : Bool

/-- Rounds until one is accepted or the leader switches to its snapshot; `none` if that takes more
than `fuel` rounds. -/
def repair (server : Fin n) : ℕ → Server n α β → Server n α β → Option (Repair n α β)
  | 0, _, _ => none
  | fuel + 1, rf, f => do
    match ← round server rf f with
    | .installs => some { rejections := [], leader := rf, follower := f, installs := true }
    | .replied rf' f' reply =>
      if reply.success then
        some { rejections := [], leader := rf', follower := f', installs := false }
      else do
        let r ← repair server fuel rf' f'
        some { r with rejections := reply :: r.rejections }

/-- The terms that the rejections for a term mismatch name. -/
def Repair.conflictTerms (r : Repair n α β) : List ℤ :=
  (r.rejections.map AppendingEntriesReply.conflictTerm).filter (· ≠ -1)

/-- The logs agree where both servers still have them, up to the leader's last entry. -/
def Server.AgreesWith (f rf : Server n α β) : Prop :=
  ∀ i, f.lastIncludedIndex < i → rf.lastIncludedIndex < i → i ≤ rf.getLastLogIndex →
    ∃ e, f.entryAt i = some e ∧ rf.entryAt i = some e

/-- A leader in its term in front of the follower `server`, with the histories of both. -/
structure Diverged (server : Fin n) (rf f : Server n α β) (FL FF : List (LogEntry α)) : Prop where
  leader : rf.state = .leader
  term : f.currentTerm ≤ rf.currentTerm
  log : rf.Holds FL
  follower : f.Holds FF
  snapshot_le : f.lastIncludedIndex ≤ FL.length
  snapshot : logTerm (FL.take f.lastIncludedIndex.toNat) = f.lastIncludedTerm
  one_le : 1 ≤ rf.nextIndex server
  next_le : rf.nextIndex server ≤ FL.length + 1

namespace Server

variable {rf f : Server n α β} {args : AppendingEntriesArgs n α} {server : Fin n}

/-! ### The two sides of a rejection -/

theorem appendEntries_of_current (hterm : f.currentTerm ≤ args.term) :
    f.appendEntries args = ((f.acceptTerm args.term).appendEntriesLog args).bind
      fun x => some (x.1.persist, x.2) := by
  unfold appendEntries
  rw [if_neg (not_lt.mpr hterm)]
  rfl

/-- A rejection moves the next index of the follower, and nothing else. -/
theorem receiveAppendEntries_of_rejected (hl : rf.state = .leader)
    {reply : AppendingEntriesReply} (hterm : reply.term ≤ rf.currentTerm)
    (hfail : reply.success = false) :
    rf.receiveAppendEntries server args reply =
      some
        { rf with nextIndex := Function.update rf.nextIndex server (rf.conflictNext reply) } := by
  unfold receiveAppendEntries
  rw [if_neg (not_lt.mpr hterm), if_neg (not_not.mpr hl), hfail]
  rfl

/-- The reply to a success leaves the leader's log as it is. -/
theorem exists_receiveAppendEntries (hF : rf.Holds F) (server : Fin n)
    (args : AppendingEntriesArgs n α)
    {reply : AppendingEntriesReply} (hterm : reply.term ≤ rf.currentTerm) :
    ∃ rf', rf.receiveAppendEntries server args reply = some rf' ∧ rf'.log = rf.log ∧
      rf'.lastIncludedIndex = rf.lastIncludedIndex := by
  obtain ⟨rf', hx⟩ := Option.isSome_iff_exists.mp
    (hF.isSome_receiveAppendEntries server args reply)
  refine ⟨rf', hx, ?_⟩
  unfold receiveAppendEntries at hx
  rw [if_neg (not_lt.mpr hterm)] at hx
  dsimp only at hx
  split_ifs at hx
  · cases hx
    exact ⟨rfl, rfl⟩
  · rcases checkCommit_cases hx with rfl | ⟨N, rfl, -⟩ <;> exact ⟨rfl, rfl⟩
  · cases hx
    exact ⟨rfl, rfl⟩
  · cases hx
    exact ⟨rfl, rfl⟩

/-- Where a hint without a term leads. -/
theorem conflictNext_of_index {reply : AppendingEntriesReply} (hnone : reply.conflictTerm = -1) :
    rf.conflictNext reply = reply.conflictIndex := by
  unfold conflictNext
  rw [if_pos hnone]

/-- **Where a hint with a term leads**: behind an entry of the leader of that term, or to the
index of the hint. -/
theorem Holds.conflictNext_cases (hF : rf.Holds F) (reply : AppendingEntriesReply)
    (hterm : reply.conflictTerm ≠ -1) :
    (∃ q : ℕ, rf.conflictNext reply = q + 1 ∧ q ≤ F.length ∧
        logTerm (F.take q) = reply.conflictTerm) ∨
      rf.conflictNext reply = reply.conflictIndex := by
  unfold conflictNext
  rw [if_neg hterm]
  dsimp only
  have hlen := hF.length
  have h0 := hF.nonneg
  rcases lastIndexOfTerm_spec rf.log reply.conflictTerm rf.log.length with
    ⟨heq, -⟩ | ⟨k, hk, heq, hk', -⟩
  · rw [heq, if_neg (by simp)]
    exact Or.inr rfl
  · rw [heq, if_pos (by omega)]
    refine Or.inl ⟨k + rf.lastIncludedIndex.toNat, by push_cast; omega, by omega, ?_⟩
    obtain ⟨d, hd, hdt⟩ := hF.log
    rw [hd] at hk'
    -- the entry that was found may be the dummy, which stands for the snapshot
    cases k with
    | zero =>
      rw [Nat.zero_add, ← hF.term, ← hdt]
      exact Option.some.inj hk'
    | succ k =>
      rw [List.getElem?_cons_succ, List.getElem?_drop, Option.map_eq_some_iff] at hk'
      obtain ⟨e, he, het⟩ := hk'
      rw [show k + 1 + rf.lastIncludedIndex.toNat = rf.lastIncludedIndex.toNat + k + 1 by omega,
        logTerm_take_succ he, het]

end Server

/-! ### One round -/

section Round

variable {server : Fin n} {rf f rf' f' : Server n α β} {p q : ℕ} {reply : AppendingEntriesReply}

/-- The request of a leader with the history `FL` from the index `p` on. -/
def Server.requestFrom (rf : Server n α β) (FL : List (LogEntry α)) (p : ℕ) :
    AppendingEntriesArgs n α where
  term := rf.currentTerm
  leaderId := rf.me
  prevLogIndex := p
  prevLogTerm := logTerm (FL.take p)
  entries := FL.drop p
  leaderCommit := rf.commitIndex

theorem Diverged.le_length (h : Diverged server rf f FL FF) (hp : rf.nextIndex server = p + 1) :
    p ≤ FL.length := by
  have := h.next_le
  omega

theorem Diverged.build_eq (h : Diverged server rf f FL FF) (hp : rf.nextIndex server = p + 1)
    (hlo : rf.lastIncludedIndex ≤ p) :
    rf.buildAppendEntries server = some (.append (rf.requestFrom FL p)) := by
  have hprev : rf.nextIndex server - 1 = p := by omega
  have hle := h.le_length hp
  rw [h.log.buildAppendEntries_eq h.leader (by omega) (by omega)]
  unfold Server.requestFrom
  rw [hprev, Int.toNat_natCast]

theorem Diverged.round_installs (h : Diverged server rf f FL FF)
    (hp : rf.nextIndex server = p + 1) (hlt : p < rf.lastIncludedIndex) :
    round server rf f = some .installs := by
  have hbuild : rf.buildAppendEntries server = some .snapshot := by
    unfold Server.buildAppendEntries
    rw [if_neg (not_not.mpr h.leader), if_pos (by omega)]
  unfold round
  rw [hbuild]
  rfl

theorem Diverged.round_replied (h : Diverged server rf f FL FF)
    (hp : rf.nextIndex server = p + 1) (hlo : rf.lastIncludedIndex ≤ p)
    (hx : f.appendEntries (rf.requestFrom FL p) = some (f', reply))
    (hr : rf.receiveAppendEntries server (rf.requestFrom FL p) reply = some rf') :
    round server rf f = some (.replied rf' f' reply) := by
  unfold round
  rw [h.build_eq hp hlo]
  simp only [Option.bind_eq_bind, Option.bind_some]
  rw [hx, Option.bind_some, hr]
  rfl

/-- The term at the follower's snapshot is the leader's. -/
theorem Diverged.snapshot_term (h : Diverged server rf f FL FF) :
    logTerm (FF.take f.lastIncludedIndex.toNat) = logTerm (FL.take f.lastIncludedIndex.toNat) :=
  h.follower.term.symm.trans h.snapshot.symm

/-- **A round that is accepted**, where the terms are the same: the logs agree. -/
theorem Diverged.round_accepted (h : Diverged server rf f FL FF) (hc : Comparable FL FF)
    (hp : rf.nextIndex server = p + 1) (hlo : rf.lastIncludedIndex ≤ p)
    (hsnap : f.lastIncludedIndex ≤ p) (hlast : p ≤ FF.length)
    (hterm : logTerm (FF.take p) = logTerm (FL.take p)) :
    ∃ rf' f' reply, round server rf f = some (.replied rf' f' reply) ∧ reply.success = true ∧
      f'.AgreesWith rf' := by
  have hle := h.le_length hp
  have hslice : (rf.requestFrom FL p).SliceOf FL :=
    ⟨Int.natCast_nonneg p, Int.ofNat_le.mpr hle, rfl, List.prefix_rfl⟩
  obtain ⟨f', reply, hx, hd⟩ := Server.exists_delivered (hc.matches h.follower) hslice
  -- the terms are the same at `p`, so none of the rejections applies
  have hreply : reply.success = true ∧ reply.term = rf.currentTerm := by
    have hx' := hx
    rw [Server.appendEntries_of_current h.term] at hx'
    have hF₁ := h.follower.acceptTerm rf.currentTerm
    have hterm₁ := Server.acceptTerm_currentTerm h.term
    obtain ⟨-, hindex₁, -⟩ := Server.acceptTerm_fields f rf.currentTerm
    obtain ⟨⟨f₂, reply₂⟩, hlog, hx'⟩ := Option.bind_eq_some_iff.mp hx'
    cases hx'
    change (f.acceptTerm rf.currentTerm).appendEntriesLog _ = _ at hlog
    generalize f.acceptTerm rf.currentTerm = f₁ at hF₁ hterm₁ hindex₁ hlog
    unfold Server.appendEntriesLog at hlog
    have hprev : (rf.requestFrom FL p).prevLogIndex = p := rfl
    rw [hprev, if_neg (by omega), hF₁.getLastLogIndex_eq, if_neg (by omega),
      hF₁.getLogTerm_eq (by omega) (by omega)] at hlog
    simp only [Option.bind_eq_bind, Option.bind_some, Int.toNat_natCast] at hlog
    have hprevTerm : (rf.requestFrom FL p).prevLogTerm = logTerm (FL.take p) := rfl
    rw [hprevTerm, if_neg (not_not.mpr hterm)] at hlog
    obtain ⟨f₃, -, hlog⟩ := Option.bind_eq_some_iff.mp hlog
    cases hlog
    exact ⟨rfl, hterm₁⟩
  obtain ⟨rf', hr, hlog', hindex'⟩ :=
    Server.exists_receiveAppendEntries h.log server (rf.requestFrom FL p) hreply.2.le
  refine ⟨rf', f', reply, h.round_replied hp hlo hx hr, hreply.1, ?_⟩
  -- the request goes up to the end of the leader's history
  have hend : (rf.requestFrom FL p).prevLogIndex + (rf.requestFrom FL p).entries.length =
      FL.length := by
    show (p : ℤ) + (FL.drop p).length = FL.length
    rw [List.length_drop]
    omega
  have hagree := hd.accepted hreply.1
  rw [hend] at hagree
  intro i hfi hri hi
  have h0 := h.log.nonneg
  have hlast' : rf'.getLastLogIndex = FL.length := by
    unfold Server.getLastLogIndex
    rw [hlog', hindex']
    exact h.log.getLastLogIndex_eq
  rw [hlast'] at hi
  rw [hindex'] at hri
  obtain ⟨e, he⟩ : ∃ e, FL[(i - 1).toNat]? = some e := ⟨_, List.getElem?_eq_getElem (by omega)⟩
  refine ⟨e, ?_, ?_⟩
  · rw [hagree i (by omega) hfi hi, he]
  · rw [Server.entryAt_congr hlog' hindex', h.log.entryAt_eq hri, he]

/-- **A round that is rejected** leaves both logs alone and moves the next index to the hint. -/
theorem Diverged.round_rejected (h : Diverged server rf f FL FF)
    (hp : rf.nextIndex server = p + 1) (hlo : rf.lastIncludedIndex ≤ p)
    (hlog : (f.acceptTerm rf.currentTerm).appendEntriesLog (rf.requestFrom FL p) =
      some (f.acceptTerm rf.currentTerm, reply))
    (hfail : reply.success = false) (hterm : reply.term = rf.currentTerm)
    (hq : rf.conflictNext reply = q + 1) (hqle : q ≤ FL.length) :
    ∃ rf' f', round server rf f = some (.replied rf' f' reply) ∧ Diverged server rf' f' FL FF ∧
      rf'.nextIndex server = q + 1 ∧ f'.log = f.log ∧
      f'.lastIncludedIndex = f.lastIncludedIndex := by
  obtain ⟨hflog, hfindex, -⟩ := Server.acceptTerm_fields f rf.currentTerm
  have hx : f.appendEntries (rf.requestFrom FL p) =
      some ((f.acceptTerm rf.currentTerm).persist, reply) := by
    rw [Server.appendEntries_of_current h.term]
    show ((f.acceptTerm rf.currentTerm).appendEntriesLog _).bind _ = _
    rw [hlog]
    rfl
  have hF₁ := h.follower.acceptTerm rf.currentTerm
  have hterm₁ := Server.acceptTerm_currentTerm h.term
  have hnext : Function.update rf.nextIndex server (rf.conflictNext reply) server = q + 1 := by
    rw [Function.update_self, hq]
  refine ⟨_, _, h.round_replied hp hlo hx
    (Server.receiveAppendEntries_of_rejected h.leader hterm.le hfail), ?_, ?_, hflog, hfindex⟩
  · refine ⟨h.leader, hterm₁.le, h.log.congr rfl rfl rfl, hF₁.congr rfl rfl rfl, ?_, ?_, ?_, ?_⟩
    · show (f.acceptTerm rf.currentTerm).lastIncludedIndex ≤ _
      rw [hfindex]
      exact h.snapshot_le
    · show logTerm (FL.take (f.acceptTerm rf.currentTerm).lastIncludedIndex.toNat) =
        (f.acceptTerm rf.currentTerm).lastIncludedTerm
      rw [hF₁.term, hfindex]
      exact h.snapshot_term.symm
    · have hpos : (1 : ℤ) ≤ q + 1 := by omega
      exact hpos.trans_eq hnext.symm
    · exact hnext.trans_le (by omega)
  · exact hnext

/-- A request behind the follower's snapshot: the next one starts at the snapshot. -/
theorem Diverged.round_behind (h : Diverged server rf f FL FF)
    (hp : rf.nextIndex server = p + 1) (hlo : rf.lastIncludedIndex ≤ p)
    (hsnap : p < f.lastIncludedIndex) :
    ∃ rf' f' reply, round server rf f = some (.replied rf' f' reply) ∧ reply.success = false ∧
      reply.conflictTerm = -1 ∧ Diverged server rf' f' FL FF ∧
      rf'.nextIndex server = f.lastIncludedIndex.toNat + 1 ∧ f'.log = f.log ∧
      f'.lastIncludedIndex = f.lastIncludedIndex := by
  obtain ⟨-, hindex₁, -⟩ := Server.acceptTerm_fields f rf.currentTerm
  have hterm₁ := Server.acceptTerm_currentTerm h.term
  have h0 := h.follower.nonneg
  have hle := h.snapshot_le
  have hlog : (f.acceptTerm rf.currentTerm).appendEntriesLog (rf.requestFrom FL p) =
      some (f.acceptTerm rf.currentTerm,
        { term := rf.currentTerm, success := false, conflictTerm := -1,
          conflictIndex := f.lastIncludedIndex + 1 }) := by
    unfold Server.appendEntriesLog
    rw [hindex₁, hterm₁, if_pos (show (rf.requestFrom FL p).prevLogIndex < _ from hsnap)]
  have hq : rf.conflictNext
      { term := rf.currentTerm, success := false, conflictTerm := -1,
        conflictIndex := f.lastIncludedIndex + 1 } = (f.lastIncludedIndex.toNat : ℤ) + 1 := by
    rw [Server.conflictNext_of_index rfl]
    show f.lastIncludedIndex + 1 = _
    omega
  obtain ⟨rf', f', hround, hd, hnext, hflog, hfindex⟩ :=
    h.round_rejected hp hlo hlog rfl rfl hq (by omega)
  exact ⟨rf', f', _, hround, rfl, rfl, hd, hnext, hflog, hfindex⟩

/-- A request beyond the follower's log: the next one starts at its end. -/
theorem Diverged.round_beyond (h : Diverged server rf f FL FF)
    (hp : rf.nextIndex server = p + 1) (hlo : rf.lastIncludedIndex ≤ p) (hlast : FF.length < p) :
    ∃ rf' f' reply, round server rf f = some (.replied rf' f' reply) ∧ reply.success = false ∧
      reply.conflictTerm = -1 ∧ Diverged server rf' f' FL FF ∧
      rf'.nextIndex server = FF.length + 1 ∧ f'.log = f.log ∧
      f'.lastIncludedIndex = f.lastIncludedIndex := by
  obtain ⟨-, hindex₁, -⟩ := Server.acceptTerm_fields f rf.currentTerm
  have hF₁ := h.follower.acceptTerm rf.currentTerm
  have hterm₁ := Server.acceptTerm_currentTerm h.term
  have hfle := h.follower.le
  have hlog : (f.acceptTerm rf.currentTerm).appendEntriesLog (rf.requestFrom FL p) =
      some (f.acceptTerm rf.currentTerm,
        { term := rf.currentTerm, success := false, conflictTerm := -1,
          conflictIndex := FF.length + 1 }) := by
    have hprev : (rf.requestFrom FL p).prevLogIndex = p := rfl
    unfold Server.appendEntriesLog
    rw [hprev, hindex₁, hterm₁, hF₁.getLastLogIndex_eq, if_neg (by omega), if_pos (by omega)]
  have hle := h.le_length hp
  obtain ⟨rf', f', hround, hd, hnext, hflog, hfindex⟩ :=
    h.round_rejected hp hlo hlog rfl rfl (Server.conflictNext_of_index rfl) (by omega)
  exact ⟨rf', f', _, hround, rfl, rfl, hd, hnext, hflog, hfindex⟩

/-- **A term mismatch**: the next request starts below, where the terms are the same or the
follower's is lower, or behind its snapshot. -/
theorem Diverged.round_conflict (h : Diverged server rf f FL FF) (hc : Comparable FL FF)
    (hp : rf.nextIndex server = p + 1) (hlo : rf.lastIncludedIndex ≤ p)
    (hsnap : f.lastIncludedIndex ≤ p) (hlast : p ≤ FF.length)
    (hne : logTerm (FF.take p) ≠ logTerm (FL.take p)) :
    ∃ rf' f' reply, ∃ q < p, round server rf f = some (.replied rf' f' reply) ∧
      reply.success = false ∧ reply.conflictTerm = logTerm (FF.take p) ∧
      Diverged server rf' f' FL FF ∧ rf'.nextIndex server = q + 1 ∧ f'.log = f.log ∧
      f'.lastIncludedIndex = f.lastIncludedIndex ∧
      (logTerm (FF.take q) = logTerm (FL.take q) ∨
        f.lastIncludedIndex ≤ q ∧ logTerm (FF.take q) < logTerm (FF.take p)) := by
  obtain ⟨-, hindex₁, -⟩ := Server.acceptTerm_fields f rf.currentTerm
  have hF₁ := h.follower.acceptTerm rf.currentTerm
  have hterm₁ := Server.acceptTerm_currentTerm h.term
  have h0 := h.follower.nonneg
  have hle := h.le_length hp
  have hnonneg := hc.zero_le_term hlast
  -- the two know the same about the snapshot, so the mismatch is above it
  have habove : f.lastIncludedIndex < p := by
    refine lt_of_le_of_ne hsnap fun heq => hne ?_
    have := h.snapshot_term
    rwa [heq, Int.toNat_natCast] at this
  obtain ⟨i, hscan, hi, hip, hstop⟩ := hF₁.scanConflict_eq (logTerm (FF.take p))
    ((p : ℤ) - f.lastIncludedIndex).toNat (by rw [hindex₁]; omega)
  rw [hindex₁] at hi hip hstop
  have hlog : (f.acceptTerm rf.currentTerm).appendEntriesLog (rf.requestFrom FL p) =
      some (f.acceptTerm rf.currentTerm,
        { term := rf.currentTerm, success := false, conflictTerm := logTerm (FF.take p),
          conflictIndex := i + 1 }) := by
    have hprev : (rf.requestFrom FL p).prevLogIndex = p := rfl
    have hprevTerm : (rf.requestFrom FL p).prevLogTerm = logTerm (FL.take p) := rfl
    unfold Server.appendEntriesLog
    rw [hprev, hprevTerm, hF₁.getLastLogIndex_eq, hF₁.getLogTerm_eq (by omega) (by omega), hindex₁,
      hterm₁, if_neg (by omega), if_neg (by omega)]
    simp only [Option.bind_eq_bind, Option.bind_some, Int.toNat_natCast]
    rw [if_pos hne, hscan]
    rfl
  have hsome : logTerm (FF.take p) ≠ -1 := by omega
  rcases h.log.conflictNext_cases ⟨rf.currentTerm, logTerm (FF.take p), i + 1, false⟩ hsome with
    ⟨q, hq, hqle, hqt⟩ | hq
  · -- the leader has the term, below
    obtain ⟨hlt, heq⟩ := hc.lt_of_term_eq hlast hqle hqt hne
    obtain ⟨rf', f', hround, hd, hnext, hflog, hfindex⟩ :=
      h.round_rejected hp hlo hlog rfl rfl hq hqle
    exact ⟨rf', f', _, q, hlt, hround, rfl, rfl, hd, hnext, hflog, hfindex, Or.inl heq⟩
  · -- it has not, and goes to where the term starts at the follower
    have hi' : (i.toNat : ℤ) = i := Int.toNat_of_nonneg (by omega)
    have hq' := hq.trans (congrArg (· + 1) hi'.symm)
    have hlt : i.toNat < p := by
      have hle' : i.toNat ≤ p := by omega
      refine lt_of_le_of_ne hle' fun heq => ?_
      rcases hstop with hstop | hstop
      · omega
      · exact hstop (by rw [heq])
    obtain ⟨rf', f', hround, hd, hnext, hflog, hfindex⟩ :=
      h.round_rejected hp hlo hlog rfl rfl hq' (by omega)
    refine ⟨rf', f', _, i.toNat, hlt, hround, rfl, rfl, hd, hnext, hflog, hfindex, ?_⟩
    rcases hstop with rfl | hstop
    · exact Or.inl h.snapshot_term
    · refine Or.inr ⟨by omega, lt_of_le_of_ne ?_ hstop⟩
      exact hc.follower i.toNat p hlt.le hlast

/-! ### All rounds -/

/-- What the rounds come to: the terms that the rejections name go down from `t` on and are terms
of the follower's log, all other rejections are at most `hints`, and if it ends in a success, the
logs agree. -/
structure Repaired (server : Fin n) (rf f : Server n α β) (t : ℤ) (hints : ℕ)
    (r : Repair n α β) : Prop where
  run : repair server (r.rejections.length + 1) rf f = some r
  decreasing : r.conflictTerms.Pairwise (· > ·)
  le : ∀ u ∈ r.conflictTerms, u ≤ t
  mem : ∀ u ∈ r.conflictTerms, u ∈ f.log.tail.map LogEntry.term
  length : r.rejections.length ≤ r.conflictTerms.length + hints
  agree : r.installs = false → r.follower.AgreesWith r.leader

theorem Repaired.mono {t t' : ℤ} {a a' : ℕ} {r : Repair n α β} (h : Repaired server rf f t a r)
    (ht : t ≤ t') (ha : a ≤ a') : Repaired server rf f t' a' r where
  run := h.run
  decreasing := h.decreasing
  le := fun u hu => (h.le u hu).trans ht
  mem := h.mem
  length := h.length.trans (Nat.add_le_add_left ha _)
  agree := h.agree

theorem repaired_installs (hround : round server rf f = some .installs) (t : ℤ) :
    Repaired server rf f t 0
      { rejections := [], leader := rf, follower := f, installs := true } where
  run := by
    show repair server 1 rf f = _
    unfold repair
    rw [hround]
    rfl
  decreasing := List.Pairwise.nil
  le := fun u hu => by cases hu
  mem := fun u hu => by cases hu
  length := Nat.zero_le _
  agree := fun h => by cases h

theorem repaired_accepted (hround : round server rf f = some (.replied rf' f' reply))
    (hsucc : reply.success = true) (hagree : f'.AgreesWith rf') (t : ℤ) :
    Repaired server rf f t 0
      { rejections := [], leader := rf', follower := f', installs := false } where
  run := by
    show repair server 1 rf f = _
    unfold repair
    rw [hround]
    simp only [Option.bind_eq_bind, Option.bind_some]
    rw [if_pos hsucc]
  decreasing := List.Pairwise.nil
  le := fun u hu => by cases hu
  mem := fun u hu => by cases hu
  length := Nat.zero_le _
  agree := fun _ => hagree

/-- One more round in front. -/
theorem repair_cons {r : Repair n α β} (hround : round server rf f = some (.replied rf' f' reply))
    (hfail : reply.success = false)
    (hrun : repair server (r.rejections.length + 1) rf' f' = some r) :
    repair server ((reply :: r.rejections).length + 1) rf f =
      some { r with rejections := reply :: r.rejections } := by
  rw [List.length_cons]
  unfold repair
  rw [hround]
  simp only [Option.bind_eq_bind, Option.bind_some]
  rw [if_neg (by rw [hfail]; exact Bool.false_ne_true), hrun]
  rfl

/-- A rejection without a term in front. -/
theorem Repaired.hint {t : ℤ} {a : ℕ} {r : Repair n α β} (h : Repaired server rf' f' t a r)
    (hround : round server rf f = some (.replied rf' f' reply)) (hfail : reply.success = false)
    (hnone : reply.conflictTerm = -1) (hlog : f'.log = f.log) :
    Repaired server rf f t (a + 1) { r with rejections := reply :: r.rejections } := by
  have hsame : Repair.conflictTerms { r with rejections := reply :: r.rejections } =
      r.conflictTerms := by
    unfold Repair.conflictTerms
    rw [List.map_cons, List.filter_cons_of_neg (by simp [hnone])]
  refine ⟨repair_cons hround hfail h.run, ?_, ?_, ?_, ?_, h.agree⟩
  · rw [hsame]
    exact h.decreasing
  · rw [hsame]
    exact h.le
  · rw [hsame, ← hlog]
    exact h.mem
  · rw [hsame, List.length_cons]
    have := h.length
    omega

/-- A rejection with a higher term in front. -/
theorem Repaired.conflict {t u : ℤ} {a : ℕ} {r : Repair n α β} (h : Repaired server rf' f' t a r)
    (hround : round server rf f = some (.replied rf' f' reply)) (hfail : reply.success = false)
    (hterm : reply.conflictTerm = u) (hlt : t < u) (hnonneg : 0 ≤ u)
    (hmem : u ∈ f.log.tail.map LogEntry.term) (hlog : f'.log = f.log) :
    Repaired server rf f u a { r with rejections := reply :: r.rejections } := by
  have hcons : Repair.conflictTerms { r with rejections := reply :: r.rejections } =
      u :: r.conflictTerms := by
    unfold Repair.conflictTerms
    rw [List.map_cons, List.filter_cons_of_pos (by simp [hterm]; omega), hterm]
  refine ⟨repair_cons hround hfail h.run, ?_, ?_, ?_, ?_, h.agree⟩
  · rw [hcons]
    exact List.Pairwise.cons (fun v hv => (h.le v hv).trans_lt hlt) h.decreasing
  · rw [hcons]
    intro v hv
    rcases List.mem_cons.mp hv with rfl | hv
    · exact le_rfl
    · exact ((h.le v hv).trans_lt hlt).le
  · rw [hcons]
    intro v hv
    rcases List.mem_cons.mp hv with rfl | hv
    · exact hmem
    · rw [← hlog]
      exact h.mem v hv
  · rw [hcons, List.length_cons, List.length_cons]
    have := h.length
    omega

/-- Where the terms are the same, there is no rejection any more. -/
theorem Diverged.repaired_settled (h : Diverged server rf f FL FF) (hc : Comparable FL FF)
    (hp : rf.nextIndex server = p + 1) (hsnap : f.lastIncludedIndex ≤ p) (hlast : p ≤ FF.length)
    (hterm : logTerm (FF.take p) = logTerm (FL.take p)) (t : ℤ) :
    ∃ r, Repaired server rf f t 0 r := by
  by_cases hlo : rf.lastIncludedIndex ≤ p
  · obtain ⟨rf', f', reply, hround, hsucc, hagree⟩ := h.round_accepted hc hp hlo hsnap hlast hterm
    exact ⟨_, repaired_accepted hround hsucc hagree t⟩
  · exact ⟨_, repaired_installs (h.round_installs hp (not_le.mp hlo)) t⟩

/-- Behind the follower's snapshot, there is at most one. -/
theorem Diverged.repaired_behind (h : Diverged server rf f FL FF) (hc : Comparable FL FF)
    (hp : rf.nextIndex server = p + 1) (hsnap : p < f.lastIncludedIndex) (t : ℤ) :
    ∃ r, Repaired server rf f t 1 r := by
  by_cases hlo : rf.lastIncludedIndex ≤ p
  · obtain ⟨rf', f', reply, hround, hfail, hnone, hd, hnext, hlog, hindex⟩ :=
      h.round_behind hp hlo hsnap
    have h0 := h.follower.nonneg
    have hle := h.follower.le
    obtain ⟨r, hr⟩ := hd.repaired_settled hc hnext (by rw [hindex]; omega) (by omega)
      h.snapshot_term t
    exact ⟨_, hr.hint hround hfail hnone hlog⟩
  · exact ⟨_, (repaired_installs (h.round_installs hp (not_le.mp hlo)) t).mono le_rfl
      (Nat.zero_le 1)⟩

/-- **Within the follower's log**, every conflict moves the request down and names a lower term
than the one before.  By induction on the index of the request. -/
theorem Diverged.repaired_inside (hc : Comparable FL FF) : ∀ (p : ℕ) (rf f : Server n α β),
    Diverged server rf f FL FF → rf.nextIndex server = p + 1 → f.lastIncludedIndex ≤ p →
    p ≤ FF.length → ∃ r, Repaired server rf f (logTerm (FF.take p)) 1 r := by
  intro p
  induction p using Nat.strong_induction_on with
  | _ p ih =>
    intro rf f h hp hsnap hlast
    by_cases hlo : rf.lastIncludedIndex ≤ p
    swap
    · exact ⟨_, (repaired_installs (h.round_installs hp (not_le.mp hlo)) _).mono le_rfl
        (Nat.zero_le 1)⟩
    by_cases hterm : logTerm (FF.take p) = logTerm (FL.take p)
    · obtain ⟨r, hr⟩ := h.repaired_settled hc hp hsnap hlast hterm _
      exact ⟨r, hr.mono le_rfl (Nat.zero_le 1)⟩
    obtain ⟨rf', f', reply, q, hqp, hround, hfail, hname, hd, hnext, hlog, hindex, hwhere⟩ :=
      h.round_conflict hc hp hlo hsnap hlast hterm
    have hnonneg := hc.zero_le_term hlast
    -- the term that is named is that of an entry the follower still has
    have hmem : logTerm (FF.take p) ∈ f.log.tail.map LogEntry.term := by
      obtain ⟨d, hd', -⟩ := h.follower.log
      have habove : f.lastIncludedIndex.toNat < p := by
        have h0 := h.follower.nonneg
        refine lt_of_le_of_ne (by omega) fun heq => hterm ?_
        rw [← heq]
        exact h.snapshot_term
      obtain ⟨e, he, -, het⟩ := exists_take_eq (F := FF) (k := p - 1) (by omega)
      rw [Nat.sub_add_cancel (by omega)] at het
      rw [hd', List.tail_cons, het]
      refine List.mem_map_of_mem (List.mem_iff_getElem?.mpr
        ⟨p - 1 - f.lastIncludedIndex.toNat, ?_⟩)
      rw [List.getElem?_drop, ← he]
      congr 1
      omega
    -- what comes after names lower terms
    have hrest : ∃ r, ∃ t < logTerm (FF.take p), Repaired server rf' f' t 1 r := by
      by_cases hbehind : q < f'.lastIncludedIndex
      · obtain ⟨r, hr⟩ := hd.repaired_behind hc hnext hbehind (logTerm (FF.take p) - 1)
        exact ⟨r, _, by omega, hr⟩
      rcases hwhere with heq | ⟨-, hlower⟩
      · obtain ⟨r, hr⟩ := hd.repaired_settled hc hnext (not_lt.mp hbehind) (by omega) heq
          (logTerm (FF.take p) - 1)
        exact ⟨r, _, by omega, hr.mono le_rfl (Nat.zero_le 1)⟩
      · obtain ⟨r, hr⟩ := ih q hqp rf' f' hd hnext (not_lt.mp hbehind) (by omega)
        exact ⟨r, _, hlower, hr⟩
    obtain ⟨r, t, hlt, hr⟩ := hrest
    exact ⟨_, hr.conflict hround hfail hname hlt hnonneg hmem hlog⟩

/-- From any next index. -/
theorem Diverged.exists_repaired (h : Diverged server rf f FL FF) (hc : Comparable FL FF) :
    ∃ t r, Repaired server rf f t 2 r := by
  obtain ⟨p, hp⟩ : ∃ p : ℕ, rf.nextIndex server = p + 1 :=
    ⟨(rf.nextIndex server - 1).toNat, by have := h.one_le; omega⟩
  rcases lt_or_ge (p : ℤ) f.lastIncludedIndex with hbehind | hsnap
  · obtain ⟨r, hr⟩ := h.repaired_behind hc hp hbehind 0
    exact ⟨0, r, hr.mono le_rfl one_le_two⟩
  by_cases hlast : p ≤ FF.length
  · obtain ⟨r, hr⟩ := h.repaired_inside hc p rf f hp hsnap hlast
    exact ⟨_, r, hr.mono le_rfl one_le_two⟩
  by_cases hlo : rf.lastIncludedIndex ≤ p
  · obtain ⟨rf', f', reply, hround, hfail, hnone, hd, hnext, hlog, hindex⟩ :=
      h.round_beyond hp hlo (not_le.mp hlast)
    have hle := h.follower.le
    obtain ⟨r, hr⟩ :=
      hd.repaired_inside hc FF.length rf' f' hnext (by rw [hindex]; exact hle) le_rfl
    exact ⟨_, _, hr.hint hround hfail hnone hlog⟩
  · exact ⟨0, _, (repaired_installs (h.round_installs hp (not_le.mp hlo)) 0).mono le_rfl
      (Nat.zero_le 2)⟩

end Round

/-- **Log repair ends.**  From any next index, the rounds come to a success or to the leader's
snapshot; the terms that the rejections name go down, so that the rejections are at most two more
than the terms of the follower's log, and after a success the logs agree. -/
theorem log_repair {server : Fin n} {rf f : Server n α β} (hc : Comparable FL FF)
    (h : Diverged server rf f FL FF) :
    ∃ r : Repair n α β, repair server (r.rejections.length + 1) rf f = some r ∧
      r.conflictTerms.Pairwise (· > ·) ∧
      r.rejections.length ≤ (f.log.tail.map LogEntry.term).dedup.length + 2 ∧
      (r.installs = false → r.follower.AgreesWith r.leader) := by
  obtain ⟨t, r, hr⟩ := h.exists_repaired hc
  refine ⟨r, hr.run, hr.decreasing, ?_, hr.agree⟩
  have hnodup : r.conflictTerms.Nodup := hr.decreasing.imp fun hlt => ne_of_gt hlt
  have hsub : r.conflictTerms ⊆ (f.log.tail.map LogEntry.term).dedup :=
    fun u hu => List.mem_dedup.mpr (hr.mem u hu)
  have hle := (hnodup.subperm hsub).length_le
  have := hr.length
  omega

/-- A leader of term 3 with two entries, in front of a follower with two of term 2 that were never
committed. -/
def termThree : List (LogEntry ℕ) := [⟨some 10, 1⟩, ⟨some 30, 3⟩]

def termTwo : List (LogEntry ℕ) := [⟨some 10, 1⟩, ⟨some 20, 2⟩, ⟨some 21, 2⟩]

def uncommitted : Server 2 ℕ Unit × Server 2 ℕ Unit :=
  ({ Server.initial 0 ⟨none, none⟩ with
      currentTerm := 3, state := .leader, log := ⟨none, 0⟩ :: termThree, nextIndex := fun _ => 3 },
    { Server.initial 1 ⟨none, none⟩ with currentTerm := 2, log := ⟨none, 0⟩ :: termTwo })

theorem comparable_terms : Comparable termThree termTwo where
  leader := by
    intro i j hij hj
    have hall : ∀ j ≤ 2, ∀ i ≤ j,
      logTerm (termThree.take i) ≤ logTerm (termThree.take j) := by decide
    exact hall j hj i hij
  follower := by
    intro i j hij hj
    have hall : ∀ j ≤ 3, ∀ i ≤ j, logTerm (termTwo.take i) ≤ logTerm (termTwo.take j) := by decide
    exact hall j hj i hij
  matching := by
    intro k hk _
    have hall : ∀ k ≤ 2, logTerm (termTwo.take k) = logTerm (termThree.take k) →
        termTwo.take k = termThree.take k := by decide
    exact hall k hk
  start := by
    rintro t s s' ⟨hs, hst, -⟩ ⟨hs', hst', -⟩
    have hall : ∀ s ≤ 2, ∀ s' ≤ 3, logTerm (termThree.take s) = logTerm (termTwo.take s') →
        s = s' := by decide
    exact hall s hs s' hs' (hst.trans hst'.symm)

/-- The follower drops its two entries at once, and the leader does not switch to its snapshot. -/
theorem log_repair_uncommitted : ∃ r : Repair 2 ℕ Unit,
    repair 1 (r.rejections.length + 1) uncommitted.1 uncommitted.2 = some r ∧
      r.conflictTerms.Pairwise (· > ·) ∧ r.rejections.length ≤ 4 ∧ r.conflictTerms = [2] ∧
      r.installs = false ∧ r.follower.AgreesWith r.leader := by
  have hdiverged : Diverged 1 uncommitted.1 uncommitted.2 termThree termTwo := {
    leader := rfl
    term := by decide
    log := ⟨by decide, by decide, ⟨⟨none, 0⟩, rfl, rfl⟩, rfl⟩
    follower := ⟨by decide, by decide, ⟨⟨none, 0⟩, rfl, rfl⟩, rfl⟩
    snapshot_le := by decide
    snapshot := rfl
    one_le := by decide
    next_le := by decide }
  obtain ⟨r, hr, hpairwise, hlength, hagree⟩ := log_repair comparable_terms hdiverged
  have hall : ∀ k ≤ 4, ∀ r ∈ repair 1 (k + 1) uncommitted.1 uncommitted.2,
      r.conflictTerms = [2] ∧ r.installs = false := by decide +kernel
  obtain ⟨hterms, hinstalls⟩ := hall _ hlength r hr
  exact ⟨r, hr, hpairwise, hlength, hterms, hinstalls, hagree hinstalls⟩

end ExchangeLabs.Raft
