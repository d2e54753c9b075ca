import ExchangeLabs.Raft.Safety

/-!
# What a cluster agrees on

The guarantees of the protocol, over whole runs.  Election safety and log
matching hold of all runs.  That a leader knows what its followers hold, and
with it state machine safety, fails: a leader believes the reply to an
`AppendEntries` that it sent when it led an earlier term, although the follower
may have lost the acknowledged entries to another leader in between.  Both hold
of the runs in which this does not happen.

## Main results

* `election_safety`, `log_matching` — of all runs.
* `matchIndex_sound`, `state_machine_safety` — of runs without stale replies.
* `staleRun`, `divergingRun` — one stale reply breaks both.
-/

namespace ExchangeLabs.Raft

open History

variable {n : ℕ} {α β : Type} {c c' : Cluster n α β}

/-- Two servers; `0` wins an election, and both deliver what `Start` gave it. -/
def commitRun : List (Event 2 ℕ Unit) :=
  [.electionTimeout 0, .handle 0, .receive 0, .start 0 (some 7), .heartbeat 0 1, .handle 1,
    .receive 1, .applierCopy 0, .applierSend 0, .heartbeat 0 1, .handle 2, .applierCopy 1,
    .applierSend 1]

/-! ### Elections -/

/-- **Election safety**: at most one server ever leads a term, in a run and at any
two points of it. -/
theorem election_safety (hc : Reach Cluster.step Cluster.init c) (hc' : Reach Cluster.step c c')
    {a b : Fin n} (ha : (c.nodes a).server.state = .leader)
    (hb : (c'.nodes b).server.state = .leader)
    (hterm : (c.nodes a).server.currentTerm = (c'.nodes b).server.currentTerm) : a = b := by
  obtain ⟨h, hr, -⟩ := refines_init.of_reach hc
  obtain ⟨h', hr', hle⟩ := hr.of_reach hc'
  have hel := hle.elected _ _ ((hr.server a).leader ha)
  have hel' := (hr'.server b).leader hb
  rw [← (hr.server a).term, hterm] at hel
  rw [← (hr'.server b).term, hel] at hel'
  exact Option.some.inj hel'

theorem election_safety_commitRun : ∃ c c' : Cluster 2 ℕ Unit,
    run Cluster.step Cluster.init (commitRun.take 3) = some c ∧
      run Cluster.step c (commitRun.drop 3) = some c' ∧
      (c.nodes 0).server.state = .leader ∧ (c'.nodes 0).server.state = .leader ∧
      ((0 : Fin 2) = 0) := by
  have hobs : ((run Cluster.step Cluster.init (commitRun.take 3)).bind fun c =>
      (run Cluster.step c (commitRun.drop 3)).map fun c' =>
        ((c.nodes 0).server.state, (c'.nodes 0).server.state,
          (c.nodes 0).server.currentTerm - (c'.nodes 0).server.currentTerm)) =
      some (.leader, .leader, 0) := by decide +kernel
  obtain ⟨c, hc, hobs⟩ := Option.bind_eq_some_iff.mp hobs
  obtain ⟨c', hc', hval⟩ := Option.map_eq_some_iff.mp hobs
  simp only [Prod.mk.injEq] at hval
  obtain ⟨h1, h2, h3⟩ := hval
  exact ⟨c, c', hc, hc', h1, h2, election_safety (reach_of_run _ _ _ hc) (reach_of_run _ _ _ hc')
    h1 h2 (sub_eq_zero.mp h3)⟩

/-! ### Logs -/

/-- An entry that a server holds ends a prefix of its log, which its term's leader
has too. -/
theorem Server.At.take_eq_of_entryAt {rf : Server n α β} {h : Logs n α} {s : Fin n}
    (hi : h.Inv LogEntry.term) (ha : rf.At h s) {i : ℤ} {e : LogEntry α}
    (he : rf.entryAt i = some e) :
    ∃ k : ℕ, i = k + 1 ∧ (h.log s)[k]? = some e ∧ (h.elected e.term).isSome ∧
      (h.log s).take (k + 1) <+: h.tlog e.term := by
  have hlo : rf.lastIncludedIndex < i := by
    by_contra hlo
    rw [Server.entryAt, if_neg hlo] at he
    cases he
  have hnn := ha.log.nonneg
  rw [ha.log.entryAt_eq hlo] at he
  obtain ⟨k, rfl⟩ : ∃ k : ℕ, i = k + 1 := ⟨(i - 1).toNat, by omega⟩
  have hk : ((k : ℤ) + 1 - 1).toNat = k := by omega
  rw [hk] at he
  have htake := take_succ_eq he
  have hvalid : Valid LogEntry.term h (h.log s) := hi.valid_hlog s _
  obtain ⟨h1, h2⟩ := hvalid _ e (htake ▸ List.take_prefix _ _)
  exact ⟨k, rfl, he, h1, htake ▸ h2⟩

/-- Two servers that hold entries of one term at one index hold the same log up to
that index. -/
theorem Refines.take_eq_of_entryAt {h : Logs n α} (hr : Refines c h) {a b : Fin n} {i : ℤ}
    {e f : LogEntry α} (he : (c.nodes a).server.entryAt i = some e)
    (hf : (c.nodes b).server.entryAt i = some f) (hterm : e.term = f.term) :
    e = f ∧ i ≤ (h.log a).length ∧ (h.log a).take i.toNat = (h.log b).take i.toNat := by
  obtain ⟨k, hik, hea, -, hpa⟩ := (hr.server a).take_eq_of_entryAt hr.inv he
  obtain ⟨m, him, hfb, -, hpb⟩ := (hr.server b).take_eq_of_entryAt hr.inv hf
  obtain rfl : k = m := by omega
  have hka := (List.getElem?_eq_some_iff.mp hea).1
  have hkb := (List.getElem?_eq_some_iff.mp hfb).1
  have heq : (h.log a).take (k + 1) = (h.log b).take (k + 1) := by
    rw [← hterm] at hpb
    refine (List.prefix_of_prefix_length_le hpa hpb ?_).eq_of_length ?_
    · simp only [List.length_take]
      omega
    · simp only [List.length_take]
      omega
  have hi : i.toNat = k + 1 := by omega
  refine ⟨?_, by omega, hi ▸ heq⟩
  have := congrArg (fun l => l[k]?) heq
  simp only [List.getElem?_take_of_lt (Nat.lt_succ_self k), hea, hfb, Option.some.injEq] at this
  exact this

/-- The entry that a leader appends is the only one of its term at its index, at
any point of the run. -/
theorem eq_of_start {h : Logs n α} (hr : Refines c h) {s : Fin n} {command : Option α}
    (hl : (c.nodes s).server.state = .leader) (hc' : c.step (.start s command) = some c')
    {d : Cluster n α β} (hd : Reach Cluster.step c' d) {b : Fin n} {e : LogEntry α}
    (he : (d.nodes b).server.entryAt ((c.nodes s).server.getLastLogIndex + 1) = some e)
    (hterm : e.term = (c.nodes s).server.currentTerm) : e.command = command := by
  have ha := hr.server s
  have hel := ha.leader hl
  obtain ⟨h', hst, hat, hsaved, hcand, htlog⟩ := ha.start hr.inv (hr.saved s) command
  cases hc'
  have hr' : Refines (c.setServer s ((c.nodes s).server.start command).1) h' :=
    hr.setNode hst hat hsaved rfl hcand (hr.installing s)
  obtain ⟨h₂, hr₂, hle₂⟩ := hr'.of_reach hd
  obtain ⟨k, hk, hek, -, hpre⟩ := (hr₂.server b).take_eq_of_entryAt hr₂.inv he
  rw [ha.log.getLastLogIndex_eq, hr.inv.log_of_leader hel] at hk
  rw [hterm, ha.term] at hpre
  -- the entry is the last one of the leader's log after the call
  have hel' := (hr.inv.of_steps hst).2.elected _ _ hel
  have hgrow := hle₂.tlog (h.term s) (by simp [hel'])
  rw [htlog hl] at hgrow
  obtain rfl : k = (h.tlog (h.term s)).length := by omega
  have hlen := (List.getElem?_eq_some_iff.mp hek).1
  rw [take_succ_eq hek] at hpre
  have hprefix := List.prefix_of_prefix_length_le hpre hgrow
    (by simp only [List.length_append, List.length_take, List.length_singleton]; omega)
  have heq := hprefix.eq_of_length
    (by simp only [List.length_append, List.length_take, List.length_singleton]; omega)
  have hlast := (List.append_inj' heq rfl).2
  simp only [List.cons.injEq, and_true] at hlast
  rw [hlast]

/-- Before a leader appends an entry, no server holds one of its term at its index. -/
theorem ne_of_start {d : Cluster n α β} (hd : Reach Cluster.step Cluster.init d)
    (hc : Reach Cluster.step d c) {s : Fin n} (hl : (c.nodes s).server.state = .leader) {b : Fin n}
    {e : LogEntry α}
    (he : (d.nodes b).server.entryAt ((c.nodes s).server.getLastLogIndex + 1) = some e) :
    e.term ≠ (c.nodes s).server.currentTerm := by
  obtain ⟨h₀, hr₀, -⟩ := refines_init.of_reach hd
  obtain ⟨h, hr, hle⟩ := hr₀.of_reach hc
  have ha := hr.server s
  intro hterm
  obtain ⟨k, hk, hek, hel, hpre⟩ := (hr₀.server b).take_eq_of_entryAt hr₀.inv he
  have hlen := (List.getElem?_eq_some_iff.mp hek).1
  rw [ha.log.getLastLogIndex_eq, hr.inv.log_of_leader (ha.leader hl)] at hk
  have hlong := (hpre.trans (hle.tlog _ hel)).length_le
  rw [hterm, ha.term, List.length_take] at hlong
  omega

/-- **Log matching**: in every state of every run, entries of one term at one index
above both snapshots are the same, and so are all entries below them that both
servers retain.  What `Start` returns a leader for is stored under that index and
term nowhere else, at any point of the run. -/
theorem log_matching (hc : Reach Cluster.step Cluster.init c) :
    (∀ (a b : Fin n) (i : ℤ) (e f : LogEntry α), (c.nodes a).server.entryAt i = some e →
      (c.nodes b).server.entryAt i = some f → e.term = f.term →
      e.command = f.command ∧ ∀ j ≤ i, (c.nodes a).server.lastIncludedIndex < j →
        (c.nodes b).server.lastIncludedIndex < j →
        ∃ x, (c.nodes a).server.entryAt j = some x ∧ (c.nodes b).server.entryAt j = some x) ∧
    ∀ (s : Fin n) (command : Option α) (rf' : Server n α β) (index term : ℤ) (c' d : Cluster n α β),
      (c.nodes s).server.start command = (rf', index, term, true) →
      c.step (.start s command) = some c' →
      (Reach Cluster.step Cluster.init d ∧ Reach Cluster.step d c ∨ Reach Cluster.step c' d) →
      ∀ (b : Fin n) (e : LogEntry α), (d.nodes b).server.entryAt index = some e →
        e.term = term → e.command = command := by
  obtain ⟨h, hr, -⟩ := refines_init.of_reach hc
  constructor
  · intro a b i e f he hf hterm
    obtain ⟨rfl, hlen, heq⟩ := hr.take_eq_of_entryAt he hf hterm
    refine ⟨rfl, fun j hj haj hbj => ?_⟩
    have hnn := (hr.server a).log.nonneg
    have hget : ∀ F : List (LogEntry α), F[(j - 1).toNat]? = (F.take i.toNat)[(j - 1).toNat]? := by
      intro F
      rw [List.getElem?_take_of_lt (by omega)]
    rw [(hr.server a).log.entryAt_eq haj, (hr.server b).log.entryAt_eq hbj, hget (h.log b), ← heq,
      ← hget]
    exact ⟨_, List.getElem?_eq_getElem (by omega), List.getElem?_eq_getElem (by omega)⟩
  · intro s command rf' index term c' d hstart hc' hd b e he hterm
    have hl : (c.nodes s).server.state = .leader := by
      by_contra hl
      rw [Server.start, if_pos hl] at hstart
      cases hstart
    rw [Server.start, if_neg (not_not.mpr hl)] at hstart
    cases hstart
    rcases hd with ⟨hd, hdc⟩ | hd
    · exact absurd hterm (ne_of_start hd hdc hl he)
    · exact eq_of_start hr hl hc' hd he hterm

theorem log_matching_commitRun : ∃ c : Cluster 2 ℕ Unit,
    run Cluster.step Cluster.init commitRun = some c ∧
      ∃ e f : LogEntry ℕ, (c.nodes 0).server.entryAt 1 = some e ∧
        (c.nodes 1).server.entryAt 1 = some f ∧ e.term = f.term ∧ e.command = f.command := by
  have hobs : (run Cluster.step Cluster.init commitRun).map (fun c =>
      ((c.nodes 0).server.entryAt 1, (c.nodes 1).server.entryAt 1)) =
      some (some { command := some 7, term := 1 }, some { command := some 7, term := 1 }) := by
    decide +kernel
  obtain ⟨c, hc, hval⟩ := Option.map_eq_some_iff.mp hobs
  simp only [Prod.mk.injEq] at hval
  obtain ⟨h1, h2⟩ := hval
  exact ⟨c, hc, _, _, h1, h2, rfl,
    ((log_matching (reach_of_run _ _ _ hc)).1 0 1 1 _ _ h1 h2 rfl).1⟩

/-! ### Replication -/

/-- Whatever a leader takes for replicated on a server of its term, that server
holds, or has in its snapshot. -/
def Cluster.MatchSound (c : Cluster n α β) : Prop :=
  ∀ (s i : Fin n) (N : ℤ), (c.nodes s).server.state = .leader →
    (c.nodes i).server.currentTerm = (c.nodes s).server.currentTerm →
    (c.nodes s).server.lastIncludedIndex < N → N ≤ (c.nodes s).server.matchIndex i →
    N ≤ (c.nodes s).server.getLastLogIndex ∧
      (N ≤ (c.nodes i).server.lastIncludedIndex ∨
        ∃ e, (c.nodes s).server.entryAt N = some e ∧ (c.nodes i).server.entryAt N = some e)

/-- **`matchIndex` is sound** in every state of a run in which no leader believes a
stale reply. -/
theorem matchIndex_sound
    (hc : ReachWhile Cluster.step (fun c e => ¬ c.StaleReply e) Cluster.init c) :
    c.MatchSound := by
  obtain ⟨h, hr, hs⟩ := exists_safe hc
  intro s i N hl hterm hlo hN
  have ha := hr.server s
  have hb := hr.server i
  have hnn := ha.log.nonneg
  have hlog := hr.inv.log_of_leader (ha.leader hl)
  obtain ⟨hlen, -⟩ := (hs.server s).matched hl i (by omega)
  have hpre := (hs.server s).take_isPrefix hl hlo hN
  have hi : h.hlog i (h.term s) = h.log i := by
    rw [← ha.term, ← hterm, hb.term]
    rfl
  rw [← hlog] at hlen hpre
  rw [hi] at hpre
  refine ⟨by rw [ha.log.getLastLogIndex_eq]; omega, ?_⟩
  by_cases hsnap : N ≤ (c.nodes i).server.lastIncludedIndex
  · exact Or.inl hsnap
  refine Or.inr ?_
  rw [ha.log.entryAt_eq hlo, hb.log.entryAt_eq (not_le.mp hsnap)]
  have hlt : (N - 1).toNat < ((h.log s).take N.toNat).length := by
    rw [List.length_take]
    omega
  refine ⟨((h.log s).take N.toNat)[(N - 1).toNat], ?_, ?_⟩
  · exact ((List.take_prefix _ _).getElem hlt) ▸ List.getElem?_eq_getElem _
  · exact (hpre.getElem hlt) ▸ List.getElem?_eq_getElem _

theorem matchIndex_sound_commitRun : ∃ c : Cluster 2 ℕ Unit,
    run (restrict Cluster.step fun c e => ¬ c.StaleReply e) Cluster.init commitRun = some c ∧
      (c.nodes 0).server.state = .leader ∧ (c.nodes 0).server.matchIndex 1 = 1 ∧ c.MatchSound := by
  have hobs : (run (restrict Cluster.step fun c e => ¬ c.StaleReply e) Cluster.init commitRun).map
      (fun c => ((c.nodes 0).server.state, (c.nodes 0).server.matchIndex 1)) =
      some (.leader, 1) := by decide +kernel
  obtain ⟨c, hc, hval⟩ := Option.map_eq_some_iff.mp hobs
  simp only [Prod.mk.injEq] at hval
  exact ⟨c, hc, hval.1, hval.2, matchIndex_sound (reachWhile_of_run _ _ _ hc)⟩

/-! ### Delivery -/

/-- All commands delivered under one index are equal. -/
def Cluster.Agree (c : Cluster n α β) : Prop :=
  ∀ d ∈ c.applied, ∀ d' ∈ c.applied, d.msg.commandValid = true → d'.msg.commandValid = true →
    d.msg.commandIndex = d'.msg.commandIndex → d.msg.command = d'.msg.command

/-- **State machine safety** after every run in which no leader believes a stale
reply: no two servers, and no server before and after a restart, ever deliver
different commands under one index. -/
theorem state_machine_safety
    (hc : ReachWhile Cluster.step (fun c e => ¬ c.StaleReply e) Cluster.init c) : c.Agree := by
  obtain ⟨h, hr, hs⟩ := exists_safe hc
  intro d hd d' hd' hv hv' hidx
  obtain ⟨p, hp, -, -, hpe⟩ := hs.applied d hd
  obtain ⟨q, hq, -, -, hqe⟩ := hs.applied d' hd'
  obtain ⟨-, e, he, hde⟩ := hpe hv
  obtain ⟨-, f, hf, hdf⟩ := hqe hv'
  rw [← hidx] at hf
  -- committed logs are comparable
  have hget : ∀ {p q : List (LogEntry α)} {k : ℕ} {e : LogEntry α}, p <+: q → p[k]? = some e →
      q[k]? = some e := by
    rintro p q k e ⟨x, rfl⟩ he
    rw [List.getElem?_append_left (List.getElem?_eq_some_iff.mp he).1, he]
  have hef : e = f := by
    rcases hp.isPrefix_or_isPrefix hr.inv hq with hpq | hqp
    · exact Option.some.inj ((hget hpq he).symm.trans hf)
    · exact Option.some.inj (he.symm.trans (hget hqp hf))
  rw [← hde, ← hdf, hef]

theorem state_machine_safety_commitRun : ∃ c : Cluster 2 ℕ Unit,
    run (restrict Cluster.step fun c e => ¬ c.StaleReply e) Cluster.init commitRun = some c ∧
      c.applied.map (fun d => (d.server, d.msg.commandIndex, d.msg.command)) =
        [(1, 1, some 7), (0, 1, some 7)] ∧ c.Agree := by
  have hobs : (run (restrict Cluster.step fun c e => ¬ c.StaleReply e) Cluster.init commitRun).map
      (fun c => c.applied.map fun d => (d.server, d.msg.commandIndex, d.msg.command)) =
      some [(1, 1, some 7), (0, 1, some 7)] := by decide +kernel
  obtain ⟨c, hc, hval⟩ := Option.map_eq_some_iff.mp hobs
  exact ⟨c, hc, hval, state_machine_safety (reachWhile_of_run _ _ _ hc)⟩

/-! ### A stale reply -/

/-- Three servers; `0` leads the terms 1, 3 and 5 and `2` the terms 2, 4 and 6.  In
term 3 the log of `0` reaches `1`, and the reply waits until `0` leads again, by
then with the log it took from `2`. -/
def staleRun : List (Event 3 ℕ Unit) :=
  [.electionTimeout 0, .handle 1, .receive 1, .start 0 (some 10), .start 0 (some 11),
    .electionTimeout 2, .handle 3, .receive 3, .start 2 (some 20), .handle 2,
    .electionTimeout 0, .handle 4, .receive 4, .heartbeat 0 1, .handle 6, .receive 6,
    .heartbeat 0 1, .handle 7, .handle 5,
    .electionTimeout 2, .handle 9, .receive 9, .heartbeat 2 0, .handle 10, .receive 10,
    .heartbeat 2 0, .handle 11,
    .electionTimeout 0, .handle 12, .receive 12, .start 0 (some 30), .receive 7]

/-- What follows: `0` delivers what it took for replicated, and `2` overwrites it. -/
def divergingRun : List (Event 3 ℕ Unit) :=
  staleRun ++ [.applierCopy 0, .applierSend 0, .applierSend 0, .handle 13,
    .electionTimeout 2, .handle 15, .receive 15, .start 2 (some 40), .heartbeat 2 1, .handle 16,
    .receive 16, .heartbeat 2 1, .handle 17, .receive 17,
    .applierCopy 2, .applierSend 2, .applierSend 2]

theorem not_matchSound_staleRun : ∃ c, run Cluster.step Cluster.init staleRun = some c ∧
    Reach Cluster.step Cluster.init c ∧ ¬ c.MatchSound := by
  have hobs : (run Cluster.step Cluster.init staleRun).map (fun c =>
      ((c.nodes 0).server.state, [(c.nodes 0).server.currentTerm, (c.nodes 1).server.currentTerm,
        (c.nodes 0).server.lastIncludedIndex, (c.nodes 1).server.lastIncludedIndex,
        (c.nodes 0).server.matchIndex 1],
        [(c.nodes 0).server.entryAt 2, (c.nodes 1).server.entryAt 2])) =
      some (State.leader, [5, 5, 0, 0, 2], [some { command := some 30, term := 5 },
        some { command := some 11, term := 1 }]) := by decide +kernel
  obtain ⟨c, hc, hval⟩ := Option.map_eq_some_iff.mp hobs
  simp only [Prod.mk.injEq, List.cons.injEq, and_true] at hval
  obtain ⟨h1, ⟨h2, h3, h4, h5, h6⟩, h7, h8⟩ := hval
  refine ⟨c, hc, reach_of_run _ _ _ hc, fun hsound => ?_⟩
  obtain ⟨-, hcov | ⟨e, he, hf⟩⟩ := hsound 0 1 2 h1 (h3.trans h2.symm) (h4 ▸ by decide)
    (h6 ▸ le_rfl)
  · rw [h5] at hcov
    exact absurd hcov (by decide)
  · rw [h7] at he
    rw [h8] at hf
    exact absurd (he.trans hf.symm) (by decide)

theorem not_agree_divergingRun : ∃ c, run Cluster.step Cluster.init divergingRun = some c ∧
    Reach Cluster.step Cluster.init c ∧ ¬ c.Agree := by
  have hobs : (run Cluster.step Cluster.init divergingRun).map (fun c =>
      c.applied.map fun d => (d.msg.commandValid, d.msg.commandIndex, d.msg.command)) =
      some [(true, 2, some 40), (true, 1, some 20), (true, 2, some 30), (true, 1, some 20)] := by
    decide +kernel
  obtain ⟨c, hc, hval⟩ := Option.map_eq_some_iff.mp hobs
  refine ⟨c, hc, reach_of_run _ _ _ hc, fun hagree => ?_⟩
  have hmem : ∀ x ∈ ([(true, 2, some 40), (true, 2, some 30)] : List (Bool × ℤ × Option ℕ)),
      ∃ d ∈ c.applied, (d.msg.commandValid, d.msg.commandIndex, d.msg.command) = x := by
    intro x hx
    refine List.mem_map.mp (hval ▸ ?_)
    revert x
    decide
  obtain ⟨d, hd, hdx⟩ := hmem (true, 2, some 40) (by decide)
  obtain ⟨d', hd', hdx'⟩ := hmem (true, 2, some 30) (by decide)
  simp only [Prod.mk.injEq] at hdx hdx'
  obtain ⟨h1, h2, h3⟩ := hdx
  obtain ⟨h4, h5, h6⟩ := hdx'
  have := hagree d hd d' hd' h1 h4 (h2.trans h5.symm)
  rw [h3, h6] at this
  exact absurd this (by decide)

end ExchangeLabs.Raft
