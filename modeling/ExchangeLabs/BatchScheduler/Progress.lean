import ExchangeLabs.BatchScheduler.Duplex

/-!
# The bus does not get stuck

A task that has `mutex` when it goes down on `bus_slots` must find a slot there: whoever
would free one needs `mutex`.  The slots that woken tasks are to take are counted in
`waiting_task`, which an arriving task does not look at, and a task that was woken is still
counted as waiting when the next task leaves, which may signal it again.

## Main definitions

* `System.unwoken s kind` — the tasks of a kind that no signal was given for.
* `System.KeepsPromises` — an arriving task takes no slot that is promised, and no call of
  `wakeup_waiting_task` signals more tasks than there are to wake.
* `System.Promised` — the invariant of such steps.
* `System.Stuck` — there are unfinished tasks, and all of them are blocked.

## Main results

* `not_stuck_of_reach` — **in runs of such steps the bus does not get stuck.**
* `stuck_of_reach` — it does in others.
-/

namespace ExchangeLabs.BatchScheduler

namespace Bus

variable {b : Bus} {d : Direction}

/-- The block of `release_slot` for this direction is reached with the counters as they are: the
bus does not have the other direction, and has not just been given it. -/
def Serves (b : Bus) (d : Direction) : Prop :=
  b.busDirection ≠ some d.other ∧ (d = .receive → b.busDirection = none → ¬ b.Finds .send)

instance (b : Bus) (d : Direction) : Decidable (b.Serves d) :=
  inferInstanceAs (Decidable (_ ∧ _))

/-- **What `release_slot` wakes**: tasks of one direction, or nobody. -/
theorem releaseWakes_cases (b : Bus) :
    (b.releaseWakes = (b.idle, []) ∧ ∀ d, b.idle.busDirection ≠ some d.other → ¬ b.idle.Finds d) ∨
      ∃ d, b.idle.Serves d ∧ b.idle.Finds d ∧ b.releaseWakes = b.idle.wakeDirection d := by
  rw [releaseWakes_eq]
  generalize b.idle = b
  by_cases hsend : b.busDirection ≠ some .receive ∧ b.Finds .send
  · obtain ⟨hdir, hfinds⟩ := hsend
    refine Or.inr ⟨.send, ⟨hdir, fun h => by cases h⟩, hfinds, ?_⟩
    have hskip : (b.wakeDirection .send).1.wakeDirection .receive =
        ((b.wakeDirection .send).1, []) := wakeDirection_skip (wakeDirection_of_finds hdir hfinds)
    rw [hskip, List.append_nil]
  · have hnone : b.wakeDirection .send = (b, []) := by
      by_cases hdir : b.busDirection = some .receive
      · exact wakeDirection_skip hdir
      · exact wakeDirection_of_not_finds fun h => hsend ⟨hdir, h⟩
    rw [hnone]
    by_cases hreceive : b.busDirection ≠ some .send ∧ b.Finds .receive
    · obtain ⟨hdir, hfinds⟩ := hreceive
      refine Or.inr ⟨.receive, ⟨hdir, fun _ hidle hfinds' => hsend ⟨?_, hfinds'⟩⟩, hfinds, rfl⟩
      simp [hidle]
    · have hnone' : b.wakeDirection .receive = (b, []) := by
        by_cases hdir : b.busDirection = some .send
        · exact wakeDirection_skip hdir
        · exact wakeDirection_of_not_finds fun h => hreceive ⟨hdir, h⟩
      refine Or.inl ⟨by rw [hnone', List.nil_append], fun d hdir hfinds => ?_⟩
      cases d with
      | send => exact hsend ⟨hdir, hfinds⟩
      | receive => exact hreceive ⟨hdir, hfinds⟩

theorem toWake_eq_min (kind : Task) (hempty : 0 ≤ b.emptyBusSlots) (htasks : 0 ≤ b.tasks kind) :
    (b.toWake kind : ℤ) = min b.emptyBusSlots (b.tasks kind) := by
  unfold toWake
  rw [if_neg (by omega)]
  omega

theorem emptyBusSlots_wakeupWaitingTask_nonneg (kind : Task) (hempty : 0 ≤ b.emptyBusSlots) :
    0 ≤ (b.wakeupWaitingTask kind).1.emptyBusSlots := by
  have htoWake : (b.toWake kind : ℤ) ≤ b.emptyBusSlots := by
    unfold toWake
    split <;> omega
  rw [emptyBusSlots_wakeupWaitingTask]
  omega

/-- The second call of a block is made if no priority task of the other direction waits, and sees
the slots that the first one leaves. -/
theorem wakeNormal_eq (hempty : 0 ≤ b.emptyBusSlots) (htasks : ∀ kind, 0 ≤ b.tasks kind)
    (hother : b.tasks ⟨d.other, .priority⟩ = 0) :
    (b.wakeNormal d : ℤ) =
      min (b.emptyBusSlots - b.toWake ⟨d, .priority⟩) (b.tasks ⟨d, .normal⟩) := by
  have hleft := emptyBusSlots_wakeupWaitingTask_nonneg ⟨d, .priority⟩ hempty
  have hsecond := toWake_eq_min (b := (b.wakeupWaitingTask ⟨d, .priority⟩).1) ⟨d, .normal⟩
    hleft (htasks _)
  unfold wakeNormal
  rw [if_pos hother, hsecond, emptyBusSlots_wakeupWaitingTask]
  rfl

theorem wakeNormal_le (hempty : 0 ≤ b.emptyBusSlots) (htasks : ∀ kind, 0 ≤ b.tasks kind) :
    (b.wakeNormal d : ℤ) ≤
      min (b.emptyBusSlots - b.toWake ⟨d, .priority⟩) (b.tasks ⟨d, .normal⟩) := by
  by_cases hother : b.tasks ⟨d.other, .priority⟩ = 0
  · exact Int.le_of_eq (wakeNormal_eq hempty htasks hother)
  · have hfirst := toWake_eq_min ⟨d, .priority⟩ hempty (htasks _)
    have hpos := htasks ⟨d, .normal⟩
    unfold wakeNormal
    rw [if_neg hother]
    omega

theorem count_wakeDirection (h : b.busDirection ≠ some d.other) (kind : Task) :
    (b.wakeDirection d).2.count kind =
      (if ⟨d, .priority⟩ = kind then b.toWake ⟨d, .priority⟩ else 0) +
        (if ⟨d, .normal⟩ = kind then b.wakeNormal d else 0) := by
  rw [wakeDirection_eq h, List.count_append, List.count_replicate, List.count_replicate]
  simp only [beq_iff_eq]

theorem length_wakeDirection_le (h : b.busDirection ≠ some d.other) (hempty : 0 ≤ b.emptyBusSlots)
    (htasks : ∀ kind, 0 ≤ b.tasks kind) : ((b.wakeDirection d).2.length : ℤ) ≤ b.emptyBusSlots := by
  have hfirst := toWake_eq_min ⟨d, .priority⟩ hempty (htasks _)
  have hsecond := wakeNormal_le (d := d) hempty htasks
  rw [wakeDirection_eq h, List.length_append, List.length_replicate, List.length_replicate]
  omega

end Bus

/-- The tasks of a kind that wait and that no signal was given for. -/
def System.unwoken (s : System) (kind : Task) : ℤ := s.atKind Phase.parked kind - s.hasTask kind

/-- The calls of `wakeup_waiting_task` for the direction that is served signal no more tasks than
there are to wake: there are not more empty slots than such tasks, or all tasks counted are such
tasks.  The second call sees the slots that the first one leaves. -/
def System.SignalsOnce (s : System) : Prop :=
  ∀ d ∈ [Direction.send, Direction.receive], s.bus.idle.Serves d →
    min s.bus.emptyBusSlots (s.bus.tasks ⟨d, .priority⟩) ≤ s.unwoken ⟨d, .priority⟩ ∧
    (s.bus.tasks ⟨d.other, .priority⟩ = 0 →
      min (s.bus.emptyBusSlots - s.bus.tasks ⟨d, .priority⟩) (s.bus.tasks ⟨d, .normal⟩) ≤
        s.unwoken ⟨d, .normal⟩)

instance (s : System) : Decidable s.SignalsOnce :=
  inferInstanceAs (Decidable (∀ d ∈ _, _))

/-- A task that enters and need not wait finds a slot that is not promised, and a task that
leaves signals nobody twice. -/
def System.KeepsPromises (s : System) : Event → Prop
  | .create _ => True
  | .run i => ∀ thread ∈ s.threads[i]?,
      (thread.phase = .enter → s.bus.mustWait thread.task = false →
        s.bus.taskOnBus + s.bus.waitingTask < busCapacity) ∧
      (thread.phase = .releasing → s.SignalsOnce)

instance (s : System) (e : Event) : Decidable (s.KeepsPromises e) :=
  match e with
  | .create _ => inferInstanceAs (Decidable True)
  | .run i => inferInstanceAs (Decidable (∀ thread ∈ s.threads[i]?, _))

namespace Phase

/-- Is about to take a slot. -/
def boards : Phase → ℕ
  | .boarding => 1
  | .enter | .parking | .waiting | .woken | .boarded | .transfer | .releasing | .waking _
  | .finished => 0

/-- Is in the middle of a change of the counters. -/
def changes : Phase → ℕ
  | .boarding | .releasing => 1
  | .enter | .parking | .waiting | .woken | .boarded | .transfer | .waking _ | .finished => 0

theorem boards_le_critical (p : Phase) : p.boards ≤ p.critical := by
  cases p <;> simp [boards, critical]

theorem changes_le_critical (p : Phase) : p.changes ≤ p.critical := by
  cases p <;> simp [changes, critical]

end Phase

/-- No slot is promised twice, every signal is for a task, and while tasks wait, someone is on the
bus or is called to it. -/
structure System.Promised (s : System) : Prop where
  slots : s.bus.taskOnBus + s.bus.waitingTask + s.at Phase.boards ≤ busCapacity
  signals : ∀ kind, s.hasTask kind + s.at (Phase.calling kind) ≤ s.atKind Phase.parked kind
  served : s.at Phase.changes = 0 → ((∃ kind, 0 < s.bus.tasks kind) ∨ s.bus.busDirection ≠ none) →
    0 < s.bus.taskOnBus + s.bus.waitingTask

theorem System.Promised.emptyBusSlots_nonneg {s : System} (hpr : s.Promised) :
    0 ≤ s.bus.emptyBusSlots := by
  have := hpr.slots
  unfold Bus.emptyBusSlots
  omega

theorem System.Promised.unwoken_nonneg {s : System} (hpr : s.Promised) (kind : Task) :
    0 ≤ s.unwoken kind := by
  have := hpr.signals kind
  unfold System.unwoken
  omega

theorem promised_init : System.init.Promised where
  slots := by decide
  signals kind := Nat.le_refl 0
  served _ h := by
    rcases h with ⟨kind, hkind⟩ | hdir
    · exact absurd hkind (Int.lt_irrefl 0)
    · exact absurd rfl hdir

/-! ### One thread moves -/

section Move

variable {s t : System} {i : ℕ} {task : Task} {p q : Phase}

/-- What holds of the thread in the critical section holds of no other. -/
theorem System.Counted.at_eq_zero (hc : s.Counted) (hi : s.threads[i]? = some ⟨task, p⟩)
    (hp : 0 < p.critical) {f : Phase → ℕ} (hf : ∀ q : Phase, 0 < f q → 0 < q.critical)
    (hfp : f p = 0) : s.at f = 0 := by
  by_contra hne
  obtain ⟨j, b, hj, hb⟩ := exists_of_census_pos (Nat.pos_of_ne_zero hne)
  have hij := hc.critical_unique hj hi (hf _ hb) hp
  rw [hij, hi] at hj
  cases hj
  exact absurd (show 0 < f p from hb) (by omega)

theorem Phase.calling_critical (kind : Task) (q : Phase) (h : 0 < q.calling kind) :
    0 < q.critical := by
  cases q <;> simp_all [calling, critical]

theorem changes_eq_zero_of_mutex (hc : s.Counted) (hmutex : 0 < s.mutex) :
    s.at Phase.changes = 0 := by
  have : s.at Phase.changes ≤ s.at Phase.critical :=
    census_mono (fun thread => thread.phase.changes_le_critical) _
  have := hc.mutex
  omega

/-- What a step of a thread has to add up to. -/
theorem promised_move (hi : s.threads[i]? = some ⟨task, p⟩)
    (ht : t.threads = s.threads.set i ⟨task, q⟩)
    (hslots : t.bus.taskOnBus + t.bus.waitingTask + s.at Phase.boards + q.boards ≤
      busCapacity + p.boards)
    (hsignals : ∀ kind, t.hasTask kind + s.at (Phase.calling kind) + q.calling kind +
      (if task = kind then p.parked else 0) ≤
        s.atKind Phase.parked kind + p.calling kind + (if task = kind then q.parked else 0))
    (hserved : s.at Phase.changes = p.changes → q.changes = 0 →
      ((∃ kind, 0 < t.bus.tasks kind) ∨ t.bus.busDirection ≠ none) →
      0 < t.bus.taskOnBus + t.bus.waitingTask) : t.Promised := by
  refine ⟨?_, ?_, ?_⟩
  · have := at_move Phase.boards hi ht
    omega
  · intro kind
    have := at_move (Phase.calling kind) hi ht
    have := atKind_move Phase.parked kind hi ht
    have := hsignals kind
    omega
  · intro hchanges
    have := at_move Phase.changes hi ht
    have hle : p.changes ≤ s.at Phase.changes := le_at Phase.changes hi
    exact hserved (by omega) (by omega)

end Move

theorem System.Promised.create {s : System} (hpr : s.Promised) (task : Task) :
    System.Promised { s with threads := s.threads ++ [⟨task, .enter⟩] } := by
  refine ⟨?_, ?_, ?_⟩
  · rw [at_create _ rfl]
    exact hpr.slots
  · intro kind
    rw [at_create _ rfl, atKind_create _ rfl]
    exact hpr.signals kind
  · rw [at_create _ rfl]
    exact hpr.served

/-- A task waits only if someone is on the bus, or is called to it. -/
theorem System.Promised.served_of_mustWait {s : System} (hpr : s.Promised) (hc : s.Counted)
    (hmutex : 0 < s.mutex) {task : Task} (hwait : s.bus.mustWait task = true) :
    0 < s.bus.taskOnBus + s.bus.waitingTask := by
  have hserved := hpr.served (changes_eq_zero_of_mutex hc hmutex)
  have hwaiting : 0 ≤ s.bus.waitingTask := by
    have := hc.waitingTask
    omega
  unfold Bus.mustWait at hwait
  split_ifs at hwait with hfull hdir hnormal hsend hreceive
  · have : (busCapacity : ℤ) = 3 := rfl
    omega
  · exact hserved (Or.inr hdir.1)
  · exact hserved (Or.inl ⟨_, hsend.2⟩)
  · exact hserved (Or.inl ⟨_, hreceive.2⟩)

/-- A task that leaves wakes no more tasks than there are empty slots, and none of them twice. -/
theorem System.Promised.release {s : System} (hpr : s.Promised) (hc : s.Counted)
    (hok : s.SignalsOnce) :
    (s.bus.releaseWakes.2.length : ℤ) ≤ s.bus.emptyBusSlots ∧
      ∀ kind, (s.bus.releaseWakes.2.count kind : ℤ) ≤ s.unwoken kind := by
  have hempty : 0 ≤ s.bus.idle.emptyBusSlots := by
    rw [Bus.emptyBusSlots_idle]
    exact hpr.emptyBusSlots_nonneg
  have htasks : ∀ kind, 0 ≤ s.bus.idle.tasks kind := by
    rw [Bus.tasks_idle]
    exact hc.tasks_nonneg
  rcases s.bus.releaseWakes_cases with ⟨hnone, -⟩ | ⟨d, hserves, -, hwakes⟩
  · rw [hnone]
    refine ⟨?_, fun kind => ?_⟩
    · rw [← Bus.emptyBusSlots_idle]
      exact hempty
    · exact hpr.unwoken_nonneg kind
  · rw [hwakes]
    refine ⟨?_, fun kind => ?_⟩
    · rw [← Bus.emptyBusSlots_idle]
      exact Bus.length_wakeDirection_le hserves.1 hempty htasks
    · obtain ⟨hprio, hnormal⟩ := hok d (by cases d <;> simp) hserves
      have hfirst := Bus.toWake_eq_min ⟨d, .priority⟩ hempty (htasks _)
      have hsecond := Bus.wakeNormal_le (d := d) hempty htasks
      rw [Bus.count_wakeDirection hserves.1]
      rw [Bus.emptyBusSlots_idle, Bus.tasks_idle] at hfirst hsecond
      split_ifs with hk hk' hk'
      · rw [← hk] at hk'
        cases hk'
      · rw [← hk]
        omega
      · -- the second call wakes somebody only if no priority task of the other direction waits
        rw [← hk']
        by_cases hother : s.bus.tasks ⟨d.other, .priority⟩ = 0
        · have := hnormal hother
          have := hpr.unwoken_nonneg ⟨d, .normal⟩
          omega
        · have hzero : s.bus.idle.wakeNormal d = 0 := by
            unfold Bus.wakeNormal
            rw [Bus.tasks_idle, if_neg hother]
          have := hpr.unwoken_nonneg ⟨d, .normal⟩
          omega
      · have := hpr.unwoken_nonneg kind
        omega

/-- A bus that is left empty with nobody called to it has been left by everybody. -/
theorem served_of_release {b : Bus} (hbus : b.taskOnBus = 0) (hwaiting : b.waitingTask = 0)
    (hpos : ∀ kind, 0 ≤ b.tasks kind) (hnone : b.releaseWakes.2 = []) :
    (∀ kind, b.tasks kind = 0) ∧ b.releaseWakes.1.busDirection = none := by
  have hidle : b.idle = { b with busDirection := none } := if_pos hbus
  rcases b.releaseWakes_cases with ⟨hwakes, hfinds⟩ | ⟨d, hserves, hfinds, hwakes⟩
  · -- the bus has room, so a waiting task would be called
    have hslots : b.idle.emptyBusSlots ≠ 0 := by
      rw [hidle]
      unfold Bus.emptyBusSlots
      simp only [hbus, hwaiting]
      decide
    have hprio : ∀ d, b.tasks ⟨d, .priority⟩ = 0 := by
      intro d
      by_contra hne
      refine hfinds d (by simp [hidle]) ⟨hslots, Or.inl ?_⟩
      have := hpos ⟨d, .priority⟩
      simp only [hidle]
      omega
    have hnormal : ∀ d, b.tasks ⟨d, .normal⟩ = 0 := by
      intro d
      by_contra hne
      refine hfinds d (by simp [hidle]) ⟨hslots, Or.inr ⟨?_, ?_⟩⟩
      · rw [hidle]
        exact hprio d.other
      · have := hpos ⟨d, .normal⟩
        simp only [hidle]
        omega
    refine ⟨fun kind => ?_, by rw [hwakes, hidle]⟩
    obtain ⟨d, _ | _⟩ := kind
    · exact hnormal d
    · exact hprio d
  · rw [hwakes] at hnone
    exact absurd hnone ((Bus.wakeDirection_ne_nil hserves.1).mpr hfinds)

/-- **A task that leaves** signals no more tasks than there are slots, and leaves nobody to
be served if it signals none. -/
theorem System.Promised.leave {s : System} (hpr : s.Promised) (hc : s.Counted) {i : ℕ}
    {task : Task} (hi : s.threads[i]? = some ⟨task, .releasing⟩) (honce : s.SignalsOnce) :
    System.Promised (System.goto { s with
      busSlots := s.busSlots + 1
      bus := s.bus.releaseWakes.1 } i task (.waking s.bus.releaseWakes.2)) := by
  have hslots := hpr.slots
  obtain ⟨haboard, htasks, hwaiting⟩ := s.bus.releaseWakes_frame
  obtain ⟨hlength, hcount⟩ := hpr.release hc honce
  refine promised_move hi rfl ?_ ?_ ?_
  · -- nobody else is in a critical section
    have hnone : s.at Phase.boards = 0 :=
      hc.at_eq_zero hi Nat.one_pos (fun q hq => by have := q.boards_le_critical; omega) rfl
    unfold Bus.emptyBusSlots at hlength
    simp only [System.goto, Phase.boards, haboard, hwaiting]
    omega
  · intro kind
    have hnone : s.at (Phase.calling kind) = 0 :=
      hc.at_eq_zero hi Nat.one_pos (Phase.calling_critical kind) rfl
    have hle := hcount kind
    unfold System.unwoken at hle
    simp only [System.goto, Phase.calling, Phase.parked, ite_self]
    omega
  · intro _ _ hor
    -- with nobody on the bus or called to it, everybody has been served
    by_contra hnone
    have haboard' := hc.taskOnBus
    have hwaiting' := hc.waitingTask
    simp only [System.goto, haboard, hwaiting] at hnone
    have hnil : s.bus.releaseWakes.2 = [] := by
      rw [← List.length_eq_zero_iff]
      omega
    obtain ⟨hzero, hdir⟩ := served_of_release (by omega) (by omega)
      hc.tasks_nonneg hnil
    rcases hor with ⟨kind, hkind⟩ | hdir'
    · simp only [System.goto, htasks, hzero kind] at hkind
      omega
    · exact hdir' hdir

theorem System.Promised.step {s s' : System} {e : Event} (hpr : s.Promised) (hc : s.Counted)
    (hok : s.KeepsPromises e) (h : Stepped s e s') : s'.Promised := by
  have hslots := hpr.slots
  cases h with
  | create task => exact hpr.create task
  | wait i task hi hmutex hwait =>
    refine promised_move hi rfl ?_ ?_ ?_
    · simp only [System.goto, Phase.boards]
      omega
    · intro kind
      simpa [System.goto, Phase.calling, Phase.parked] using Nat.le_add_right_of_le
        (hpr.signals kind)
    · intro _ _ _
      exact hpr.served_of_mustWait hc hmutex hwait
  | proceed i task hi hmutex hwait =>
    refine promised_move hi rfl ?_ ?_ (by simp [Phase.changes])
    · -- the condition: `get_slot` lets nobody in when the slots have been promised
      have hslot := (hok ⟨task, .enter⟩ hi).1 rfl hwait
      have hnone : s.at Phase.boards ≤ s.at Phase.critical :=
        census_mono (fun thread => thread.phase.boards_le_critical) _
      have := hc.mutex
      simp only [System.goto, Phase.boards]
      omega
    · intro kind
      simpa [System.goto, Phase.calling, Phase.parked] using hpr.signals kind
  | retake i task hi hmutex =>
    refine promised_move hi rfl ?_ ?_ (by simp [Phase.changes])
    · simp only [System.goto, Phase.boards]
      omega
    · intro kind
      simpa [System.goto, Phase.calling, Phase.parked] using hpr.signals kind
  | board i task hi hslots =>
    refine promised_move hi rfl ?_ ?_ ?_
    · simp only [System.goto, Phase.boards]
      omega
    · intro kind
      simpa [System.goto, Phase.calling, Phase.parked] using hpr.signals kind
    · intro _ _ _
      have := hc.taskOnBus
      have := hc.waitingTask
      simp only [System.goto]
      omega
  | arrive i task hi hmutex =>
    refine promised_move hi rfl ?_ ?_ (by simp [Phase.changes])
    · simp only [System.goto, Phase.boards]
      omega
    · intro kind
      simpa [System.goto, Phase.calling, Phase.parked] using hpr.signals kind
  | release i task hi => exact hpr.leave hc hi ((hok ⟨task, .releasing⟩ hi).2 rfl)
  | park i task hi | depart i task hi | finish i task hi =>
    refine promised_move hi rfl ?_ ?_ ?_
    · simp only [System.goto, Phase.boards]
      omega
    · intro kind
      simpa [System.goto, Phase.calling, Phase.parked] using hpr.signals kind
    · intro hs _
      exact hpr.served hs
  | wake i task kind kinds hi =>
    refine promised_move hi rfl ?_ ?_ ?_
    · simp only [System.goto, Phase.boards]
      omega
    · intro kind'
      have hsignals := hpr.signals kind'
      -- a signal of this kind has gone from the caller to the semaphore
      by_cases hk : kind = kind'
      · subst hk
        simp only [System.goto, Phase.calling, Phase.parked, Function.update_self,
          List.count_cons_self, ite_self]
        omega
      · simp [System.goto, Phase.calling, Phase.parked, hk, Ne.symm hk]
        omega
    · intro hs _
      exact hpr.served hs
  | hear i task hi hsem =>
    refine promised_move hi rfl ?_ ?_ ?_
    · simp only [System.goto, Phase.boards]
      omega
    · intro kind
      have hsignals := hpr.signals kind
      -- a signal of this kind has gone from the semaphore to the thread
      by_cases hk : task = kind
      · subst hk
        simp [System.goto, Phase.calling, Phase.parked]
        omega
      · simpa [System.goto, Phase.calling, hk, Ne.symm hk] using hsignals
    · intro hs _
      exact hpr.served hs

theorem promised_of_reach {s : System} (hs : ReachWhile step System.KeepsPromises System.init s) :
    s.Counted ∧ s.Promised :=
  hs.invariant (P := fun s => s.Counted ∧ s.Promised) ⟨counted_init, promised_init⟩
    fun _ _ _ ⟨hc, hpr⟩ hok hstep =>
      ⟨hc.step (stepped_of_step hstep), hpr.step hc hok (stepped_of_step hstep)⟩

/-! ### No thread is blocked for ever -/

/-- There are unfinished tasks, and all of them are blocked on a semaphore. -/
def System.Stuck (s : System) : Prop :=
  (∃ thread ∈ s.threads, thread.phase ≠ .finished) ∧
    ∀ i < s.threads.length, (∀ thread ∈ s.threads[i]?, thread.phase ≠ .finished) →
      (step s (.run i)).isNone

instance (s : System) : Decidable s.Stuck :=
  inferInstanceAs (Decidable (_ ∧ _))

/-- A slot that is held is one of a task on the bus, or of the thread in the critical section. -/
theorem System.Counted.busSlots_pos {s : System} (hc : s.Counted) {i : ℕ} {task : Task}
    (hi : s.threads[i]? = some ⟨task, .boarding⟩) (hroom : s.bus.taskOnBus < busCapacity) :
    0 < s.busSlots := by
  have hboards : 1 ≤ s.at Phase.boards := le_at Phase.boards hi
  have hslot : s.at Phase.slot + s.at Phase.boards ≤ s.at Phase.aboard + s.at Phase.critical := by
    rw [System.at, System.at, System.at, System.at, ← census_add, ← census_add]
    refine census_mono (fun thread => ?_) _
    cases thread.phase <;> simp [Phase.slot, Phase.boards, Phase.aboard, Phase.critical]
  have := hc.busSlots
  have := hc.taskOnBus
  have := hc.mutex
  omega

/-- **Who comes to `sema_down(&bus_slots)` finds a slot.** -/
theorem System.Promised.busSlots_pos {s : System} (hpr : s.Promised) (hc : s.Counted) {i : ℕ}
    {task : Task} (hi : s.threads[i]? = some ⟨task, .boarding⟩) : 0 < s.busSlots := by
  have hboards : 1 ≤ s.at Phase.boards := le_at Phase.boards hi
  have := hpr.slots
  have := hc.waitingTask
  exact hc.busSlots_pos hi (by omega)

/-- A task is blocked in front of `mutex` while another has it, or on the semaphore of its kind;
one that has `mutex` is not. -/
theorem blocked_of_promised {s : System} (hpr : s.Promised) (hc : s.Counted) {i : ℕ}
    {task : Task} {p : Phase} (hi : s.threads[i]? = some ⟨task, p⟩) (hp : p ≠ .finished)
    (hblocked : (step s (.run i)).isNone) :
    p.critical = 0 ∧ (0 < s.mutex → p = .waiting) ∧ (p = .waiting → s.hasTask task = 0) := by
  simp only [step, hi] at hblocked
  cases p with
  | waking kinds => cases kinds <;> cases hblocked
  | boarding =>
    have := hpr.busSlots_pos hc hi
    simp only [System.runTask, if_neg (Nat.ne_of_gt this)] at hblocked
    cases hblocked
  | parking | boarded | releasing => cases hblocked
  | finished => exact absurd rfl hp
  | waiting =>
    refine ⟨rfl, fun _ => rfl, fun _ => ?_⟩
    by_contra hsem
    simp only [System.runTask, if_neg hsem] at hblocked
    cases hblocked
  | enter =>
    refine ⟨rfl, fun hmutex => ?_, fun h => by cases h⟩
    simp only [System.runTask, if_neg (Nat.ne_of_gt hmutex)] at hblocked
    split at hblocked <;> cases hblocked
  | woken | transfer =>
    refine ⟨rfl, fun hmutex => ?_, fun h => by cases h⟩
    simp only [System.runTask, if_neg (Nat.ne_of_gt hmutex)] at hblocked
    cases hblocked

/-! ### A stuck bus -/

section Stuck

variable {s : System}

/-- Whoever is not finished is blocked. -/
theorem System.Stuck.blocked (h : s.Stuck) (hpr : s.Promised) (hc : s.Counted) {i : ℕ}
    {task : Task} {p : Phase} (hi : s.threads[i]? = some ⟨task, p⟩) (hp : p ≠ .finished) :
    p.critical = 0 ∧ (0 < s.mutex → p = .waiting) ∧ (p = .waiting → s.hasTask task = 0) := by
  obtain ⟨hlt, -⟩ := List.getElem?_eq_some_iff.mp hi
  refine blocked_of_promised hpr hc hi hp (h.2 i hlt fun thread hthread => ?_)
  rw [hi] at hthread
  cases hthread
  exact hp

/-- Nobody holds `mutex`. -/
theorem System.Stuck.mutex_pos (h : s.Stuck) (hpr : s.Promised) (hc : s.Counted) :
    0 < s.mutex := by
  by_contra hzero
  have hcrit : 0 < s.at Phase.critical := by
    have := hc.mutex
    omega
  obtain ⟨i, ⟨task, p⟩, hi, hp⟩ := exists_of_census_pos hcrit
  have hp' : 0 < p.critical := hp
  have hne : p ≠ .finished := by
    rintro rfl
    cases hp'
  exact absurd (h.blocked hpr hc hi hne).1 (by omega)

/-- So everybody waits for a signal, or is finished. -/
theorem System.Stuck.at_eq_zero (h : s.Stuck) (hpr : s.Promised) (hc : s.Counted) {f : Phase → ℕ}
    (hwaiting : f .waiting = 0) (hfinished : f .finished = 0) : s.at f = 0 := by
  by_contra hne
  obtain ⟨i, ⟨task, p⟩, hi, hp⟩ := exists_of_census_pos (Nat.pos_of_ne_zero hne)
  have hp' : 0 < f p := hp
  by_cases hfin : p = .finished
  · rw [hfin] at hp'
    omega
  · rw [(h.blocked hpr hc hi hfin).2.1 (h.mutex_pos hpr hc)] at hp'
    omega

/-- No signal is left: it would be for a task, which would go on. -/
theorem System.Stuck.hasTask_eq_zero (h : s.Stuck) (hpr : s.Promised) (hc : s.Counted)
    (kind : Task) : s.hasTask kind = 0 := by
  by_contra hne
  have hparked : 0 < s.atKind Phase.parked kind := by
    have := hpr.signals kind
    omega
  obtain ⟨i, ⟨task, p⟩, hi, hp⟩ := exists_of_census_pos hparked
  have hp' : 0 < if task = kind then p.parked else 0 := hp
  split_ifs at hp' with hk
  · have hfin : p ≠ .finished := by
      rintro rfl
      cases hp'
    obtain ⟨-, hwaiting, hsem⟩ := h.blocked hpr hc hi hfin
    exact hne (hk ▸ hsem (hwaiting (h.mutex_pos hpr hc)))
  · exact absurd hp' (Nat.lt_irrefl 0)

/-- Nobody is on the bus or called to it. -/
theorem System.Stuck.bus_empty (h : s.Stuck) (hpr : s.Promised) (hc : s.Counted) :
    s.bus.taskOnBus + s.bus.waitingTask = 0 := by
  have hbus : s.bus.taskOnBus = 0 := by
    rw [hc.taskOnBus, h.at_eq_zero hpr hc rfl rfl]
    rfl
  have howed : ∀ kind, s.owed kind = 0 := by
    intro kind
    have hcalled : s.atKind Phase.called kind = 0 := by
      have hle : s.atKind Phase.called kind ≤ s.at Phase.called :=
        census_mono (fun thread => by split <;> omega) _
      rw [h.at_eq_zero hpr hc rfl rfl] at hle
      omega
    unfold System.owed
    rw [hcalled, h.hasTask_eq_zero hpr hc, h.at_eq_zero hpr hc rfl rfl]
  have htotal : total s.owed = 0 := by
    unfold total
    simp only [howed]
  have := hc.waitingTask
  omega

theorem not_stuck_of_promised (hpr : s.Promised) (hc : s.Counted) : ¬ s.Stuck := by
  intro h
  have hmutex := h.mutex_pos hpr hc
  obtain ⟨⟨task, p⟩, hmem, hunfinished⟩ := h.1
  obtain ⟨i, hi⟩ := List.mem_iff_getElem?.mp hmem
  have hwaiting := (h.blocked hpr hc hi hunfinished).2.1 hmutex
  subst hwaiting
  have htasks : 0 < s.bus.tasks task := by
    have : 1 ≤ s.atKind Phase.counted task := le_atKind Phase.counted hi
    rw [hc.tasks]
    omega
  have hserved := hpr.served (changes_eq_zero_of_mutex hc hmutex) (Or.inl ⟨task, htasks⟩)
  have hempty := h.bus_empty hpr hc
  omega

end Stuck

/-- **The bus does not get stuck** in a run in which arriving tasks leave promised slots alone and
nobody is signalled twice; and who comes to `sema_down(&bus_slots)` finds a slot. -/
theorem not_stuck_of_reach {s : System}
    (hs : ReachWhile step System.KeepsPromises System.init s) :
    ¬ s.Stuck ∧ ∀ thread ∈ s.threads, thread.phase = .boarding → 0 < s.busSlots := by
  obtain ⟨hc, hpr⟩ := promised_of_reach hs
  refine ⟨not_stuck_of_promised hpr hc, fun thread hthread hphase => ?_⟩
  obtain ⟨i, hi⟩ := List.mem_iff_getElem?.mp hthread
  obtain ⟨task, p⟩ := thread
  cases hphase
  exact hpr.busSlots_pos hc hi

/-- Two senders pass the bus while a receiver waits, is signalled and takes its turn. -/
def takeTurns : List Event :=
  [.create ⟨.send, .normal⟩, .create ⟨.send, .priority⟩, .create ⟨.receive, .normal⟩] ++
    List.replicate 3 (.run 0) ++ List.replicate 3 (.run 1) ++ List.replicate 2 (.run 2) ++
    List.replicate 3 (.run 0) ++ List.replicate 4 (.run 1) ++ List.replicate 3 (.run 2)

theorem not_stuck_takeTurns :
    ∃ s, run (restrict step System.KeepsPromises) System.init takeTurns = some s ∧
      (¬ s.Stuck ∧ ∀ thread ∈ s.threads, thread.phase = .boarding → 0 < s.busSlots) := by
  have hrun : (run (restrict step System.KeepsPromises) System.init takeTurns).isSome := by
    decide +kernel
  obtain ⟨s, hs⟩ := Option.isSome_iff_exists.mp hrun
  exact ⟨s, hs, not_stuck_of_reach (reachWhile_of_run _ _ _ hs)⟩

/-- Three senders fill the bus and a fourth waits.  One leaves and signals it; a fifth takes the
slot first. -/
def overtaken : List Event :=
  List.replicate 5 (.create ⟨.send, .normal⟩) ++
    List.replicate 3 (.run 0) ++ List.replicate 3 (.run 1) ++ List.replicate 3 (.run 2) ++
    List.replicate 2 (.run 3) ++ List.replicate 4 (.run 0) ++ List.replicate 3 (.run 4) ++
    List.replicate 2 (.run 3)

/-- **The bus gets stuck**: the woken task holds `mutex` and waits for a slot, which the tasks on
the bus need `mutex` to give back. -/
theorem stuck_of_reach : ∃ s, Reach step System.init s ∧ s.Stuck ∧
    (∃ thread ∈ s.threads, thread.phase = .boarding) ∧ s.busSlots = 0 := by
  have hrun : ∃ s ∈ run step System.init overtaken, s.Stuck ∧
      (∃ thread ∈ s.threads, thread.phase = .boarding) ∧ s.busSlots = 0 := by
    decide +kernel
  obtain ⟨s, hs, hstuck⟩ := hrun
  exact ⟨s, reach_of_run overtaken _ _ hs, hstuck⟩

end ExchangeLabs.BatchScheduler
