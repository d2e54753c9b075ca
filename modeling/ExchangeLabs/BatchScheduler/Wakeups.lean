import ExchangeLabs.BatchScheduler.Progress

/-!
# What is promised and what is signalled

`waiting_task` counts the slots that are promised to tasks that have been woken, and the
semaphore of a kind the signals that no task has taken.  A promise is meant to be for a slot
that is free, and a signal for a task that waits.

`wakeup_waiting_task` subtracts both counters from the capacity and compares the result with
an `unsigned` number.  It is called up to four times by `release_slot`.

## Main definitions

* `Bus.releaseSees` — the numbers of free slots that these calls compute.
* `System.WakesRight` — no slot is promised that is not free, no signal is left over, and no
  call computes a negative number.

## Main results

* `wakesRight_of_reach` — this holds while the steps keep what has been promised.
* `wakesRight_broken` — a step that does not keep it leads to a state in which it does not hold.
-/

namespace ExchangeLabs.BatchScheduler

namespace Bus

variable {b : Bus} {d : Direction}

/-! ### The calls of `wakeup_waiting_task` -/

/-- The free slots that the calls in the block of `release_slot` for a direction see. -/
def wakeDirectionSees (d : Direction) (b : Bus) : List ℤ :=
  if b.busDirection = some d.other then []
  else
    b.emptyBusSlots ::
      if b.tasks ⟨d.other, .priority⟩ = 0 then
        [(b.wakeupWaitingTask ⟨d, .priority⟩).1.emptyBusSlots]
      else []

/-- The free slots that the calls of `wakeup_waiting_task` in `release_slot` see. -/
def releaseSees (b : Bus) : List ℤ :=
  let idle := if b.taskOnBus = 0 then { b with busDirection := none } else b
  idle.wakeDirectionSees .send ++ (idle.wakeDirection .send).1.wakeDirectionSees .receive

theorem wakeDirectionSees_nonneg (hempty : 0 ≤ b.emptyBusSlots) :
    ∀ slots ∈ b.wakeDirectionSees d, 0 ≤ slots := by
  intro slots hslots
  unfold wakeDirectionSees at hslots
  split at hslots
  · cases hslots
  rcases List.mem_cons.mp hslots with rfl | hslots
  · exact hempty
  split at hslots
  · rw [List.mem_singleton.mp hslots]
    exact emptyBusSlots_wakeupWaitingTask_nonneg _ hempty
  · cases hslots

theorem wakeDirection_emptyBusSlots (hempty : 0 ≤ b.emptyBusSlots)
    (htasks : ∀ kind, 0 ≤ b.tasks kind) : 0 ≤ (b.wakeDirection d).1.emptyBusSlots := by
  obtain ⟨haboard, -, hwaiting⟩ := wakeDirection_frame d b
  have hlength : ((b.wakeDirection d).2.length : ℤ) ≤ b.emptyBusSlots := by
    by_cases h : b.busDirection = some d.other
    · rw [wakeDirection_skip h]
      exact hempty
    · exact length_wakeDirection_le h hempty htasks
  unfold emptyBusSlots at *
  omega

/-- A call that finds no negative number of free slots leaves none to the next one. -/
theorem releaseSees_nonneg (hempty : 0 ≤ b.emptyBusSlots) (htasks : ∀ kind, 0 ≤ b.tasks kind) :
    ∀ slots ∈ b.releaseSees, 0 ≤ slots := by
  have hidle : 0 ≤ b.idle.emptyBusSlots := by
    rw [emptyBusSlots_idle]
    exact hempty
  have hsenders : 0 ≤ (b.idle.wakeDirection .send).1.emptyBusSlots := by
    apply wakeDirection_emptyBusSlots hidle
    rw [tasks_idle]
    exact htasks
  intro slots hslots
  rcases List.mem_append.mp hslots with hslots | hslots
  · exact wakeDirectionSees_nonneg hidle slots hslots
  · exact wakeDirectionSees_nonneg hsenders slots hslots

end Bus

/-! ### The accounting -/

/-- While `mutex` is free no more slots are promised than are free, every signal is for a task
that has yet to pass its semaphore, and no call of `wakeup_waiting_task` sees a negative number
of free slots. -/
structure System.WakesRight (s : System) : Prop where
  promised : 0 < s.mutex → s.bus.taskOnBus + s.bus.waitingTask ≤ busCapacity
  signalled : ∀ kind, s.hasTask kind ≤ s.atKind Phase.parked kind
  sees : ∀ thread ∈ s.threads, thread.phase = .releasing →
    ∀ slots ∈ s.bus.releaseSees, 0 ≤ slots

theorem System.Promised.wakesRight {s : System} (hpr : s.Promised) (hc : s.Counted) :
    s.WakesRight := by
  have hslots := hpr.slots
  refine ⟨fun _ => ?_, fun kind => ?_, fun _ _ _ => ?_⟩
  · omega
  · have hsignals := hpr.signals kind
    omega
  · exact Bus.releaseSees_nonneg hpr.emptyBusSlots_nonneg hc.tasks_nonneg

/-- **Wake-ups are accounted for** in a run in which arriving tasks leave promised slots alone
and nobody is signalled twice. -/
theorem wakesRight_of_reach {s : System}
    (hs : ReachWhile step System.KeepsPromises System.init s) : s.WakesRight := by
  obtain ⟨hc, hpr⟩ := promised_of_reach hs
  exact hpr.wakesRight hc

theorem wakesRight_takeTurns :
    ∃ s, run (restrict step System.KeepsPromises) System.init takeTurns = some s ∧
      s.WakesRight := by
  have hrun : (run (restrict step System.KeepsPromises) System.init takeTurns).isSome := by
    decide +kernel
  obtain ⟨s, hs⟩ := Option.isSome_iff_exists.mp hrun
  exact ⟨s, hs, wakesRight_of_reach (reachWhile_of_run _ _ _ hs)⟩

/-! ### A step that breaks a promise -/

section Broken

variable {s s' : System} {i : ℕ} {task : Task} {p : Phase}

theorem step_run (hi : s.threads[i]? = some ⟨task, p⟩) :
    step s (.run i) = s.runTask i task p := by
  simp only [step, hi]

theorem goto_getElem? (hi : s.threads[i]? = some ⟨task, p⟩) {t : System}
    (ht : t.threads = s.threads) (q : Phase) :
    (t.goto i task q).threads[i]? = some ⟨task, q⟩ := by
  obtain ⟨hlt, -⟩ := List.getElem?_eq_some_iff.mp hi
  simp [System.goto, ht, hlt]

theorem reach_run {t : System} (hi : s.threads[i]? = some ⟨task, p⟩)
    (hrun : s.runTask i task p = some s') (ht : Reach step s' t) : Reach step s t :=
  (ReachWhile.tail (.run i) .refl trivial ((step_run hi).trans hrun)).trans ht

/-- A task that takes a promised slot gives `mutex` back with too many slots promised. -/
theorem broken_of_boarding (hc : s.Counted) (hi : s.threads[i]? = some ⟨task, .boarding⟩)
    (hroom : s.bus.taskOnBus < busCapacity)
    (hfull : (busCapacity : ℤ) ≤ s.bus.taskOnBus + s.bus.waitingTask) :
    ∃ t, Reach step s t ∧ ¬ t.WakesRight := by
  have hslots : s.busSlots ≠ 0 := Nat.ne_of_gt (hc.busSlots_pos hi hroom)
  refine ⟨_, reach_run hi (if_neg hslots) (reach_run (goto_getElem? hi rfl _) rfl .refl), ?_⟩
  intro hright
  have hpromised := hright.promised (Nat.succ_pos _)
  simp only [System.goto] at hpromised
  omega

/-- The signals that are yet to be given are given. -/
theorem reach_signalled (kinds : List Task) (s : System)
    (hi : s.threads[i]? = some ⟨task, .waking kinds⟩) :
    ∃ t, Reach step s t ∧ ∀ kind, t.hasTask kind = s.hasTask kind + kinds.count kind ∧
      t.atKind Phase.parked kind = s.atKind Phase.parked kind := by
  induction kinds generalizing s with
  | nil => exact ⟨s, .refl, fun kind => ⟨rfl, rfl⟩⟩
  | cons k kinds ih =>
    obtain ⟨t, ht, hall⟩ := ih _ (goto_getElem? hi
      (t := { s with hasTask := Function.update s.hasTask k (s.hasTask k + 1) }) rfl _)
    refine ⟨t, reach_run hi rfl ht, fun kind => ?_⟩
    obtain ⟨hsem, hparked⟩ := hall kind
    have hmove := atKind_move Phase.parked kind hi (q := .waking kinds) (t := System.goto
      { s with hasTask := Function.update s.hasTask k (s.hasTask k + 1) } i task (.waking kinds))
        rfl
    refine ⟨?_, ?_⟩
    · rw [hsem, List.count_cons]
      by_cases hk : k = kind
      · subst hk
        simp only [System.goto, Function.update_self, beq_self_eq_true, if_true]
        omega
      · simp [System.goto, hk, Ne.symm hk]
    · rw [hparked]
      simpa [Phase.parked] using hmove

/-- The block that is reached and finds somebody wakes all who are woken. -/
theorem Bus.releaseWakes_eq_of_serves {b : Bus} {d : Direction} (hserves : b.idle.Serves d)
    (hfinds : b.idle.Finds d) : b.releaseWakes = b.idle.wakeDirection d := by
  rcases b.releaseWakes_cases with ⟨-, hnone⟩ | ⟨d', hserves', hfinds', hwakes⟩
  · exact absurd hfinds (hnone d hserves.1)
  rcases d.eq_or_eq_other d' with rfl | rfl
  · exact hwakes
  -- both blocks find somebody, and the first one opens the bus in its direction
  have hidle : b.idle.busDirection = none := by
    have hne := hserves.1
    have hne' := hserves'.1
    rw [Direction.other_other] at hne
    cases hdir : b.idle.busDirection with
    | none => rfl
    | some dir =>
      rcases dir.eq_or_eq_other d' with rfl | rfl
      · exact absurd hdir hne
      · exact absurd hdir hne'
  cases d' with
  | send => exact absurd hfinds' (hserves.2 rfl hidle)
  | receive => exact absurd hfinds (hserves'.2 rfl hidle)

/-- **A release that signals somebody twice** leaves a signal over. -/
theorem broken_of_releasing (hc : s.Counted) (hpr : s.Promised)
    (hi : s.threads[i]? = some ⟨task, .releasing⟩) (htwice : ¬ s.SignalsOnce)
    (hrun : s.runTask i task .releasing = some s') : ∃ t, Reach step s' t ∧ ¬ t.WakesRight := by
  cases hrun
  have hempty : 0 ≤ s.bus.idle.emptyBusSlots := by
    rw [Bus.emptyBusSlots_idle]
    exact hpr.emptyBusSlots_nonneg
  have htasks : ∀ kind, 0 ≤ s.bus.idle.tasks kind := by
    rw [Bus.tasks_idle]
    exact hc.tasks_nonneg
  -- more tasks of some kind are signalled than there are to wake
  have hmore : ∃ kind, s.unwoken kind < s.bus.releaseWakes.2.count kind := by
    simp only [System.SignalsOnce, not_forall] at htwice
    obtain ⟨d, -, hserves, hnot⟩ := htwice
    have hfirst := Bus.toWake_eq_min ⟨d, .priority⟩ hempty (htasks _)
    rw [Bus.emptyBusSlots_idle, Bus.tasks_idle] at hfirst
    by_cases hprio : min s.bus.emptyBusSlots (s.bus.tasks ⟨d, .priority⟩) ≤ s.unwoken ⟨d, .priority⟩
    · obtain ⟨hother, hnormal⟩ := Classical.not_imp.mp (not_and.mp hnot hprio)
      have hunwoken' := hpr.unwoken_nonneg ⟨d, .normal⟩
      have hsecond := Bus.wakeNormal_eq (d := d) hempty htasks (by rwa [Bus.tasks_idle])
      rw [Bus.emptyBusSlots_idle, Bus.tasks_idle] at hsecond
      have hprio' := htasks ⟨d, .priority⟩
      rw [Bus.tasks_idle] at hprio'
      have hfinds : s.bus.idle.Finds d := by
        rw [Bus.finds_iff]
        omega
      refine ⟨⟨d, .normal⟩, ?_⟩
      rw [Bus.releaseWakes_eq_of_serves hserves hfinds, Bus.count_wakeDirection hserves.1,
        if_neg (by simp), if_pos rfl]
      omega
    · have hunwoken' := hpr.unwoken_nonneg ⟨d, .priority⟩
      have hfinds : s.bus.idle.Finds d := by
        rw [Bus.finds_iff]
        omega
      refine ⟨⟨d, .priority⟩, ?_⟩
      rw [Bus.releaseWakes_eq_of_serves hserves hfinds, Bus.count_wakeDirection hserves.1,
        if_pos rfl]
      omega
  obtain ⟨kind, hkind⟩ := hmore
  obtain ⟨t, ht, hall⟩ := reach_signalled s.bus.releaseWakes.2 _ (goto_getElem? hi
    (t := { s with busSlots := s.busSlots + 1, bus := s.bus.releaseWakes.1 }) rfl _)
  obtain ⟨hsem, hparked⟩ := hall kind
  refine ⟨t, ht, fun hright => ?_⟩
  have hsignalled := hright.signalled kind
  have hmove := atKind_move Phase.parked kind hi (t := System.goto
    { s with busSlots := s.busSlots + 1, bus := s.bus.releaseWakes.1 } i task
      (.waking s.bus.releaseWakes.2)) rfl
  simp only [Phase.parked, ite_self, Nat.add_zero] at hmove
  have hsem' : t.hasTask kind = s.hasTask kind + s.bus.releaseWakes.2.count kind := hsem
  unfold System.unwoken at hkind
  omega

/-- **The condition is exact**: a step that does not keep what has been promised leads to a state
in which the wake-ups are not accounted for. -/
theorem wakesRight_broken {e : Event}
    (hs : ReachWhile step System.KeepsPromises System.init s) (hstep : step s e = some s')
    (hbreaks : ¬ s.KeepsPromises e) : ∃ t, Reach step s' t ∧ ¬ t.WakesRight := by
  obtain ⟨hc, hpr⟩ := promised_of_reach hs
  have hc' := hc.step (stepped_of_step hstep)
  cases e with
  | create task => exact absurd trivial hbreaks
  | run i =>
    simp only [System.KeepsPromises, not_forall] at hbreaks
    obtain ⟨⟨task, p⟩, hi, hnot⟩ := hbreaks
    rw [step_run hi] at hstep
    rcases not_and_or.mp hnot with henter | hrelease
    · obtain ⟨rfl, henter⟩ := Classical.not_imp.mp henter
      obtain ⟨hwait, hfull⟩ := Classical.not_imp.mp henter
      have hroom : s.bus.taskOnBus < busCapacity := by
        by_contra hge
        rw [Bus.mustWait, if_pos (Int.not_lt.mp hge)] at hwait
        cases hwait
      simp only [System.runTask, hwait] at hstep
      split at hstep
      · cases hstep
      · cases hstep
        exact broken_of_boarding hc' (goto_getElem? hi rfl _) hroom (Int.not_lt.mp hfull)
    · obtain ⟨rfl, htwice⟩ := Classical.not_imp.mp hrelease
      exact broken_of_releasing hc hpr hi htwice hstep

end Broken

/-- Three senders fill the bus and two wait.  Two leave and signal one task each, two more come
and take the slots, and the third leaves. -/
def signalledAgain : List Event :=
  List.replicate 7 (.create ⟨.send, .normal⟩) ++
    List.replicate 3 (.run 0) ++ List.replicate 3 (.run 1) ++ List.replicate 3 (.run 2) ++
    List.replicate 2 (.run 3) ++ List.replicate 2 (.run 4) ++
    List.replicate 4 (.run 0) ++ List.replicate 4 (.run 1) ++
    List.replicate 3 (.run 5) ++ List.replicate 3 (.run 6) ++ [.run 2]

/-- **Five slots of three**: the last call sees minus one free slot, signals two tasks that were
signalled before, and two signals are left over. -/
theorem wakesRight_not_of_reach :
    (∃ s, Reach step System.init s ∧ (∃ thread ∈ s.threads, thread.phase = .releasing) ∧
      ∃ slots ∈ s.bus.releaseSees, slots < 0) ∧
    ∃ s, Reach step System.init s ∧ 0 < s.mutex ∧
      s.bus.taskOnBus + s.bus.waitingTask > busCapacity ∧
      s.hasTask ⟨.send, .normal⟩ > s.atKind Phase.parked ⟨.send, .normal⟩ := by
  have hsees : ∃ s ∈ run step System.init signalledAgain,
      (∃ thread ∈ s.threads, thread.phase = .releasing) ∧
        ∃ slots ∈ s.bus.releaseSees, slots < 0 := by
    decide +kernel
  have hleft : ∃ s ∈ run step System.init (signalledAgain ++ List.replicate 4 (.run 2)),
      0 < s.mutex ∧ s.bus.taskOnBus + s.bus.waitingTask > busCapacity ∧
        s.hasTask ⟨.send, .normal⟩ > s.atKind Phase.parked ⟨.send, .normal⟩ := by
    decide +kernel
  obtain ⟨s, hs, hsees⟩ := hsees
  obtain ⟨t, ht, hleft⟩ := hleft
  exact ⟨⟨s, reach_of_run _ _ _ hs, hsees⟩, t, reach_of_run _ _ _ ht, hleft⟩

end ExchangeLabs.BatchScheduler
