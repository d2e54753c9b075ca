import ExchangeLabs.MapReduce.Methods

/-!
# The counters of the distributed coordinator

`mapRemaining` and `reduceRemaining` are kept by hand: taken down by every report,
and taken up by `HardReset`.  They gate the phases and the end of the job.

Two things go wrong.  A report takes the counter down even if it finds its task
completed, as the second report of a task does that was handed out again after a
timeout.  And a call that waits for a reduce task does not look at `mapRemaining`
again, which a `HardReset` may have raised meanwhile.

## Main definitions

* `System.CountersExact` — the counters are exact, and what they gate is in order.
* `System.NoSecondReport`, `System.NoLateReduce` — the step is not of the first, not of
  the second kind.

## Main results

* `System.counters_exact` — **the counters are exact in every run of such steps.**
* `System.not_countersExact` — a second report breaks every part of it.
* `System.not_countersExact_of_noSecondReport` — a call that waits breaks it alone.
-/

namespace ExchangeLabs.MapReduce.Distributed

namespace Coordinator

/-- The table that a report is about. -/
def tasks (c : Coordinator) (type : TaskType) : Tasks String :=
  if type = .map then c.mapTasks else c.reduceTasks

/-- The report does not find its task completed. -/
def FirstReport (c : Coordinator) (args : UpdateTaskStatusArgs) : Prop :=
  ((c.tasks args.type).lookup args.name).map (·.status) ≠ some .completed

instance (c : Coordinator) (args : UpdateTaskStatusArgs) : Decidable (c.FirstReport args) :=
  inferInstanceAs (Decidable (_ ≠ _))

theorem updateTaskStatus_map {c : Coordinator} {args : UpdateTaskStatusArgs}
    (h : Exact c.mapTasks c.mapRemaining) (hfirst : args.type = .map → c.FirstReport args)
    (now : ℕ) :
    Exact (c.updateTaskStatus now args).mapTasks (c.updateTaskStatus now args).mapRemaining := by
  unfold updateTaskStatus
  dsimp only
  split
  · next htype =>
    cases htask : (c.heardOf now args.workerAddress).mapTasks.lookup args.name with
    | none => exact h
    | some task =>
      have hstatus : task.status ≠ .completed := by
        have := hfirst htype
        rw [FirstReport, tasks, if_pos htype,
          show c.mapTasks.lookup args.name = some task from htask]
          at this
        simpa using this
      exact h.complete htask hstatus
  · split <;> exact h

theorem updateTaskStatus_reduce {c : Coordinator} {args : UpdateTaskStatusArgs}
    (h : Exact c.reduceTasks c.reduceRemaining) (hfirst : args.type ≠ .map → c.FirstReport args)
    (now : ℕ) :
    Exact (c.updateTaskStatus now args).reduceTasks
      (c.updateTaskStatus now args).reduceRemaining := by
  unfold updateTaskStatus
  dsimp only
  split
  · split <;> exact h
  · next htype =>
    cases htask : (c.heardOf now args.workerAddress).reduceTasks.lookup args.name with
    | none => exact h
    | some task =>
      have hstatus : task.status ≠ .completed := by
        have := hfirst htype
        rw [FirstReport, tasks, if_neg htype,
          show c.reduceTasks.lookup args.name = some task from htask] at this
        simpa using this
      exact h.complete htask hstatus

end Coordinator

namespace System

variable {s t : System}

/-- **The counters are exact**; a reduce task is only handed out when all map tasks are
completed, and `Done` is only true when all reduce tasks are. -/
def CountersExact (s : System) : Prop :=
  Exact s.coordinator.mapTasks s.coordinator.mapRemaining ∧
  Exact s.coordinator.reduceTasks s.coordinator.reduceRemaining ∧
  (∀ worker reply, s.answer = some (worker, .ok reply) → reply.type = .reduce →
    AllCompleted s.coordinator.mapTasks) ∧
  (s.coordinator.done.1 = true → AllCompleted s.coordinator.reduceTasks)

/-- The step is not a report of a task that is already completed. -/
def NoSecondReport (s : System) : Event → Prop
  | .report handout => s.coordinator.FirstReport handout.args
  | _ => True

/-- No call that waited for a reduce task gets one while a map task remains. -/
def NoLateReduce (s : System) : Event → Prop
  | .resume i picks => s.waiting[i]?.map (·.loop) = some .reduce → picks.reduce ≠ none →
      s.coordinator.mapRemaining = 0
  | _ => True

/-- The step is none of the two that go wrong. -/
def InOrder (s : System) (e : Event) : Prop := NoSecondReport s e ∧ NoLateReduce s e

instance (s : System) : (e : Event) → Decidable (NoSecondReport s e)
  | .report handout => inferInstanceAs (Decidable (s.coordinator.FirstReport handout.args))
  | .tick _ | .getTask .. | .resume .. | .healthCheck _ | .reportFailure _ | .reschedule _
  | .monitor _ | .done => inferInstanceAs (Decidable True)

instance (s : System) : (e : Event) → Decidable (NoLateReduce s e)
  | .resume .. => inferInstanceAs (Decidable (_ → _ → _))
  | .tick _ | .getTask .. | .report _ | .healthCheck _ | .reportFailure _ | .reschedule _
  | .monitor _ | .done => inferInstanceAs (Decidable True)

instance (s : System) (e : Event) : Decidable (InOrder s e) := inferInstanceAs (Decidable (_ ∧ _))

/-! ### The invariant -/

/-- Both counters are exact, and a reduce task is only handed out at zero. -/
structure Counted (s : System) : Prop where
  map : Exact s.coordinator.mapTasks s.coordinator.mapRemaining
  reduce : Exact s.coordinator.reduceTasks s.coordinator.reduceRemaining
  answer : ∀ worker reply, s.answer = some (worker, .ok reply) → reply.type = .reduce →
    s.coordinator.mapRemaining = 0

theorem Counted.countersExact (h : Counted s) : CountersExact s := by
  refine ⟨h.map, h.reduce, fun worker reply hans htype =>
    h.map.eq_zero_iff.mp (h.answer worker reply hans htype), fun hdone => ?_⟩
  refine h.reduce.eq_zero_iff.mp ?_
  unfold Coordinator.done at hdone
  split at hdone
  · next hzero => exact hzero
  · exact (of_decide_eq_true hdone).2

theorem counted_make {files : List String} (hfiles : files.Nodup) (nReduce : ℕ) :
    Counted (make files nReduce) where
  map := exact_makeMapTasks hfiles ""
  reduce := exact_makeReduceTasks "" nReduce
  answer := by
    intro worker reply hans
    cases hans

/-- A method that answers no call. -/
theorem Counted.update (h : Counted s) {c : Coordinator} (hc : Maintains s.coordinator c)
    (woke : Bool) : Counted (s.update c woke) where
  map := hc.map h.map
  reduce := hc.reduce h.reduce
  answer := by
    intro worker reply hans
    cases hans

/-- A call that returns or waits. -/
theorem Counted.settle (h : Counted s) {c : Coordinator} {p : Progress}
    (hc : Maintains s.coordinator c) (hremaining : c.mapRemaining = s.coordinator.mapRemaining)
    (hp : ∀ reply, p = .answered (.ok reply) → reply.type = .reduce →
      s.coordinator.mapRemaining = 0) (workerAddress : String) (locations : List String) :
    Counted (s.settle workerAddress locations (c, p)) := by
  cases p with
  | answered answer =>
    refine ⟨hc.map h.map, hc.reduce h.reduce, fun worker reply hans htype => ?_⟩
    cases hans
    exact hremaining.trans (hp reply rfl htype)
  | blocked loop =>
    exact ⟨hc.map h.map, hc.reduce h.reduce, fun worker reply hans => by cases hans⟩

/-- **The step lemma.** -/
theorem Counted.of_step (h : Counted s) {e : Event} (hok : InOrder s e)
    (hstep : s.step e = some t) :
    Counted t := by
  cases e with
  | tick d =>
    cases hstep
    exact ⟨h.map, h.reduce, fun worker reply hans => by cases hans⟩
  | getTask workerAddress picks =>
    obtain ⟨⟨c, p⟩, hget, rfl⟩ := Option.map_eq_some_iff.mp hstep
    obtain ⟨hc, hremaining, -, hzero⟩ := Coordinator.getTask_spec hget
    refine h.settle hc hremaining (fun reply hreply htype => ?_) _ _
    subst hreply
    exact hzero htype
  | resume i picks =>
    obtain ⟨call, c, p, hcall, hresume, rfl⟩ := resume_cases hstep
    obtain ⟨hc, hremaining, hfits, hzero⟩ := Coordinator.resume_spec hresume
    have h' : Counted { s with waiting := s.waiting.eraseIdx i } := ⟨h.map, h.reduce, h.answer⟩
    refine h'.settle hc hremaining (fun reply hreply htype => ?_) _ _
    cases hloop : call.loop with
    | map =>
      subst hreply
      exact hzero htype hloop
    | reduce =>
      -- this loop does not look at the counter: the condition does
      exact hok.2 (by rw [hcall]; exact congrArg some hloop) ((hfits reply hreply).2.2 htype)
  | report handout =>
    obtain ⟨-, rfl⟩ := report_cases hstep
    exact ⟨Coordinator.updateTaskStatus_map h.map (fun _ => hok.1) _,
      Coordinator.updateTaskStatus_reduce h.reduce (fun _ => hok.1) _,
      fun worker reply hans => by cases hans⟩
  | healthCheck workerAddress =>
    cases hstep
    exact h.update (s.coordinator.healthCheck_maintains s.now workerAddress) false
  | reportFailure failedWorker =>
    cases hstep
    exact h.update (s.coordinator.reportFailure_maintains failedWorker) true
  | reschedule delay =>
    obtain rfl := reschedule_cases hstep
    have hnew := h.update (s.coordinator.rescheduler_maintains fun name => s.now + delay name)
      (s.coordinator.rescheduler fun name => s.now + delay name).woke
    exact ⟨hnew.map, hnew.reduce, hnew.answer⟩
  | monitor delay =>
    cases hstep
    exact h.update (s.coordinator.healthMonitor_maintains _) _
  | done =>
    cases hstep
    exact h.update s.coordinator.done_maintains false

/-- **The counters are exact** in every run in which no report finds its task already
completed and no call that waited gets a reduce task while a map task remains. -/
theorem counters_exact {files : List String} (hfiles : files.Nodup) (nReduce : ℕ)
    (h : ReachWhile step InOrder (make files nReduce) s) : CountersExact s :=
  (h.invariant (counted_make hfiles nReduce) fun _ _ _ hinv hok hstep =>
    hinv.of_step hok hstep).countersExact

/-- Worker `A` completes the map task and is not heard of again, so `B` does it once
more, and the reduce task. -/
def silentRun : List Event :=
  [.getTask "A" ⟨some "f", none⟩, .report ⟨"A", .map, "f"⟩, .tick (5 * second),
    .monitor fun _ => 0, .getTask "B" ⟨some "f", none⟩, .report ⟨"B", .map, "f"⟩,
    .getTask "B" ⟨none, some "0"⟩, .report ⟨"B", .reduce, "0"⟩, .done]

theorem counters_exact_silentRun : ∃ s,
    run (restrict step InOrder) (make ["f"] 1) silentRun = some s ∧
      s.coordinator.mapRemaining = 0 ∧ s.coordinator.done.1 = true ∧ CountersExact s := by
  have hobs : (run (restrict step InOrder) (make ["f"] 1) silentRun).map
      (fun s => (s.coordinator.mapRemaining, s.coordinator.done.1)) = some (0, true) := by
    decide +kernel
  obtain ⟨s, hs, hval⟩ := Option.map_eq_some_iff.mp hobs
  simp only [Prod.mk.injEq] at hval
  exact ⟨s, hs, hval.1, hval.2, counters_exact (by decide) 1 (reachWhile_of_run _ _ _ hs)⟩

/-! ### A second report -/

/-- The tasks are `f` and `g`.  Worker `A` has `f` for more than ten seconds, so `B`
gets it, too, and both report it.  Then `B` is handed a reduce task. -/
def earlyRun : List Event :=
  [.getTask "A" ⟨some "f", none⟩, .tick (11 * second), .reschedule fun _ => 0,
    .getTask "B" ⟨some "f", none⟩, .report ⟨"B", .map, "f"⟩, .report ⟨"A", .map, "f"⟩,
    .getTask "B" ⟨none, some "0"⟩]

/-- What follows: the same happens with the reduce task `0`, and the job is done. -/
def lateRun : List Event :=
  earlyRun ++ [.tick (11 * second), .reschedule fun _ => 0, .getTask "A" ⟨none, some "0"⟩,
    .report ⟨"A", .reduce, "0"⟩, .report ⟨"B", .reduce, "0"⟩]

/-- The counter is zero and a reduce task is handed out although `g` has not even been
started; in the end `Done` is true although the reduce task `1` has not been. -/
theorem not_countersExact :
    (∃ s, run step (make ["f", "g"] 2) earlyRun = some s ∧ Reach step (make ["f", "g"] 2) s ∧
      ¬ Exact s.coordinator.mapTasks s.coordinator.mapRemaining ∧
      ¬ (∀ worker reply, s.answer = some (worker, .ok reply) → reply.type = .reduce →
        AllCompleted s.coordinator.mapTasks)) ∧
    ∃ s, run step (make ["f", "g"] 2) lateRun = some s ∧ Reach step (make ["f", "g"] 2) s ∧
      s.coordinator.done.1 = true ∧ ¬ AllCompleted s.coordinator.reduceTasks := by
  constructor
  · have hobs : (run step (make ["f", "g"] 2) earlyRun).map (fun s =>
        (s.coordinator.mapRemaining, answeredWith (·.type) s.answer,
          (s.coordinator.mapTasks.lookup "g").map (·.status))) =
        some (0, some .reduce, some .unstarted) := by decide +kernel
    obtain ⟨s, hs, hval⟩ := Option.map_eq_some_iff.mp hobs
    simp only [Prod.mk.injEq] at hval
    obtain ⟨hzero, htype, hstatus⟩ := hval
    have hnot := not_allCompleted hstatus (by decide)
    obtain ⟨worker, reply, hanswer, htype⟩ := exists_of_answeredWith htype
    exact ⟨s, hs, reach_of_run _ _ _ hs, fun hexact => hnot (hexact.eq_zero_iff.mp hzero),
      fun hall => hnot (hall worker reply hanswer htype)⟩
  · have hobs : (run step (make ["f", "g"] 2) lateRun).map (fun s =>
        (s.coordinator.done.1, (s.coordinator.reduceTasks.lookup "1").map (·.status))) =
        some (true, some .unstarted) := by decide +kernel
    obtain ⟨s, hs, hval⟩ := Option.map_eq_some_iff.mp hobs
    simp only [Prod.mk.injEq] at hval
    exact ⟨s, hs, reach_of_run _ _ _ hs, hval.1, not_allCompleted hval.2 (by decide)⟩

/-! ### A call that waits -/

/-- Worker `C` waits for the reduce task of `B`, which is taken back; before `C` goes
on, `A` is reported and its map task is opened again. -/
def reopenedRun : List Event :=
  [.getTask "A" ⟨some "f", none⟩, .report ⟨"A", .map, "f"⟩, .getTask "B" ⟨none, some "0"⟩,
    .getTask "C" ⟨none, none⟩, .tick (11 * second), .reschedule fun _ => 0, .reportFailure "A",
    .resume 0 ⟨none, some "0"⟩]

/-- Without any second report a reduce task is handed out while a map task remains. -/
theorem not_countersExact_of_noSecondReport : ∃ s,
    ReachWhile step NoSecondReport (make ["f"] 1) s ∧ ¬ CountersExact s := by
  have hobs : (run (restrict step NoSecondReport) (make ["f"] 1) reopenedRun).map (fun s =>
      (answeredWith (·.type) s.answer, (s.coordinator.mapTasks.lookup "f").map (·.status))) =
      some (some .reduce, some .unstarted) := by decide +kernel
  obtain ⟨s, hs, hval⟩ := Option.map_eq_some_iff.mp hobs
  simp only [Prod.mk.injEq] at hval
  obtain ⟨worker, reply, hanswer, htype⟩ := exists_of_answeredWith hval.1
  refine ⟨s, reachWhile_of_run _ _ _ hs, fun hexact => ?_⟩
  exact not_allCompleted hval.2 (by decide) (hexact.2.2.1 worker reply hanswer htype)

end System

end ExchangeLabs.MapReduce.Distributed
