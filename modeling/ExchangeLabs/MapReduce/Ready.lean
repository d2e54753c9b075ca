import ExchangeLabs.MapReduce.Counters

/-!
# What the calls that wait need from the coordinator

A call of `GetTask` that waits goes on after a `Broadcast` only, so a map task must not be
opened without one; and it is `Rescheduler` that takes back the tasks of a worker that has
crashed, so it must not end too early.  Both hold as long as no report finds its task
completed.  What does go up is `mapRemaining`, when a completed map task is taken back.

## Main definitions

* `Coordinator.Serves`, `Coordinator.Tends` — what a call of `GetTask`, what another method
  does to the tasks that have not been started.
* `System.Ready s` — the counters are exact, `Rescheduler` runs, and the calls are woken.
* `System.Reopens s e` — the step takes back a completed map task.

## Main results

* `System.Ready.of_step` — **the invariant is kept** by every step that is no second report.
* `System.mapRemaining_of_step` — `mapRemaining` only goes up in a step that `Reopens`.
-/

namespace ExchangeLabs.MapReduce.Distributed

/-! ### What the methods open -/

/-- The task of this name has not been started. -/
def Unstarted (tasks : Tasks String) (name : String) : Prop :=
  (tasks.lookup name).map (·.status) = some .unstarted

/-- Every task keeps its name. -/
def Remap (tasks tasks' : Tasks String) : Prop := ∃ f, tasks' = tasks.mapVal f

section Tables

variable {tasks tasks' : Tasks String} {name : String}

theorem Remap.refl (tasks : Tasks String) : Remap tasks tasks := ⟨_, (Table.mapVal_id tasks).symm⟩

theorem Remap.trans {tasks'' : Tasks String} (h : Remap tasks tasks') (h' : Remap tasks' tasks'') :
    Remap tasks tasks'' := by
  obtain ⟨f, rfl⟩ := h
  obtain ⟨g, rfl⟩ := h'
  exact ⟨_, Table.mapVal_mapVal f g tasks⟩

theorem Remap.lookup_eq_none (h : Remap tasks tasks') (hnone : tasks.lookup name = none) :
    tasks'.lookup name = none := by
  obtain ⟨f, rfl⟩ := h
  rw [Table.lookup_mapVal, hnone]
  rfl

theorem unstarted_iff :
    Unstarted tasks name ↔ ∃ task, tasks.lookup name = some task ∧ task.status = .unstarted :=
  Option.map_eq_some_iff

/-- An update that starts no task again. -/
theorem unstarted_of_mapVal {f : String → TaskMetadata String → TaskMetadata String}
    (hf : ∀ name task, (f name task).status = .unstarted → task.status = .unstarted)
    (h : Unstarted (tasks.mapVal f) name) : Unstarted tasks name := by
  obtain ⟨task', hlookup, hstatus⟩ := unstarted_iff.mp h
  rw [Table.lookup_mapVal] at hlookup
  obtain ⟨task, htask, rfl⟩ := Option.map_eq_some_iff.mp hlookup
  exact unstarted_iff.mpr ⟨task, htask, hf name task hstatus⟩

theorem unstarted_of_modify {key : String} {f : TaskMetadata String → TaskMetadata String}
    (hf : ∀ task, (f task).status = .unstarted → task.status = .unstarted)
    (h : Unstarted (tasks.modify key f) name) : Unstarted tasks name := by
  refine unstarted_of_mapVal (fun name task hstatus => ?_) h
  split at hstatus
  · exact hf task hstatus
  · exact hstatus

/-- Taking a task starts none again; when it finds none, there is none. -/
theorem takeTask_opens {now : ℕ} {pick : Option String} {found : String} {number : ℤ}
    (h : takeTask now pick tasks = some (found, number, tasks')) (hnone : tasks.lookup "" = none) :
    Remap tasks tasks' ∧ (∀ name, Unstarted tasks' name → Unstarted tasks name) ∧
      (found = "" → ∀ name, ¬ Unstarted tasks' name) := by
  rcases takeTask_cases h with ⟨-, -, rfl, hall⟩ | ⟨task, htask, hstatus, -, rfl⟩
  · refine ⟨.refl _, fun _ h => h, fun _ name hopen => ?_⟩
    obtain ⟨task, htask, hstatus⟩ := unstarted_iff.mp hopen
    exact hall name task htask hstatus
  · refine ⟨⟨_, rfl⟩, fun name => unstarted_of_modify fun task hstatus => (by cases hstatus), ?_⟩
    rintro rfl
    rw [hnone] at htask
    cases htask

end Tables

namespace Coordinator

variable {c c' : Coordinator} {now : ℕ} {picks : Picks} {locations : List String} {p : Progress}

/-- What a call of `GetTask` does apart from handing out a task: it opens none, and where it waits
in the map loop there is none to start. -/
structure Serves (c c' : Coordinator) (p : Progress) : Prop where
  reduceTasks : Remap c.reduceTasks c'.reduceTasks
  reduceRemaining : c'.reduceRemaining = c.reduceRemaining
  opens : ∀ name, Unstarted c'.mapTasks name → Unstarted c.mapTasks name
  blocked : p = .blocked .map → ∀ name, ¬ Unstarted c'.mapTasks name

theorem reduceLoop_serves (hnone : c.reduceTasks.lookup "" = none)
    (h : c.reduceLoop now picks locations = some (c', p)) : Serves c c' p := by
  obtain ⟨⟨name, number, reduceTasks⟩, htake, heq⟩ := Option.map_eq_some_iff.mp h
  obtain ⟨hremap, -, -⟩ := takeTask_opens htake hnone
  dsimp only at heq
  split_ifs at heq <;> cases heq <;> exact ⟨hremap, rfl, fun _ h => h, by simp⟩

theorem reduceSection_serves (hnone : c.reduceTasks.lookup "" = none)
    (h : c.reduceSection now picks locations = some (c', p)) : Serves c c' p := by
  unfold reduceSection at h
  split at h
  · exact reduceLoop_serves hnone h
  · cases h
    exact ⟨.refl _, rfl, fun _ h => h, by simp⟩

theorem mapLoop_serves {workerAddress : String} (hmap : c.mapTasks.lookup "" = none)
    (hreduce : c.reduceTasks.lookup "" = none)
    (h : c.mapLoop now picks workerAddress locations = some (c', p)) : Serves c c' p := by
  obtain ⟨⟨name, number, mapTasks⟩, htake, heq⟩ := Option.bind_eq_some_iff.mp h
  obtain ⟨-, hopens, hfound⟩ := takeTask_opens htake hmap
  dsimp only at heq
  split_ifs at heq with hname hzero
  · obtain ⟨hremap, hremaining, hopens', hblocked⟩ :=
      reduceSection_serves (c := { c with mapTasks := mapTasks }) hreduce heq
    exact ⟨hremap, hremaining, fun name h => hopens name (hopens' name h), hblocked⟩
  · cases heq
    exact ⟨.refl _, rfl, hopens, fun _ => hfound hname⟩
  · cases heq
    exact ⟨.refl _, rfl, fun other hopen => hopens other (unstarted_of_modify (fun _ hs => hs)
      (f := fun task => { task with assignedWorker := workerAddress }) hopen), by simp⟩

theorem getTask_serves {workerAddress : String} (hmap : c.mapTasks.lookup "" = none)
    (hreduce : c.reduceTasks.lookup "" = none)
    (h : c.getTask now picks workerAddress = some (c', p)) : Serves c c' p := by
  unfold getTask at h
  split at h
  · exact mapLoop_serves hmap hreduce h
  · exact reduceSection_serves hreduce h

theorem resume_serves {workerAddress : String} {loop : Loop} (hmap : c.mapTasks.lookup "" = none)
    (hreduce : c.reduceTasks.lookup "" = none)
    (h : c.resume now picks workerAddress locations loop = some (c', p)) : Serves c c' p := by
  cases loop with
  | map => exact mapLoop_serves hmap hreduce h
  | reduce => exact reduceLoop_serves hreduce h

/-- What another method does: the reduce tasks keep their names and their counter, and a map task
is only opened with a `Broadcast`. -/
structure Tends (c c' : Coordinator) (woke : Bool) : Prop where
  reduceTasks : Remap c.reduceTasks c'.reduceTasks
  reduceRemaining : c'.reduceRemaining = c.reduceRemaining
  opens : woke = false → ∀ name, Unstarted c'.mapTasks name → Unstarted c.mapTasks name

theorem Tends.refl (c : Coordinator) (woke : Bool) : Tends c c woke :=
  ⟨.refl _, rfl, fun _ _ h => h⟩

theorem healthCheck_tends (c : Coordinator) (now : ℕ) (address : String) :
    Tends c (c.healthCheck now address) false := ⟨.refl _, rfl, fun _ _ h => h⟩

theorem done_tends (c : Coordinator) : Tends c c.done.2 false := by
  unfold done
  split <;> exact ⟨.refl _, rfl, fun _ _ h => h⟩

theorem reportFailure_tends (c : Coordinator) (failedWorker : String) :
    Tends c (c.reportFailure failedWorker) true :=
  ⟨⟨_, rfl⟩, rfl, fun h => by cases h⟩

theorem healthMonitor_tends (c : Coordinator) (clock : String → ℕ) :
    Tends c (c.healthMonitor clock).coordinator (c.healthMonitor clock).woke := by
  have hfold : ∀ (addresses : List String) (c : Coordinator),
      Remap c.reduceTasks (addresses.foldl takeOff c).reduceTasks ∧
        (addresses.foldl takeOff c).reduceRemaining = c.reduceRemaining := by
    intro addresses
    induction addresses with
    | nil => exact fun c => ⟨.refl _, rfl⟩
    | cons address addresses ih =>
      intro c
      obtain ⟨hremap, hremaining⟩ := ih (c.takeOff address)
      exact ⟨Remap.trans ⟨_, rfl⟩ hremap, hremaining⟩
  unfold healthMonitor
  refine ⟨(hfold _ c).1, (hfold _ c).2, fun hwoke => ?_⟩
  have hnone : c.silent clock = [] := by simpa using hwoke
  rw [hnone]
  exact fun _ h => h

/-- Without a task that has timed out, nothing changes. -/
theorem unstarted_of_expire {tasks : Tasks String} {clock : String → ℕ} {name : String}
    (hnone : anyTimedOut clock tasks = false) (h : Unstarted (expire "" clock tasks) name) :
    Unstarted tasks name := by
  obtain ⟨task', hlookup, hstatus⟩ := unstarted_iff.mp h
  unfold expire at hlookup
  rw [Table.lookup_mapVal] at hlookup
  obtain ⟨task, htask, rfl⟩ := Option.map_eq_some_iff.mp hlookup
  have hlate := List.any_eq_false.mp hnone ⟨name, task⟩ (Table.mem_entries.mpr htask)
  rw [if_neg hlate] at hstatus
  exact unstarted_iff.mpr ⟨task, htask, hstatus⟩

theorem rescheduler_tends (c : Coordinator) (clock : String → ℕ) :
    Tends c (c.rescheduler clock).coordinator (c.rescheduler clock).woke := by
  unfold rescheduler
  split
  · exact ⟨.refl _, rfl, fun hwoke name h => unstarted_of_expire hwoke h⟩
  split
  · exact ⟨⟨_, rfl⟩, rfl, fun h => by cases h⟩
  · exact .refl c true

/-- The last pass is the one that finds no task left. -/
theorem reduceRemaining_of_rescheduler {clock : String → ℕ}
    (h : (c.rescheduler clock).again = false) : c.reduceRemaining = 0 := by
  unfold rescheduler at h
  split at h
  · cases h
  split at h
  · cases h
  · next hzero => exact not_not.mp hzero

/-- A report opens no task, and takes the counters down if anything. -/
theorem updateTaskStatus_opens (c : Coordinator) (now : ℕ) (args : UpdateTaskStatusArgs) :
    (Remap c.mapTasks (c.updateTaskStatus now args).mapTasks ∧
      Remap c.reduceTasks (c.updateTaskStatus now args).reduceTasks) ∧
    (∀ name, Unstarted (c.updateTaskStatus now args).mapTasks name → Unstarted c.mapTasks name) ∧
    (c.updateTaskStatus now args).mapRemaining ≤ c.mapRemaining ∧
    (c.updateTaskStatus now args).reduceRemaining ≤ c.reduceRemaining := by
  unfold updateTaskStatus
  dsimp only
  split
  · split
    · exact ⟨⟨.refl _, .refl _⟩, fun _ h => h, Int.le_refl _, Int.le_refl _⟩
    · exact ⟨⟨⟨_, rfl⟩, .refl _⟩, fun name => unstarted_of_modify fun task hs => (by cases hs),
        Int.sub_le_self _ (by decide), Int.le_refl _⟩
  · split
    · exact ⟨⟨.refl _, .refl _⟩, fun _ h => h, Int.le_refl _, Int.le_refl _⟩
    · exact ⟨⟨.refl _, ⟨_, rfl⟩⟩, fun _ h => h, Int.le_refl _, Int.sub_le_self _ (by decide)⟩

/-- A map task is completed, and this worker has its output. -/
def HasOutput (c : Coordinator) (worker : String) : Prop :=
  c.mapTasks.count (fun task =>
    decide (task.assignedWorker = worker) && decide (task.status = .completed)) ≠ 0

instance (c : Coordinator) (worker : String) : Decidable (c.HasOutput worker) :=
  inferInstanceAs (Decidable (_ ≠ _))

theorem not_hasOutput {worker : String} :
    ¬ c.HasOutput worker ↔ ∀ name task, c.mapTasks.lookup name = some task →
      task.assignedWorker = worker → task.status ≠ .completed := by
  rw [HasOutput, not_not, Table.count_eq_zero]
  simp

theorem mapRemaining_hardReset {worker : String} (hno : ¬ c.HasOutput worker) :
    (c.hardReset worker).mapRemaining = c.mapRemaining := by
  change c.mapRemaining + (_ : ℕ) = c.mapRemaining
  rw [not_not.mp hno]
  exact Int.add_zero _

theorem mapRemaining_rescheduler (c : Coordinator) (clock : String → ℕ) :
    (c.rescheduler clock).coordinator.mapRemaining = c.mapRemaining := by
  unfold rescheduler
  split_ifs <;> rfl

theorem mapRemaining_done (c : Coordinator) : c.done.2.mapRemaining = c.mapRemaining := by
  unfold done
  split <;> rfl

/-- What no worker has output of, none has after a map task was taken back. -/
theorem Evolves.not_hasOutput {worker : String} (h : Evolves c.mapTasks c'.mapTasks)
    (hno : ¬ c.HasOutput worker) : ¬ c'.HasOutput worker := by
  obtain ⟨f, hf, -, hsame⟩ := h
  refine Coordinator.not_hasOutput.mpr fun name task' hlookup hassigned hstatus => ?_
  rw [hf, Table.lookup_mapVal] at hlookup
  obtain ⟨task, htask, rfl⟩ := Option.map_eq_some_iff.mp hlookup
  rcases hsame name task htask with heq | hne
  · rw [heq] at hassigned hstatus
    exact Coordinator.not_hasOutput.mp hno name task htask hassigned hstatus
  · exact hne hstatus

theorem mapRemaining_healthMonitor (c : Coordinator) (clock : String → ℕ)
    (hno : ∀ address ∈ c.silent clock, ¬ c.HasOutput address) :
    (c.healthMonitor clock).coordinator.mapRemaining = c.mapRemaining := by
  unfold healthMonitor
  dsimp only
  generalize c.silent clock = addresses at hno
  induction addresses generalizing c with
  | nil => rfl
  | cons address addresses ih =>
    rw [List.foldl_cons, ih _ fun other hmem => ?_]
    · exact mapRemaining_hardReset (hno address List.mem_cons_self)
    · exact Evolves.not_hasOutput (c.takeOff_maintains address).evolves
        (hno other (List.mem_cons_of_mem _ hmem))

end Coordinator

/-! ### The coordinator's part -/

namespace System

variable {s t : System}

/-- The counters are exact, no task is without a name, `Rescheduler` runs while a reduce task
remains, and a call that waits for a map task has been woken if there is one to start. -/
structure Ready (s : System) : Prop where
  map : Exact s.coordinator.mapTasks s.coordinator.mapRemaining
  reduce : Exact s.coordinator.reduceTasks s.coordinator.reduceRemaining
  mapNamed : s.coordinator.mapTasks.lookup "" = none
  reduceNamed : s.coordinator.reduceTasks.lookup "" = none
  rescheduling : s.rescheduling = false → s.coordinator.reduceRemaining = 0
  woken : ∀ name, Unstarted s.coordinator.mapTasks name →
    ∀ call ∈ s.waiting, call.loop = .map → call.woken = true

theorem ready_make {files : List String} (hfiles : files.Nodup) (hnames : "" ∉ files)
    (nReduce : ℕ) : Ready (make files nReduce) where
  map := exact_makeMapTasks hfiles ""
  reduce := exact_makeReduceTasks "" nReduce
  mapNamed := by
    cases hlookup : (makeMapTasks "" files).lookup "" with
    | none => exact hlookup
    | some task =>
      obtain ⟨i, hi, -⟩ := (lookup_makeMapTasks hfiles).mp hlookup
      exact absurd (List.mem_of_getElem? hi) hnames
  reduceNamed := lookup_makeReduceTasks_empty "" nReduce
  rescheduling := fun h => by cases h
  woken := fun _ _ call hcall => by cases hcall

/-- A method that answers no call. -/
theorem Ready.update (h : Ready s) {c : Coordinator} {woke : Bool}
    (hm : Maintains s.coordinator c) (ht : Coordinator.Tends s.coordinator c woke) :
    Ready (s.update c woke) where
  map := hm.map h.map
  reduce := hm.reduce h.reduce
  mapNamed := by
    obtain ⟨f, hf, -⟩ := hm.evolves
    exact Remap.lookup_eq_none ⟨f, hf⟩ h.mapNamed
  reduceNamed := ht.reduceTasks.lookup_eq_none h.reduceNamed
  rescheduling := fun hr => ht.reduceRemaining.trans (h.rescheduling hr)
  woken := by
    intro name hopen call hcall hloop
    cases woke with
    | true =>
      obtain ⟨old, -, rfl⟩ := List.mem_map.mp hcall
      rfl
    | false => exact h.woken name (ht.opens rfl name hopen) call hcall hloop

@[simp] theorem coordinator_settle (s : System) (workerAddress : String) (locations : List String)
    (r : Coordinator × Progress) : (s.settle workerAddress locations r).coordinator = r.1 := by
  obtain ⟨c, reply | loop⟩ := r <;> rfl

/-- Fewer calls wait. -/
theorem Ready.erase (h : Ready s) {waiting : List Call} (hsub : waiting.Sublist s.waiting) :
    Ready { s with waiting := waiting } :=
  ⟨h.map, h.reduce, h.mapNamed, h.reduceNamed, h.rescheduling,
    fun name hopen call hcall => h.woken name hopen call (hsub.mem hcall)⟩

/-- A call that returns or waits. -/
theorem Ready.settle (h : Ready s) {c : Coordinator} {p : Progress}
    (hm : Maintains s.coordinator c) (hs : Coordinator.Serves s.coordinator c p)
    (workerAddress : String) (locations : List String) :
    Ready (s.settle workerAddress locations (c, p)) := by
  have hnamed : c.mapTasks.lookup "" = none := by
    obtain ⟨f, hf, -⟩ := hm.evolves
    exact Remap.lookup_eq_none ⟨f, hf⟩ h.mapNamed
  have hreduce := hs.reduceTasks.lookup_eq_none h.reduceNamed
  have hending := fun hr => hs.reduceRemaining.trans (h.rescheduling hr)
  cases p with
  | answered answer =>
    exact ⟨hm.map h.map, hm.reduce h.reduce, hnamed, hreduce, hending,
      fun name hopen => h.woken name (hs.opens name hopen)⟩
  | blocked loop =>
    refine ⟨hm.map h.map, hm.reduce h.reduce, hnamed, hreduce, hending,
      fun name hopen call hcall hloop => ?_⟩
    rcases List.mem_append.mp hcall with hold | hnew
    · exact h.woken name (hs.opens name hopen) call hold hloop
    · rw [List.mem_singleton.mp hnew] at hloop
      exact absurd hopen (hs.blocked (congrArg _ hloop) name)

/-- **The coordinator's part of the invariant** is kept by every step that is not a second
report. -/
theorem Ready.of_step (h : Ready s) {e : Event} (hstep : s.step e = some t)
    (hok : NoSecondReport s e) : Ready t := by
  cases e with
  | tick d =>
    cases hstep
    exact ⟨h.map, h.reduce, h.mapNamed, h.reduceNamed, h.rescheduling, h.woken⟩
  | getTask workerAddress picks =>
    obtain ⟨⟨c, p⟩, hget, rfl⟩ := Option.map_eq_some_iff.mp hstep
    exact h.settle (Coordinator.getTask_spec hget).1
      (Coordinator.getTask_serves h.mapNamed h.reduceNamed hget) _ _
  | resume i picks =>
    obtain ⟨call, c, p, -, hresume, rfl⟩ := resume_cases hstep
    exact (h.erase (List.eraseIdx_sublist ..)).settle (Coordinator.resume_spec hresume).1
      (Coordinator.resume_serves h.mapNamed h.reduceNamed hresume) _ _
  | report handout =>
    obtain ⟨-, rfl⟩ := report_cases hstep
    obtain ⟨⟨hmap, hreduce⟩, hopens, -, hle⟩ :=
      s.coordinator.updateTaskStatus_opens s.now handout.args
    have hexact := Coordinator.updateTaskStatus_reduce h.reduce (fun _ => hok) s.now
    refine ⟨Coordinator.updateTaskStatus_map h.map (fun _ => hok) _, hexact,
      hmap.lookup_eq_none h.mapNamed, hreduce.lookup_eq_none h.reduceNamed, fun hr => ?_,
      fun name hopen => h.woken name (hopens name hopen)⟩
    -- an exact counter does not go below zero
    rw [h.rescheduling hr] at hle
    exact Int.le_antisymm hle (Exact.nonneg hexact)
  | healthCheck workerAddress =>
    cases hstep
    exact h.update (s.coordinator.healthCheck_maintains s.now workerAddress)
      (s.coordinator.healthCheck_tends s.now workerAddress)
  | reportFailure failedWorker =>
    cases hstep
    exact h.update (s.coordinator.reportFailure_maintains failedWorker)
      (s.coordinator.reportFailure_tends failedWorker)
  | reschedule delay =>
    obtain rfl := reschedule_cases hstep
    -- a pass of `Rescheduler` opens tasks and wakes the calls
    have hnew := h.update (s.coordinator.rescheduler_maintains fun name => s.now + delay name)
      (s.coordinator.rescheduler_tends fun name => s.now + delay name)
    refine ⟨hnew.map, hnew.reduce, hnew.mapNamed, hnew.reduceNamed, fun hagain => ?_, hnew.woken⟩
    exact (s.coordinator.rescheduler_tends fun name => s.now + delay name).reduceRemaining.trans
      (Coordinator.reduceRemaining_of_rescheduler hagain)
  | monitor delay =>
    cases hstep
    exact h.update (s.coordinator.healthMonitor_maintains _) (s.coordinator.healthMonitor_tends _)
  | done =>
    cases hstep
    exact h.update s.coordinator.done_maintains s.coordinator.done_tends

/-- What a step other than of `GetTask` does to the calls that wait. -/
theorem waiting_of_step {e : Event} (hget : ∀ worker picks, e ≠ .getTask worker picks)
    (hresume : ∀ i picks, e ≠ .resume i picks) (hstep : s.step e = some t) :
    t.waiting = s.waiting ∨ t.waiting = broadcast s.waiting := by
  cases e with
  | tick | healthCheck | done =>
    cases hstep
    exact .inl rfl
  | getTask worker picks => exact absurd rfl (hget worker picks)
  | resume i picks => exact absurd rfl (hresume i picks)
  | reportFailure failedWorker =>
    cases hstep
    exact .inr rfl
  | report handout =>
    obtain ⟨-, rfl⟩ := report_cases hstep
    exact .inl rfl
  | reschedule delay =>
    obtain rfl := reschedule_cases hstep
    dsimp only [update]
    split
    · exact .inr rfl
    · exact .inl rfl
  | monitor delay =>
    cases hstep
    dsimp only [update]
    split
    · exact .inr rfl
    · exact .inl rfl

/-- The step takes back a completed map task. -/
def Reopens (s : System) : Event → Prop
  | .reportFailure failedWorker => s.coordinator.HasOutput failedWorker
  | .monitor delay => ∃ address ∈ s.coordinator.silent fun address => s.now + delay address,
      s.coordinator.HasOutput address
  | _ => False

instance (s : System) : (e : Event) → Decidable (Reopens s e)
  | .reportFailure failedWorker =>
    inferInstanceAs (Decidable (s.coordinator.HasOutput failedWorker))
  | .monitor _ => inferInstanceAs (Decidable (∃ address ∈ s.coordinator.silent _, _))
  | .tick _ | .getTask .. | .resume .. | .report _ | .healthCheck _ | .reschedule _ | .done =>
    inferInstanceAs (Decidable False)

/-- No other step takes `mapRemaining` up. -/
theorem mapRemaining_of_step {e : Event} (hno : ¬ s.Reopens e) (hstep : s.step e = some t) :
    t.coordinator.mapRemaining ≤ s.coordinator.mapRemaining := by
  cases e with
  | tick | healthCheck =>
    cases hstep
    exact Int.le_refl _
  | getTask worker picks =>
    obtain ⟨⟨c, p⟩, hget, rfl⟩ := Option.map_eq_some_iff.mp hstep
    rw [coordinator_settle]
    exact Int.le_of_eq (Coordinator.getTask_spec hget).2.1
  | resume i picks =>
    obtain ⟨call, c, p, -, hresume, rfl⟩ := resume_cases hstep
    rw [coordinator_settle]
    exact Int.le_of_eq (Coordinator.resume_spec hresume).2.1
  | report handout =>
    obtain ⟨-, rfl⟩ := report_cases hstep
    exact (s.coordinator.updateTaskStatus_opens s.now handout.args).2.2.1
  | reportFailure failedWorker =>
    cases hstep
    exact Int.le_of_eq (Coordinator.mapRemaining_hardReset (c := { s.coordinator with .. }) hno)
  | reschedule delay =>
    obtain rfl := reschedule_cases hstep
    exact Int.le_of_eq (s.coordinator.mapRemaining_rescheduler _)
  | monitor delay =>
    cases hstep
    exact Int.le_of_eq (s.coordinator.mapRemaining_healthMonitor _ fun address hmem hout =>
      hno ⟨address, hmem, hout⟩)
  | done =>
    cases hstep
    exact Int.le_of_eq s.coordinator.mapRemaining_done

end System

end ExchangeLabs.MapReduce.Distributed
