import ExchangeLabs.MapReduce.AddressBook

/-!
# The tasks of a worker that fails

When a worker is reported, or has not been heard of for more than four seconds, its
tasks are to be done by others: the map tasks that it has in progress or has completed,
since their output is on its disk, and the reduce tasks that it has in progress.  The
coordinator finds them by their `assignedWorker`.

Three things go wrong.  `GetTask` does not record to whom it hands a reduce task, so no
reduce task is ever taken back here.  A report completes a map task whoever it is
assigned to, so the worker that has the output need not be the recorded one.  And the
report of a reduce task comes without an address, so the table of workers gets an
entry for the empty address, and four seconds later a worker is down that does not exist.

## Main definitions

* `Tracked` — the system, with who really has or has completed which task, and the
  addresses from which workers have called.
* `Resets s worker c` — `c` comes from taking back exactly the tasks of the worker.
* `Faithful s worker` — what is recorded about the worker is what happened.

## Main results

* `Recorded.of_step` — the worker of a map task in progress is recorded.
* `Tracked.resets_iff_faithful` — **exactly the tasks of the worker are taken back if
  and only if the records are faithful.**
* `Tracked.resets_of_heldReport` — they are if map tasks are only reported by the
  workers that they are assigned to and the worker has no reduce task.
* `Tracked.not_resets` — a reduce task that is not taken back, and a worker that is not.
-/

namespace ExchangeLabs.MapReduce.Distributed

/-! ### Who has which task -/

/-- The system with a record of what happened, which the code does not keep. -/
structure Tracked where
  system : System
  /-- Whom a task was last handed to, or who has completed it; `""` is nobody. -/
  holder : TaskType → String → String
  /-- The addresses from which workers have called. -/
  workers : List String

/-- The worker has the task from now on. -/
def assign (holder : TaskType → String → String) (worker : String) (type : TaskType)
    (name : String) : TaskType → String → String := fun type' name' =>
  if type' = type ∧ name' = name then worker else holder type' name'

namespace Tracked

def make (files : List String) (nReduce : ℕ) : Tracked where
  system := System.make files nReduce
  holder := fun _ _ => ""
  workers := []

/-- Who has which task after a call of `GetTask` was answered. -/
def handOut (s : Tracked) : Option (String × Except String GetTaskReply) →
    TaskType → String → String
  | some (worker, .ok reply) => assign s.holder worker reply.type reply.name
  | _ => s.holder

/-- Who has which task after a report: it is completed by the first worker to report it. -/
def completeBy (s : Tracked) (handout : Handout) : TaskType → String → String :=
  if s.system.coordinator.FirstReport handout.args then
    assign s.holder handout.worker handout.args.type handout.args.name
  else s.holder

/-- The record after a step to `t`. -/
def follow (s : Tracked) (t : System) : Event → Tracked
  | .getTask workerAddress _ => ⟨t, s.handOut t.answer, workerAddress :: s.workers⟩
  | .resume .. => ⟨t, s.handOut t.answer, s.workers⟩
  | .report handout => ⟨t, s.completeBy handout, s.workers⟩
  | .healthCheck workerAddress => ⟨t, s.holder, workerAddress :: s.workers⟩
  | .tick _ | .reportFailure _ | .reschedule _ | .monitor _ | .done => ⟨t, s.holder, s.workers⟩

def step (s : Tracked) (e : Event) : Option Tracked := (s.system.step e).map fun t => s.follow t e

/-- `Worker` ends when it has no address, so it does not call without one. -/
def HasAddress (_ : Tracked) : Event → Prop
  | .getTask workerAddress _ | .healthCheck workerAddress => workerAddress ≠ ""
  | _ => True

instance (s : Tracked) : (e : Event) → Decidable (HasAddress s e)
  | .getTask .. | .healthCheck _ => inferInstanceAs (Decidable (_ ≠ _))
  | .tick _ | .resume .. | .report _ | .reportFailure _ | .reschedule _ | .monitor _ | .done =>
    inferInstanceAs (Decidable True)

/-- **Exactly the tasks of the worker are taken back**: its map tasks that are in progress
or completed, and its reduce tasks that are in progress.  The status of every other
task is as before. -/
structure Resets (s : Tracked) (worker : String) (c : Coordinator) : Prop where
  map : ∀ name, (c.mapTasks.lookup name).map (·.status) =
    (s.system.coordinator.mapTasks.lookup name).map fun task =>
      if task.status ≠ .unstarted ∧ s.holder .map name = worker then .unstarted else task.status
  reduce : ∀ name, (c.reduceTasks.lookup name).map (·.status) =
    (s.system.coordinator.reduceTasks.lookup name).map fun task =>
      if task.status = .inprogress ∧ s.holder .reduce name = worker then .unstarted
      else task.status

/-- A completed map task is assigned to the worker exactly if the worker has completed
it, and the worker has no reduce task in progress. -/
structure Faithful (s : Tracked) (worker : String) : Prop where
  map : ∀ name task, s.system.coordinator.mapTasks.lookup name = some task →
    task.status = .completed → (task.assignedWorker = worker ↔ s.holder .map name = worker)
  reduce : ∀ name task, s.system.coordinator.reduceTasks.lookup name = some task →
    task.status = .inprogress → s.holder .reduce name ≠ worker

theorem faithful_iff {s : Tracked} {worker : String} :
    (∀ e ∈ s.system.coordinator.mapTasks.entries, e.2.status = .completed →
      (e.2.assignedWorker = worker ↔ s.holder .map e.1 = worker)) ∧
    (∀ e ∈ s.system.coordinator.reduceTasks.entries, e.2.status = .inprogress →
      s.holder .reduce e.1 ≠ worker) ↔ Faithful s worker := by
  constructor
  · rintro ⟨hmap, hreduce⟩
    exact ⟨fun name task htask => hmap ⟨name, task⟩ (Table.mem_entries.mpr htask),
      fun name task htask => hreduce ⟨name, task⟩ (Table.mem_entries.mpr htask)⟩
  · rintro ⟨hmap, hreduce⟩
    exact ⟨fun e he => hmap e.1 e.2 (Table.mem_entries.mp he),
      fun e he => hreduce e.1 e.2 (Table.mem_entries.mp he)⟩

instance (s : Tracked) (worker : String) : Decidable (Faithful s worker) :=
  decidable_of_iff _ faithful_iff

end Tracked

/-! ### What the methods do to the records -/

/-- Every task is as it was, or is unstarted and nobody's. -/
def Reopens (tasks tasks' : Tasks String) : Prop :=
  ∀ name task', tasks'.lookup name = some task' → tasks.lookup name = some task' ∨
    task'.status = .unstarted ∧ task'.assignedWorker = ""

theorem Reopens.refl (tasks : Tasks String) : Reopens tasks tasks := fun _ _ => .inl

theorem Reopens.trans {tasks tasks' tasks'' : Tasks String} (h : Reopens tasks tasks')
    (h' : Reopens tasks' tasks'') : Reopens tasks tasks'' := by
  intro name task'' htask''
  rcases h' name task'' htask'' with hold | hopen
  · exact h name task'' hold
  · exact .inr hopen

theorem reopens_mapVal (tasks : Tasks String) {p : String → TaskMetadata String → Prop}
    [∀ name task, Decidable (p name task)] {reopen : TaskMetadata String → TaskMetadata String}
    (hreopen : ∀ task, (reopen task).status = .unstarted ∧ (reopen task).assignedWorker = "") :
    Reopens tasks (tasks.mapVal fun name task => if p name task then reopen task else task) := by
  intro name task' htask'
  rw [Table.lookup_mapVal] at htask'
  obtain ⟨task, htask, rfl⟩ := Option.map_eq_some_iff.mp htask'
  split
  · exact .inr (hreopen task)
  · exact .inl htask

/-- The method reopens tasks and does not get to know a worker. -/
structure Frees (c c' : Coordinator) : Prop where
  map : Reopens c.mapTasks c'.mapTasks
  reduce : Reopens c.reduceTasks c'.reduceTasks
  workers : ∀ address ∈ c'.workerMap, address ∈ c.workerMap

theorem Frees.refl (c : Coordinator) : Frees c c := ⟨.refl _, .refl _, fun _ => id⟩

theorem Frees.trans {c c' c'' : Coordinator} (h : Frees c c') (h' : Frees c' c'') : Frees c c'' :=
  ⟨h.map.trans h'.map, h.reduce.trans h'.reduce,
    fun address hmem => h.workers address (h'.workers address hmem)⟩

namespace Coordinator

theorem hardReset_frees (c : Coordinator) (failedWorker : String) :
    Frees c (c.hardReset failedWorker) :=
  ⟨reopens_mapVal c.mapTasks fun _ => ⟨rfl, rfl⟩, .refl _, fun _ => id⟩

theorem softReset_frees (c : Coordinator) (failedWorker : String) :
    Frees c (c.softReset failedWorker) :=
  ⟨.refl _, reopens_mapVal c.reduceTasks fun _ => ⟨rfl, rfl⟩, fun _ => id⟩

theorem reportFailure_frees (c : Coordinator) (failedWorker : String) :
    Frees c (c.reportFailure failedWorker) := by
  have hdown : Frees c { c with
      workerMap := c.workerMap.modify failedWorker fun worker =>
        { worker with workerDown := true } } :=
    ⟨.refl _, .refl _, fun address hmem => Table.mem_modify.mp hmem⟩
  exact (hdown.trans (hardReset_frees _ failedWorker)).trans (softReset_frees _ failedWorker)

theorem takeOff_frees (c : Coordinator) (address : String) : Frees c (c.takeOff address) := by
  have hreset := (c.hardReset_frees address).trans (softReset_frees _ address)
  exact ⟨hreset.map, hreset.reduce, fun other hmem => (AList.mem_erase.mp hmem).2⟩

theorem healthMonitor_frees (c : Coordinator) (clock : String → ℕ) :
    Frees c (c.healthMonitor clock).coordinator := by
  unfold healthMonitor
  dsimp only
  generalize c.silent clock = addresses
  induction addresses generalizing c with
  | nil => exact .refl c
  | cons address addresses ih => exact (c.takeOff_frees address).trans (ih _)

theorem rescheduler_frees (c : Coordinator) (clock : String → ℕ) :
    Frees c (c.rescheduler clock).coordinator := by
  unfold rescheduler
  split
  · exact ⟨reopens_mapVal c.mapTasks fun _ => ⟨rfl, rfl⟩, .refl _, fun _ => id⟩
  split
  · exact ⟨.refl _, reopens_mapVal c.reduceTasks fun _ => ⟨rfl, rfl⟩, fun _ => id⟩
  · exact .refl c

theorem done_frees (c : Coordinator) : Frees c c.done.2 := by
  unfold done
  split
  · exact ⟨.refl _, .refl _, fun _ => id⟩
  · exact .refl c

theorem mem_heardOf {c : Coordinator} {now : ℕ} {address other : String}
    (h : other ∈ (c.heardOf now address).workerMap) : other = address ∨ other ∈ c.workerMap := by
  unfold heardOf at h
  dsimp only at h
  split at h
  · exact .inr (Table.mem_modify.mp h)
  · exact (AList.mem_insert _).mp h

/-- What a call of `GetTask` does to the records: the worker of a map task that is handed
out is recorded, and nothing else is. -/
structure HandsOut (c : Coordinator) (workerAddress : String) (c' : Coordinator) (p : Progress) :
    Prop where
  workers : c'.workerMap = c.workerMap
  handed : ∀ reply, p = .answered (.ok reply) → reply.type = .map → reply.name ≠ "" ∧
    ∀ task, c'.mapTasks.lookup reply.name = some task → task.assignedWorker = workerAddress
  others : ∀ name, (∀ reply, p = .answered (.ok reply) → reply.type = .map → reply.name ≠ name) →
    ∀ task', c'.mapTasks.lookup name = some task' → ∃ task, c.mapTasks.lookup name = some task ∧
      task'.assignedWorker = task.assignedWorker ∧ (name ≠ "" → task' = task)
  reduce : ∀ name task', c'.reduceTasks.lookup name = some task' →
    ∃ task, c.reduceTasks.lookup name = some task ∧ task'.assignedWorker = task.assignedWorker

/-- A task is taken, and its worker stays. -/
theorem exists_of_takeTask {tasks tasks' : Tasks String} {now : ℕ} {pick : Option String}
    {name other : String} {number : ℤ} {task' : TaskMetadata String}
    (h : takeTask now pick tasks = some (name, number, tasks'))
    (htask' : tasks'.lookup other = some task') :
    ∃ task, tasks.lookup other = some task ∧ task'.assignedWorker = task.assignedWorker ∧
      (other ≠ name → task' = task) := by
  rcases takeTask_cases h with ⟨-, -, rfl, -⟩ | ⟨-, -, -, -, rfl⟩
  · exact ⟨task', htask', rfl, fun _ => rfl⟩
  · obtain ⟨task, htask, rfl⟩ := Table.exists_of_lookup_modify htask'
    refine ⟨task, htask, ?_⟩
    split
    · next heq => exact ⟨rfl, fun hne => absurd heq hne⟩
    · exact ⟨rfl, fun _ => rfl⟩

theorem reduceLoop_handsOut {c c' : Coordinator} {now : ℕ} {picks : Picks} {p : Progress}
    {locations : List String} (h : c.reduceLoop now picks locations = some (c', p))
    (workerAddress : String) : HandsOut c workerAddress c' p := by
  obtain ⟨⟨name, number, reduceTasks⟩, htake, heq⟩ := Option.map_eq_some_iff.mp h
  have hnone : ∀ reply, p = .answered (.ok reply) → reply.type ≠ .map := by
    intro reply hreply
    subst hreply
    dsimp only at heq
    split at heq
    · split at heq <;> cases heq
      simp
    · cases heq
      simp
  have hc : c' = { c with reduceTasks := reduceTasks } := by
    dsimp only at heq
    split at heq
    · split at heq <;> exact (congrArg Prod.fst heq).symm
    · exact (congrArg Prod.fst heq).symm
  subst hc
  refine ⟨rfl, fun reply hreply htype => absurd htype (hnone reply hreply),
    fun name' _ task' htask' => ⟨task', htask', rfl, fun _ => rfl⟩, fun name' task' htask' => ?_⟩
  obtain ⟨task, htask, hassigned, -⟩ := exists_of_takeTask htake htask'
  exact ⟨task, htask, hassigned⟩

theorem reduceSection_handsOut {c c' : Coordinator} {now : ℕ} {picks : Picks} {p : Progress}
    {locations : List String} (h : c.reduceSection now picks locations = some (c', p))
    (workerAddress : String) : HandsOut c workerAddress c' p := by
  unfold reduceSection at h
  split at h
  · exact reduceLoop_handsOut h workerAddress
  · cases h
    exact ⟨rfl, fun reply hreply => (by cases hreply),
      fun name' _ task' htask' => ⟨task', htask', rfl, fun _ => rfl⟩,
      fun name' task' htask' => ⟨task', htask', rfl⟩⟩

theorem mapLoop_handsOut {c c' : Coordinator} {now : ℕ} {picks : Picks} {p : Progress}
    {workerAddress : String} {locations : List String}
    (h : c.mapLoop now picks workerAddress locations = some (c', p)) :
    HandsOut c workerAddress c' p := by
  obtain ⟨⟨name, number, mapTasks⟩, htake, heq⟩ := Option.bind_eq_some_iff.mp h
  dsimp only at heq
  split at heq
  · next hname =>
    -- the iteration has found nothing, or a task without a name
    have htaken : ∀ name' task', mapTasks.lookup name' = some task' →
        ∃ task, c.mapTasks.lookup name' = some task ∧
          task'.assignedWorker = task.assignedWorker ∧ (name' ≠ "" → task' = task) := by
      intro name' task' htask'
      have := exists_of_takeTask htake htask'
      rwa [hname] at this
    split at heq
    · have hsection := reduceSection_handsOut heq workerAddress
      refine ⟨hsection.workers, hsection.handed, fun name' hother task'' htask'' => ?_,
        hsection.reduce⟩
      obtain ⟨task', htask', hassigned', hsame'⟩ := hsection.others name' hother task'' htask''
      obtain ⟨task, htask, hassigned, hsame⟩ := htaken name' task' htask'
      exact ⟨task, htask, hassigned'.trans hassigned, fun hne => (hsame' hne).trans (hsame hne)⟩
    · cases heq
      exact ⟨rfl, fun reply hreply => (by cases hreply), fun name' _ => htaken name',
        fun name' task' htask' => ⟨task', htask', rfl⟩⟩
  · next hname =>
    cases heq
    refine ⟨rfl, fun reply hreply _ => ?_, fun name' hother task' htask' => ?_,
      fun name' task' htask' => ⟨task', htask', rfl⟩⟩
    · cases hreply
      refine ⟨hname, fun task' htask' => ?_⟩
      rw [Table.lookup_modify_self] at htask'
      obtain ⟨task, -, rfl⟩ := Option.map_eq_some_iff.mp htask'
      rfl
    · -- the other tasks are as they were before the iteration
      have hne : name' ≠ name := Ne.symm (hother _ rfl rfl)
      rw [Table.lookup_modify_ne hne] at htask'
      obtain ⟨task, htask, hassigned, hsame⟩ := exists_of_takeTask htake htask'
      exact ⟨task, htask, hassigned, fun _ => hsame hne⟩

theorem getTask_handsOut {c c' : Coordinator} {now : ℕ} {picks : Picks} {p : Progress}
    {workerAddress : String} (h : c.getTask now picks workerAddress = some (c', p)) :
    HandsOut c workerAddress c' p := by
  unfold getTask at h
  split at h
  · exact mapLoop_handsOut h
  · exact reduceSection_handsOut h workerAddress

theorem resume_handsOut {c c' : Coordinator} {now : ℕ} {picks : Picks} {p : Progress}
    {workerAddress : String} {locations : List String} {loop : Loop}
    (h : c.resume now picks workerAddress locations loop = some (c', p)) :
    HandsOut c workerAddress c' p := by
  cases loop with
  | map => exact mapLoop_handsOut h
  | reduce => exact reduceLoop_handsOut h workerAddress

theorem reduceTasks_updateTaskStatus (c : Coordinator) (now : ℕ) (args : UpdateTaskStatusArgs) :
    (c.updateTaskStatus now args).reduceTasks =
      if args.type = .map then c.reduceTasks else complete args.name c.reduceTasks := by
  unfold updateTaskStatus
  dsimp only
  split
  · split <;> rfl
  · cases htask : (c.heardOf now args.workerAddress).reduceTasks.lookup args.name with
    | none => exact (Table.modify_of_lookup_eq_none _ htask).symm
    | some task => rfl

theorem workerMap_updateTaskStatus (c : Coordinator) (now : ℕ) (args : UpdateTaskStatusArgs) :
    (c.updateTaskStatus now args).workerMap = (c.heardOf now args.workerAddress).workerMap := by
  unfold updateTaskStatus
  dsimp only
  split <;> split <;> rfl

end Coordinator

/-! ### The invariant -/

theorem assign_self (holder : TaskType → String → String) (worker : String) (type : TaskType)
    (name : String) : assign holder worker type name type name = worker := if_pos ⟨rfl, rfl⟩

theorem assign_of_ne (holder : TaskType → String → String) (worker : String)
    {type type' : TaskType} {name name' : String} (h : type' = type → name' ≠ name) :
    assign holder worker type name type' name' = holder type' name' :=
  if_neg fun heq => h heq.1 heq.2

/-- **The invariant.**  A map task whose status is one of `P` is assigned to the worker
that has it; no reduce task is assigned to anybody.  A worker that the table knows has
called, or it has no address. -/
structure Recorded (P : Status → Prop) (s : Tracked) : Prop where
  assigned : ∀ name task, s.system.coordinator.mapTasks.lookup name = some task →
    P task.status → task.assignedWorker = s.holder .map name
  reduce : ∀ name task, s.system.coordinator.reduceTasks.lookup name = some task →
    task.assignedWorker = ""
  unnamed : s.holder .map "" = "" ∧ ∀ task,
    s.system.coordinator.mapTasks.lookup "" = some task → task.assignedWorker = ""
  known : ∀ address ∈ s.system.coordinator.workerMap, address = "" ∨ address ∈ s.workers
  handouts : ∀ handout ∈ s.system.handouts, handout.worker ∈ s.workers ∧
    (handout.type = .map → handout.name ≠ "")
  waiting : ∀ call ∈ s.system.waiting, call.workerAddress ∈ s.workers
  addressed : "" ∉ s.workers

variable {P : Status → Prop} {files : List String} {s t : Tracked}

namespace Recorded

theorem make (hP : ¬ P .unstarted) (files : List String) (nReduce : ℕ) :
    Recorded P (.make files nReduce) where
  assigned := by
    intro name task htask hstatus
    obtain ⟨⟨file, i⟩, -, heq⟩ := List.mem_map.mp (Table.mem_of_lookup_ofList htask)
    cases heq
    exact absurd hstatus hP
  reduce := by
    intro name task htask
    obtain ⟨i, -, heq⟩ := List.mem_map.mp (Table.mem_of_lookup_ofList htask)
    cases heq
    rfl
  unnamed := by
    refine ⟨rfl, fun task htask => ?_⟩
    obtain ⟨⟨file, i⟩, -, heq⟩ := List.mem_map.mp (Table.mem_of_lookup_ofList htask)
    cases heq
    rfl
  known := by
    intro address hmem
    exact absurd hmem (AList.notMem_empty address)
  handouts := by
    intro handout hmem
    cases hmem
  waiting := by
    intro call hmem
    cases hmem
  addressed := List.not_mem_nil

/-- A method that answers no call and reopens tasks. -/
theorem update (h : Recorded P s) (hP : ¬ P .unstarted) {c : Coordinator}
    (hc : Frees s.system.coordinator c) (woke : Bool) :
    Recorded P ⟨s.system.update c woke, s.holder, s.workers⟩ where
  assigned := by
    intro name task htask hstatus
    rcases hc.map name task htask with hold | ⟨hopen, -⟩
    · exact h.assigned name task hold hstatus
    · exact absurd (hopen ▸ hstatus) hP
  reduce := by
    intro name task htask
    rcases hc.reduce name task htask with hold | ⟨-, hnobody⟩
    · exact h.reduce name task hold
    · exact hnobody
  unnamed := by
    refine ⟨h.unnamed.1, fun task htask => ?_⟩
    rcases hc.map "" task htask with hold | ⟨-, hnobody⟩
    · exact h.unnamed.2 task hold
    · exact hnobody
  known := by
    intro address hmem
    exact h.known address (hc.workers address hmem)
  handouts := h.handouts
  waiting := by
    intro call hcall
    dsimp only [System.update] at hcall
    split at hcall
    · obtain ⟨call', hcall', rfl⟩ := List.mem_map.mp hcall
      exact h.waiting call' hcall'
    · exact h.waiting call hcall
  addressed := h.addressed

/-- What `handOut` records of a call that returns or waits. -/
theorem handOut_cases (s : Tracked) (workerAddress : String) (locations : List String)
    (c : Coordinator) (p : Progress) (name : String) :
    let holder := s.handOut (s.system.settle workerAddress locations (c, p)).answer
    (∃ reply, p = .answered (.ok reply) ∧ reply.type = .map ∧ reply.name = name ∧
      holder .map name = workerAddress) ∨
    (∀ reply, p = .answered (.ok reply) → reply.type = .map → reply.name ≠ name) ∧
      holder .map name = s.holder .map name := by
  rcases p with (message | reply) | loop
  · exact .inr ⟨fun reply hreply => (by cases hreply), rfl⟩
  · by_cases hreply : reply.type = .map ∧ reply.name = name
    · obtain ⟨htype, rfl⟩ := hreply
      refine .inl ⟨reply, rfl, htype, rfl, ?_⟩
      show assign s.holder workerAddress reply.type reply.name .map reply.name = workerAddress
      rw [htype]
      exact assign_self _ _ _ _
    · refine .inr ⟨fun reply' heq htype hname => ?_, ?_⟩
      · cases heq
        exact hreply ⟨htype, hname⟩
      · exact assign_of_ne _ _ fun htype hname => hreply ⟨htype.symm, hname.symm⟩
  · exact .inr ⟨fun reply hreply => (by cases hreply), rfl⟩

/-- A call that returns or waits. -/
theorem settle (h : Recorded P s) {workerAddress : String} {locations : List String}
    {c : Coordinator} {p : Progress}
    (hc : Coordinator.HandsOut s.system.coordinator workerAddress c p)
    (hworker : workerAddress ∈ s.workers) :
    Recorded P ⟨s.system.settle workerAddress locations (c, p),
      s.handOut (s.system.settle workerAddress locations (c, p)).answer, s.workers⟩ := by
  have hcoordinator : (s.system.settle workerAddress locations (c, p)).coordinator = c := by
    cases p <;> rfl
  have hunnamed : s.handOut (s.system.settle workerAddress locations (c, p)).answer .map "" = "" ∧
      ∀ task, c.mapTasks.lookup "" = some task → task.assignedWorker = "" := by
    rcases handOut_cases s workerAddress locations c p "" with
      ⟨reply, hreply, htype, hname, -⟩ | ⟨hother, hholder⟩
    · exact absurd hname (hc.handed reply hreply htype).1
    · refine ⟨hholder.trans h.unnamed.1, fun task' htask' => ?_⟩
      obtain ⟨task, htask, hassigned, -⟩ := hc.others "" hother task' htask'
      exact hassigned.trans (h.unnamed.2 task htask)
  refine ⟨fun name task' htask' hstatus => ?_, fun name task' htask' => ?_, ?_,
    fun address hmem => ?_, fun handout hmem => ?_, fun call hmem => ?_, h.addressed⟩
  · rw [hcoordinator] at htask'
    by_cases hname : name = ""
    · subst hname
      exact (hunnamed.2 task' htask').trans hunnamed.1.symm
    rcases handOut_cases s workerAddress locations c p name with
      ⟨reply, hreply, htype, rfl, hholder⟩ | ⟨hother, hholder⟩
    · exact ((hc.handed reply hreply htype).2 task' htask').trans hholder.symm
    · obtain ⟨task, htask, -, hsame⟩ := hc.others name hother task' htask'
      have htask' := hsame hname
      subst htask'
      exact (h.assigned name task' htask hstatus).trans hholder.symm
  · rw [hcoordinator] at htask'
    obtain ⟨task, htask, hassigned⟩ := hc.reduce name task' htask'
    exact hassigned.trans (h.reduce name task htask)
  · rw [hcoordinator]
    exact hunnamed
  · rw [hcoordinator, hc.workers] at hmem
    exact h.known address hmem
  · rcases p with (message | reply) | loop
    · exact h.handouts handout hmem
    · rcases List.mem_cons.mp hmem with rfl | hold
      · exact ⟨hworker, fun htype => (hc.handed reply rfl htype).1⟩
      · exact h.handouts handout hold
    · exact h.handouts handout hmem
  · rcases p with answer | loop
    · exact h.waiting call hmem
    · rcases List.mem_append.mp hmem with hold | hnew
      · exact h.waiting call hold
      · cases List.mem_singleton.mp hnew
        exact hworker

/-- A worker calls for the first time, or once more. -/
theorem join (h : Recorded P s) {address : String} (haddress : address ≠ "") :
    Recorded P { s with workers := address :: s.workers } where
  assigned := h.assigned
  reduce := h.reduce
  unnamed := h.unnamed
  known := by
    intro other hmem
    exact (h.known other hmem).imp_right (List.mem_cons_of_mem address)
  handouts := by
    intro handout hmem
    exact ⟨List.mem_cons_of_mem address (h.handouts handout hmem).1, (h.handouts handout hmem).2⟩
  waiting := by
    intro call hmem
    exact List.mem_cons_of_mem address (h.waiting call hmem)
  addressed := by
    intro hmem
    rcases List.mem_cons.mp hmem with heq | hold
    · exact haddress heq.symm
    · exact h.addressed hold

theorem completeBy_of_ne {s : Tracked} {handout : Handout} {type : TaskType} {name : String}
    (h : type = handout.args.type → name ≠ handout.args.name) :
    s.completeBy handout type name = s.holder type name := by
  unfold Tracked.completeBy
  split
  · exact assign_of_ne _ _ h
  · rfl

theorem args_workerAddress (handout : Handout) :
    handout.args.workerAddress = handout.worker ∨ handout.args.workerAddress = "" := by
  unfold Handout.args
  split
  · exact .inl rfl
  · exact .inr rfl

/-- A map task that is completed by the worker that it is assigned to. -/
theorem completeBy_of_heldReport {handout : Handout} (hname : handout.args.type = .map)
    (hheld : System.HeldReport s.system (.report handout)) {task : TaskMetadata String}
    (htask : s.system.coordinator.mapTasks.lookup handout.args.name = some task) :
    task.assignedWorker = s.completeBy handout .map handout.args.name := by
  obtain ⟨htype, hargs⟩ := Handout.args_map hname
  have hreport := hheld htype
  rw [hargs] at htask
  simp only [htask, Option.all_some, Bool.and_eq_true, decide_eq_true_iff] at hreport
  have hfirst : s.system.coordinator.FirstReport handout.args := by
    intro hcompleted
    rw [Coordinator.tasks, if_pos hname, hargs, htask] at hcompleted
    exact hreport.1 (Option.some.inj hcompleted)
  rw [Tracked.completeBy, if_pos hfirst, hname, assign_self]
  exact hreport.2

/-- A report.  If completed tasks are to be assigned to those who have completed them,
the report must come from the worker that the task is assigned to. -/
theorem report (h : Recorded P s) {handout : Handout} (hmem : handout ∈ s.system.handouts)
    (hheld : P .completed → System.HeldReport s.system (.report handout)) :
    Recorded P ⟨{ s.system.update
        (s.system.coordinator.updateTaskStatus s.system.now handout.args) false with
      handouts := s.system.handouts.erase handout
      reports := handout :: s.system.reports }, s.completeBy handout, s.workers⟩ := by
  obtain ⟨hworker, hnamed⟩ := h.handouts handout hmem
  have hunnamed : handout.args.type = .map → handout.args.name ≠ "" := by
    intro htype
    obtain ⟨htype, hargs⟩ := Handout.args_map htype
    rw [hargs]
    exact hnamed htype
  -- which task is completed, if any
  have hlookup : ∀ name task',
      (s.system.coordinator.updateTaskStatus s.system.now handout.args).mapTasks.lookup name =
        some task' →
      (handout.args.type = .map ∧ name = handout.args.name ∧ ∃ task,
        s.system.coordinator.mapTasks.lookup name = some task ∧
        task' = { task with status := .completed }) ∨
      ((.map = handout.args.type → name ≠ handout.args.name) ∧
        s.system.coordinator.mapTasks.lookup name = some task') := by
    intro name task' htask'
    rw [Coordinator.mapTasks_updateTaskStatus] at htask'
    split at htask'
    · next htype =>
      rw [complete, Table.lookup_modify] at htask'
      split at htask'
      · next hname =>
        obtain ⟨task, htask, rfl⟩ := Option.map_eq_some_iff.mp htask'
        exact .inl ⟨htype, hname, task, htask, rfl⟩
      · next hname => exact .inr ⟨fun _ => hname, htask'⟩
    · next htype => exact .inr ⟨fun heq => absurd heq.symm htype, htask'⟩
  refine ⟨fun name task' htask' hstatus => ?_, fun name task' htask' => ?_,
    ⟨?_, fun task' htask' => ?_⟩, fun address haddress => ?_,
    fun other hother => h.handouts other (List.mem_of_mem_erase hother), h.waiting, h.addressed⟩
  · rcases hlookup name task' htask' with ⟨htype, rfl, task, htask, rfl⟩ | ⟨hne, htask⟩
    · have hassigned := completeBy_of_heldReport htype (hheld hstatus) htask
      exact hassigned
    · exact (h.assigned name task' htask hstatus).trans (completeBy_of_ne hne).symm
  · change (Coordinator.updateTaskStatus _ _ _).reduceTasks.lookup name = some task' at htask'
    rw [Coordinator.reduceTasks_updateTaskStatus] at htask'
    split at htask'
    · exact h.reduce name task' htask'
    · refine Table.forall_lookup_modify h.reduce ?_ name task' htask'
      exact fun _ _ hreduce => hreduce
  · exact (completeBy_of_ne fun htype => (hunnamed htype.symm).symm).trans h.unnamed.1
  · rcases hlookup "" task' htask' with ⟨htype, hname, -⟩ | ⟨-, htask⟩
    · exact absurd hname.symm (hunnamed htype)
    · exact h.unnamed.2 task' htask
  · change address ∈ (Coordinator.updateTaskStatus _ _ _).workerMap at haddress
    rw [Coordinator.workerMap_updateTaskStatus] at haddress
    rcases Coordinator.mem_heardOf haddress with rfl | hold
    · rcases args_workerAddress handout with heq | hempty
      · rw [heq]
        exact .inr hworker
      · exact .inl hempty
    · exact h.known address hold

/-- **The step lemma.** -/
theorem of_step (h : Recorded P s) (hP : ¬ P .unstarted) {e : Event} (haddress : s.HasAddress e)
    (hheld : P .completed → System.HeldReport s.system e) (hstep : s.step e = some t) :
    Recorded P t := by
  obtain ⟨u, hu, rfl⟩ := Option.map_eq_some_iff.mp hstep
  cases e with
  | tick d =>
    cases hu
    exact ⟨h.assigned, h.reduce, h.unnamed, h.known, h.handouts, h.waiting, h.addressed⟩
  | getTask workerAddress picks =>
    obtain ⟨⟨c, p⟩, hget, rfl⟩ := Option.map_eq_some_iff.mp hu
    exact (h.join haddress).settle (Coordinator.getTask_handsOut hget) List.mem_cons_self
  | resume i picks =>
    obtain ⟨call, c, p, hcall, hresume, rfl⟩ := System.resume_cases hu
    have h' : Recorded P ⟨{ s.system with waiting := s.system.waiting.eraseIdx i },
        s.holder, s.workers⟩ :=
      ⟨h.assigned, h.reduce, h.unnamed, h.known, h.handouts,
        fun call hcall => h.waiting call (List.mem_of_mem_eraseIdx hcall), h.addressed⟩
    exact h'.settle (Coordinator.resume_handsOut hresume)
      (h.waiting call (List.mem_of_getElem? hcall))
  | report handout =>
    obtain ⟨hmem, rfl⟩ := System.report_cases hu
    exact h.report hmem hheld
  | healthCheck workerAddress =>
    cases hu
    have hjoin := h.join haddress
    refine ⟨h.assigned, h.reduce, h.unnamed, fun address hmem => ?_, hjoin.handouts, hjoin.waiting,
      hjoin.addressed⟩
    rcases Coordinator.mem_heardOf hmem with rfl | hold
    · exact .inr List.mem_cons_self
    · exact hjoin.known address hold
  | reportFailure failedWorker =>
    cases hu
    exact h.update hP (s.system.coordinator.reportFailure_frees failedWorker) true
  | reschedule delay =>
    obtain rfl := System.reschedule_cases hu
    have hupdate := h.update hP
      (s.system.coordinator.rescheduler_frees fun name => s.system.now + delay name)
      (s.system.coordinator.rescheduler fun name => s.system.now + delay name).woke
    exact ⟨hupdate.assigned, hupdate.reduce, hupdate.unnamed, hupdate.known, hupdate.handouts,
      hupdate.waiting, hupdate.addressed⟩
  | monitor delay =>
    cases hu
    exact h.update hP (s.system.coordinator.healthMonitor_frees _) _
  | done =>
    cases hu
    exact h.update hP s.system.coordinator.done_frees false

end Recorded

/-! ### What is taken back -/

/-- A map task is treated rightly if the record of its worker is right. -/
theorem status_hardReset_iff (task : TaskMetadata String) (worker holder : String) :
    (if task.assignedWorker = worker then Coordinator.resetTask task else task).status =
        (if task.status ≠ .unstarted ∧ holder = worker then .unstarted else task.status) ↔
      (task.status ≠ .unstarted → (task.assignedWorker = worker ↔ holder = worker)) := by
  by_cases hassigned : task.assignedWorker = worker <;> by_cases hholder : holder = worker <;>
    cases hstatus : task.status <;> simp [hassigned, hholder, hstatus, Coordinator.resetTask]

/-- And so is a reduce task. -/
theorem status_softReset_iff (task : TaskMetadata String) (worker holder : String) :
    (if task.assignedWorker = worker ∧ task.status = .inprogress then Coordinator.resetTask task
        else task).status =
        (if task.status = .inprogress ∧ holder = worker then .unstarted else task.status) ↔
      (task.status = .inprogress → (task.assignedWorker = worker ↔ holder = worker)) := by
  by_cases hassigned : task.assignedWorker = worker <;> by_cases hholder : holder = worker <;>
    cases hstatus : task.status <;> simp [hassigned, hholder, hstatus, Coordinator.resetTask]

/-- What the statuses are after an update, task by task. -/
theorem map_status_mapVal_iff {tasks : Tasks String}
    {f : String → TaskMetadata String → TaskMetadata String}
    {g : String → TaskMetadata String → Status} :
    (∀ name, ((tasks.mapVal f).lookup name).map (·.status) = (tasks.lookup name).map (g name)) ↔
      ∀ name task, tasks.lookup name = some task → (f name task).status = g name task := by
  constructor
  · intro h name task htask
    have hname := h name
    rw [Table.lookup_mapVal, htask] at hname
    exact Option.some.inj hname
  · intro h name
    rw [Table.lookup_mapVal]
    cases htask : tasks.lookup name with
    | none => rfl
    | some task => exact congrArg some (h name task htask)

namespace Tracked

/-- **Exactly the tasks of the worker are taken back if and only if the records are
faithful**, by whatever resets the tables for this worker. -/
theorem resets_iff (h : Recorded (· = .inprogress) s) {worker : String} (hworker : worker ≠ "")
    {c : Coordinator} (hmap : c.mapTasks = (s.system.coordinator.hardReset worker).mapTasks)
    (hreduce : c.reduceTasks = (s.system.coordinator.softReset worker).reduceTasks) :
    Resets s worker c ↔ Faithful s worker := by
  have hmapIff : (∀ name, (c.mapTasks.lookup name).map (·.status) =
      (s.system.coordinator.mapTasks.lookup name).map fun task =>
        if task.status ≠ .unstarted ∧ s.holder .map name = worker then .unstarted
        else task.status) ↔
      ∀ name task, s.system.coordinator.mapTasks.lookup name = some task →
        task.status = .completed →
          (task.assignedWorker = worker ↔ s.holder .map name = worker) := by
    rw [hmap, Coordinator.hardReset, map_status_mapVal_iff]
    refine forall₃_congr fun name task htask => (status_hardReset_iff task worker _).trans ?_
    constructor
    · intro hright hstatus
      exact hright (by simp [hstatus])
    · intro hright hstatus
      cases hcase : task.status with
      | unstarted => exact absurd hcase hstatus
      | inprogress => rw [h.assigned name task htask hcase]
      | completed => exact hright hcase
  have hreduceIff : (∀ name, (c.reduceTasks.lookup name).map (·.status) =
      (s.system.coordinator.reduceTasks.lookup name).map fun task =>
        if task.status = .inprogress ∧ s.holder .reduce name = worker then .unstarted
        else task.status) ↔
      ∀ name task, s.system.coordinator.reduceTasks.lookup name = some task →
        task.status = .inprogress → s.holder .reduce name ≠ worker := by
    rw [hreduce, Coordinator.softReset, map_status_mapVal_iff]
    refine forall₃_congr fun name task htask => (status_softReset_iff task worker _).trans ?_
    -- no reduce task is assigned to anybody
    rw [h.reduce name task htask]
    simp [hworker.symm]
  constructor
  · rintro ⟨hmapRight, hreduceRight⟩
    exact ⟨hmapIff.mp hmapRight, hreduceIff.mp hreduceRight⟩
  · rintro ⟨hmapRight, hreduceRight⟩
    exact ⟨hmapIff.mpr hmapRight, hreduceIff.mpr hreduceRight⟩

/-- The only worker that a pass finds silent. -/
theorem healthMonitor_of_silent {c : Coordinator} {clock : String → ℕ} {worker : String}
    (h : c.silent clock = [worker]) : (c.healthMonitor clock).coordinator = c.takeOff worker := by
  rw [Coordinator.healthMonitor, h]
  rfl

theorem mem_silent {c : Coordinator} {clock : String → ℕ} {address : String} :
    address ∈ c.silent clock ↔ ∃ worker, c.workerMap.lookup address = some worker ∧
      clock address - worker.lastReportedTime > 4 * second := by
  simp only [Coordinator.silent, List.mem_map, List.mem_filter, decide_eq_true_iff]
  constructor
  · rintro ⟨⟨address, worker⟩, ⟨hmem, hlate⟩, rfl⟩
    exact ⟨worker, Table.mem_entries.mp hmem, hlate⟩
  · rintro ⟨worker, hlookup, hlate⟩
    exact ⟨⟨address, worker⟩, ⟨Table.mem_entries.mpr hlookup, hlate⟩, rfl⟩

/-- **A worker that fails.**  In every state that is reached, a report or a pass that finds
only this worker takes back exactly the tasks of the worker if and only if the records
about it are faithful; and a pass declares only workers down if and only if the last
report without an address was made in the last four seconds. -/
theorem resets_iff_faithful (files : List String) (nReduce : ℕ)
    (h : ReachWhile step HasAddress (make files nReduce) s) :
    (∀ worker, worker ≠ "" →
      (Resets s worker (s.system.coordinator.reportFailure worker) ↔ Faithful s worker) ∧
      ∀ clock, s.system.coordinator.silent clock = [worker] →
        (Resets s worker (s.system.coordinator.healthMonitor clock).coordinator ↔
          Faithful s worker)) ∧
    ∀ clock, (∀ address ∈ s.system.coordinator.silent clock, address ∈ s.workers) ↔
      ∀ worker, s.system.coordinator.workerMap.lookup "" = some worker →
        clock "" - worker.lastReportedTime ≤ 4 * second := by
  have hrecorded : Recorded (· = .inprogress) s :=
    h.invariant (Recorded.make (by simp) files nReduce) fun _ _ _ hinv hok hstep =>
      hinv.of_step (by simp) hok (fun hcompleted => by cases hcompleted) hstep
  refine ⟨fun worker hworker => ⟨resets_iff hrecorded hworker rfl rfl, fun clock hclock => ?_⟩,
    fun clock => ⟨fun hall worker hlookup => ?_, fun hrecent address hsilent => ?_⟩⟩
  · rw [healthMonitor_of_silent hclock]
    exact resets_iff hrecorded hworker rfl rfl
  · by_contra hlate
    exact hrecorded.addressed (hall "" (mem_silent.mpr ⟨worker, hlookup, not_le.mp hlate⟩))
  · obtain ⟨worker, hlookup, hlate⟩ := mem_silent.mp hsilent
    rcases hrecorded.known address (AList.lookup_isSome.mp (by rw [hlookup]; rfl)) with rfl | hmem
    · exact absurd hlate (not_lt.mpr (hrecent worker hlookup))
    · exact hmem

/-- In every run in which map tasks are only reported by the workers that they are
assigned to, the map tasks are right. -/
theorem resets_of_heldReport (files : List String) (nReduce : ℕ)
    (h : ReachWhile step (fun s e => s.HasAddress e ∧ System.HeldReport s.system e)
      (make files nReduce) s) {worker : String} (hworker : worker ≠ "")
    (hreduce : ∀ name task, s.system.coordinator.reduceTasks.lookup name = some task →
      task.status = .inprogress → s.holder .reduce name ≠ worker) :
    Resets s worker (s.system.coordinator.reportFailure worker) := by
  have hrecorded : Recorded (· ≠ .unstarted) s :=
    h.invariant (Recorded.make (by simp) files nReduce) fun _ _ _ hinv hok hstep =>
      hinv.of_step (by simp) hok.1 (fun _ => hok.2) hstep
  have hinprogress : Recorded (· = .inprogress) s :=
    { hrecorded with
      assigned := fun name task htask hstatus =>
        hrecorded.assigned name task htask (by simp [hstatus]) }
  have hiff : Resets s worker (s.system.coordinator.reportFailure worker) ↔ Faithful s worker :=
    resets_iff hinprogress hworker rfl rfl
  refine hiff.mpr ⟨fun name task htask hstatus => ?_, hreduce⟩
  rw [hrecorded.assigned name task htask (by simp [hstatus])]

/-- Worker `A` completes `f` and is not heard of again; `B` has `g`. -/
def deadRun : List Event :=
  [.getTask "A" ⟨some "f", none⟩, .report ⟨"A", .map, "f"⟩, .getTask "B" ⟨some "g", none⟩,
    .tick (5 * second), .healthCheck "B"]

theorem resets_iff_faithful_deadRun : ∃ s,
    run (restrict step HasAddress) (make ["f", "g"] 1) deadRun = some s ∧
      s.system.coordinator.silent (fun _ => s.system.now) = ["A"] ∧
      Resets s "A" (s.system.coordinator.healthMonitor fun _ => s.system.now).coordinator ∧
      Resets s "B" (s.system.coordinator.reportFailure "B") ∧
      ∀ address ∈ s.system.coordinator.silent (fun _ => s.system.now), address ∈ s.workers := by
  have hobs : (run (restrict step HasAddress) (make ["f", "g"] 1) deadRun).map (fun s =>
      (s.system.coordinator.silent (fun _ => s.system.now), decide (Faithful s "A"),
        decide (Faithful s "B"), s.system.coordinator.workerMap.lookup "")) =
      some (["A"], true, true, none) := by decide +kernel
  obtain ⟨s, hs, hval⟩ := Option.map_eq_some_iff.mp hobs
  simp only [Prod.mk.injEq] at hval
  obtain ⟨hsilent, hfaithful, hfaithful', hnone⟩ := hval
  obtain ⟨hiff, hdown⟩ := resets_iff_faithful ["f", "g"] 1 (reachWhile_of_run _ _ _ hs)
  exact ⟨s, hs, hsilent,
    ((hiff "A" (by decide)).2 _ hsilent).mpr (of_decide_eq_true hfaithful),
    (hiff "B" (by decide)).1.mpr (of_decide_eq_true hfaithful'),
    (hdown _).mpr fun worker hworker => by rw [hnone] at hworker; cases hworker⟩

/-! ### Tasks of others -/

/-- Worker `A` has completed the map task and has the reduce task. -/
def reduceRun : List Event :=
  [.getTask "A" ⟨some "f", none⟩, .report ⟨"A", .map, "f"⟩, .getTask "A" ⟨none, some "0"⟩]

/-- Worker `A` reports its map task after it has been given to `B`. -/
def lateReportRun : List Event :=
  [.getTask "A" ⟨some "f", none⟩, .tick (11 * second), .reschedule fun _ => 0,
    .getTask "B" ⟨some "f", none⟩, .report ⟨"A", .map, "f"⟩]

/-- After `reduceRun` the reduce task of `A` is not taken back, and after `lateReportRun`
the map task that `A` has completed is taken back when `B` fails.  Five seconds after
the report of a reduce task a worker without an address is down. -/
theorem not_resets :
    (∃ s, ReachWhile step HasAddress (make ["f"] 1) s ∧
      ¬ Resets s "A" (s.system.coordinator.reportFailure "A")) ∧
    (∃ s, ReachWhile step HasAddress (make ["f"] 1) s ∧
      ¬ Resets s "B" (s.system.coordinator.reportFailure "B")) ∧
    ∃ s, ReachWhile step HasAddress (make ["f"] 1) s ∧
      "" ∈ s.system.coordinator.silent (fun _ => s.system.now) ∧ "" ∉ s.workers := by
  refine ⟨?_, ?_, ?_⟩
  · have hobs : (run (restrict step HasAddress) (make ["f"] 1) reduceRun).map (fun s =>
        (((s.system.coordinator.reportFailure "A").reduceTasks.lookup "0").map (·.status),
          (s.system.coordinator.reduceTasks.lookup "0").map (·.status), s.holder .reduce "0")) =
        some (some .inprogress, some .inprogress, "A") := by decide +kernel
    obtain ⟨s, hs, hval⟩ := Option.map_eq_some_iff.mp hobs
    simp only [Prod.mk.injEq] at hval
    obtain ⟨hafter, hbefore, hholder⟩ := hval
    refine ⟨s, reachWhile_of_run _ _ _ hs, fun hresets => ?_⟩
    obtain ⟨task, htask, hstatus⟩ := Option.map_eq_some_iff.mp hbefore
    have hreduce := hresets.reduce "0"
    rw [hafter, htask] at hreduce
    simp [hstatus, hholder] at hreduce
  · have hobs : (run (restrict step HasAddress) (make ["f"] 1) lateReportRun).map (fun s =>
        (((s.system.coordinator.reportFailure "B").mapTasks.lookup "f").map (·.status),
          (s.system.coordinator.mapTasks.lookup "f").map (·.status), s.holder .map "f")) =
        some (some .unstarted, some .completed, "A") := by decide +kernel
    obtain ⟨s, hs, hval⟩ := Option.map_eq_some_iff.mp hobs
    simp only [Prod.mk.injEq] at hval
    obtain ⟨hafter, hbefore, hholder⟩ := hval
    refine ⟨s, reachWhile_of_run _ _ _ hs, fun hresets => ?_⟩
    obtain ⟨task, htask, hstatus⟩ := Option.map_eq_some_iff.mp hbefore
    have hmap := hresets.map "f"
    rw [hafter, htask] at hmap
    simp [hstatus, hholder] at hmap
  · have hobs : (run (restrict step HasAddress) (make ["f"] 1)
        (reduceRun ++ [.report ⟨"A", .reduce, "0"⟩, .tick (5 * second)])).map (fun s =>
        (decide ("" ∈ s.system.coordinator.silent (fun _ => s.system.now)),
          decide ("" ∈ s.workers))) = some (true, false) := by decide +kernel
    obtain ⟨s, hs, hval⟩ := Option.map_eq_some_iff.mp hobs
    simp only [Prod.mk.injEq] at hval
    exact ⟨s, reachWhile_of_run _ _ _ hs, of_decide_eq_true hval.1, of_decide_eq_false hval.2⟩

end Tracked

end ExchangeLabs.MapReduce.Distributed
