import ExchangeLabs.Lib.Table
import Mathlib.Algebra.Group.Nat.Defs

/-!
# The tasks of a MapReduce job

What the coordinators of the two versions (on one machine and distributed) have in
common: the tables of map and reduce tasks, and what is done to one table while the
lock is held.  Each coordinator keeps a counter of the tasks of each table that are
not completed.

## Main definitions

* `TaskMetadata`, `Tasks` — a task and a table of tasks.
* `GetTaskReply`, `Progress` — what a call of `GetTask` comes to.
* `takeTask` — `GetMapTask` and `GetReduceTask`.
* `expire` — what a pass of `Rescheduler` does to a table.
* `complete` — what a report of completion does to a table.
* `Exact tasks n` — the counter `n` is the number of tasks that are not completed.

## Main results

* `Exact.takeTask`, `Exact.expire` — the counter stays exact without being touched.
* `Exact.complete` — a report takes one off it, **if it finds the task not completed**.
* `Exact.eq_zero_iff` — an exact counter is zero when all tasks are completed.
-/

namespace ExchangeLabs.MapReduce

inductive Status
  | unstarted
  | inprogress
  | completed
  deriving DecidableEq, Repr

inductive TaskType
  | map
  | reduce
  /-- Only in the distributed version. -/
  | wait
  deriving DecidableEq, Repr

/-- `time.Second`; times are in nanoseconds. -/
def second : ℕ := 10 ^ 9

def timeOutCoefficient : ℕ := 10

/-- `TaskMetadata`.  The distributed version records the address of the worker that
has the task (`W` is `String`), the other one does not (`W` is `Unit`). -/
structure TaskMetadata (W : Type) where
  number : ℕ
  /-- `none` is the zero `time.Time`. -/
  startTime : Option ℕ
  status : Status
  assignedWorker : W
  deriving DecidableEq

/-- `mapTasks` or `reduceTasks`: the tasks under their names. -/
abbrev Tasks (W : Type) := Table String (TaskMetadata W)

structure GetTaskReply where
  name : String
  number : ℤ
  partitionNumber : ℕ
  type : TaskType
  mapAddresses : List String
  deriving DecidableEq

structure UpdateTaskStatusArgs where
  name : String
  type : TaskType
  workerAddress : String

/-- The two loops of `GetTask` that wait. -/
inductive Loop
  | map
  | reduce
  deriving DecidableEq

/-- What a call of `GetTask` comes to: it returns, or it waits. -/
inductive Progress
  | answered (reply : Except String GetTaskReply)
  | blocked (loop : Loop)

/-- The call has got to reduce tasks: it returns one, or waits for one. -/
def Progress.Reduces : Progress → Prop
  | .answered (.ok reply) => reply.type = .reduce
  | .answered (.error _) => False
  | .blocked loop => loop = .reduce

/-- Something about the reply with which a call was answered. -/
def answeredWith {A B : Type} (f : GetTaskReply → B)
    (answer : Option (A × Except String GetTaskReply)) : Option B :=
  answer.bind fun a => a.2.toOption.map f

/-- The error with which `GetTask` ends. -/
def noMoreTasks : String := "all tasks are completed, no more remaining"

/-- What the iterations of a call over `mapTasks` and over `reduceTasks` find. -/
structure Picks where
  map : Option String
  reduce : Option String

variable {W : Type} {tasks tasks' : Tasks W} {n : ℤ}

/-! ### Operations on a table -/

/-- `GetMapTask` and `GetReduceTask`: the first unstarted task of the iteration over
the map, or `""` and `-1`.  The order of the iteration is not specified: `pick` is
what it finds, and the call is impossible if it cannot find that. -/
def takeTask (now : ℕ) (pick : Option String) (tasks : Tasks W) :
    Option (String × ℤ × Tasks W) :=
  match pick with
  | none => if tasks.count (·.status = .unstarted) = 0 then some ("", -1, tasks) else none
  | some name =>
    match tasks.lookup name with
    | none => none
    | some task =>
      if task.status = .unstarted then
        some (name, task.number,
          tasks.modify name fun task => { task with startTime := some now, status := .inprogress })
      else none

/-- `currentTime.Sub(startTime) > timeOutCoefficient*time.Second` for a task in
progress; the zero time is long ago. -/
def TaskMetadata.timedOut (task : TaskMetadata W) (currentTime : ℕ) : Bool :=
  match task.status, task.startTime with
  | .inprogress, some startTime => decide (currentTime - startTime > timeOutCoefficient * second)
  | .inprogress, none => true
  | _, _ => false

/-- The pass of `Rescheduler` over a table.  It reads the clock for every task:
`clock name` is what it reads.  `nobody` is what it records as the worker. -/
def expire (nobody : W) (clock : String → ℕ) (tasks : Tasks W) : Tasks W :=
  tasks.mapVal fun name task =>
    if task.timedOut (clock name) then { task with status := .unstarted, assignedWorker := nobody }
    else task

/-- The pass finds a task that has timed out. -/
def anyTimedOut (clock : String → ℕ) (tasks : Tasks W) : Bool :=
  tasks.entries.any fun e => e.2.timedOut (clock e.1)

/-- `task.status = completed` for the task of this name. -/
def complete (name : String) (tasks : Tasks W) : Tasks W :=
  tasks.modify name fun task => { task with status := .completed }

/-- A task of `MakeCoordinator`. -/
def newTask (nobody : W) (i : ℕ) : TaskMetadata W where
  number := i
  startTime := none
  status := .unstarted
  assignedWorker := nobody

/-- What `MakeCoordinator` makes of the input files. -/
def makeMapTasks (nobody : W) (files : List String) : Tasks W :=
  Table.ofList (files.zipIdx.map fun (file, i) => (file, newTask nobody i))

/-- The reduce tasks of `MakeCoordinator`, named by their numbers. -/
def makeReduceTasks (nobody : W) (nReduce : ℕ) : Tasks W :=
  Table.ofList ((List.range nReduce).map fun i => (toString i, newTask nobody i))

/-! ### What the operations do -/

/-- **All that taking a task can do**: there is no unstarted task, or one is started. -/
theorem takeTask_cases {now : ℕ} {pick : Option String} {name : String} {number : ℤ}
    (h : takeTask now pick tasks = some (name, number, tasks')) :
    (name = "" ∧ number = -1 ∧ tasks' = tasks ∧
      ∀ other task, tasks.lookup other = some task → task.status ≠ .unstarted) ∨
    (∃ task, tasks.lookup name = some task ∧ task.status = .unstarted ∧ number = task.number ∧
      tasks' = tasks.modify name fun task =>
        { task with startTime := some now, status := .inprogress }) := by
  unfold takeTask at h
  split at h
  · split at h
    · next hnone =>
      cases h
      refine .inl ⟨rfl, rfl, rfl, fun other task hother => ?_⟩
      simpa using Table.count_eq_zero.mp hnone other task hother
    · cases h
  · split at h
    · cases h
    · next task htask =>
      split at h
      · next hstatus =>
        cases h
        exact .inr ⟨task, htask, hstatus, rfl, rfl⟩
      · cases h

theorem TaskMetadata.timedOut_status {task : TaskMetadata W} {currentTime : ℕ}
    (h : task.timedOut currentTime = true) : task.status = .inprogress := by
  unfold timedOut at h
  split at h
  · next hs _ => exact hs
  · next hs _ => exact hs
  · cases h

/-! ### Exact counters -/

/-- The task counts among the remaining ones. -/
def TaskMetadata.remaining (task : TaskMetadata W) : Bool := decide (task.status ≠ .completed)

/-- The counter is the number of tasks that are not completed. -/
abbrev Exact (tasks : Tasks W) (n : ℤ) : Prop := Table.Tally TaskMetadata.remaining tasks n

/-- Every task has been completed. -/
def AllCompleted (tasks : Tasks W) : Prop :=
  ∀ name task, tasks.lookup name = some task → task.status = .completed

theorem Exact.eq_zero_iff (h : Exact tasks n) : n = 0 ↔ AllCompleted tasks := by
  rw [Table.Tally.eq_zero_iff h]
  simp [AllCompleted, TaskMetadata.remaining]

theorem Exact.nonneg (h : Exact tasks n) : 0 ≤ n := by
  rw [show n = Table.count _ tasks from h]
  exact Int.natCast_nonneg _

theorem not_allCompleted {name : String} {status : Status}
    (h : (tasks.lookup name).map (·.status) = some status) (hne : status ≠ .completed) :
    ¬ AllCompleted tasks := by
  intro hall
  obtain ⟨task, htask, rfl⟩ := Option.map_eq_some_iff.mp h
  exact hne (hall name task htask)

theorem exists_of_answeredWith {A B : Type} {f : GetTaskReply → B} {b : B}
    {answer : Option (A × Except String GetTaskReply)} (h : answeredWith f answer = some b) :
    ∃ worker reply, answer = some (worker, .ok reply) ∧ f reply = b := by
  obtain ⟨⟨worker, result⟩, hanswer, hresult⟩ := Option.bind_eq_some_iff.mp h
  cases result with
  | error message => cases hresult
  | ok reply => exact ⟨worker, reply, hanswer, Option.some.inj hresult⟩

theorem Exact.takeTask {now : ℕ} {pick : Option String} {name : String} {number : ℤ}
    (h : Exact tasks n) (ht : takeTask now pick tasks = some (name, number, tasks')) :
    Exact tasks' n := by
  rcases takeTask_cases ht with ⟨-, -, rfl, -⟩ | ⟨task, htask, hstatus, -, rfl⟩
  · exact h
  · -- a task that is started was not completed, and is not now
    refine h.modify_of_eq fun task' htask' => ?_
    rw [htask, Option.some.injEq] at htask'
    subst htask'
    simp [TaskMetadata.remaining, hstatus]

theorem Exact.expire (h : Exact tasks n) (nobody : W) (clock : String → ℕ) :
    Exact (expire nobody clock tasks) n := by
  refine h.mapVal_of_eq fun name task => ?_
  -- a task that has timed out was in progress
  split
  · next htime => simp [TaskMetadata.remaining, TaskMetadata.timedOut_status htime]
  · rfl

/-- A report takes one off the counter, if it finds the task not completed. -/
theorem Exact.complete (h : Exact tasks n) {name : String} {task : TaskMetadata W}
    (htask : tasks.lookup name = some task) (hstatus : task.status ≠ .completed) :
    Exact (complete name tasks) (n - 1) :=
  h.modify_drop htask (by simp [TaskMetadata.remaining, hstatus]) (by simp [TaskMetadata.remaining])

/-! ### The tables at first -/

theorem toString_injective : Function.Injective (toString : ℕ → String) := by
  intro i j hij
  have hdigits := congrArg String.toList hij
  rw [Nat.toString_eq_repr, Nat.toString_eq_repr, Nat.toList_repr, Nat.toList_repr] at hdigits
  rw [← Nat.ofDigitChars_ten_toDigits (n := i), hdigits, Nat.ofDigitChars_ten_toDigits]

private theorem nodup_mapNames {files : List String} (hfiles : files.Nodup) (nobody : W) :
    ((files.zipIdx.map fun (file, i) => (file, newTask nobody i)).map Prod.fst).Nodup := by
  rw [List.map_map]
  exact (List.zipIdx_map_fst 0 files).symm ▸ hfiles

private theorem nodup_reduceNames (nobody : W) (nReduce : ℕ) :
    (((List.range nReduce).map fun i => (toString i, newTask nobody i)).map Prod.fst).Nodup := by
  rw [List.map_map]
  exact List.nodup_range.map toString_injective

/-- The number of a map task is the place of its file in the input. -/
theorem lookup_makeMapTasks {files : List String} (hfiles : files.Nodup) {nobody : W}
    {name : String} {task : TaskMetadata W} :
    (makeMapTasks nobody files).lookup name = some task ↔
      ∃ i, files[i]? = some name ∧ task = newTask nobody i := by
  rw [makeMapTasks, Table.lookup_ofList (nodup_mapNames hfiles nobody), List.mem_map]
  constructor
  · rintro ⟨⟨file, i⟩, hmem, heq⟩
    cases heq
    exact ⟨i, List.mem_zipIdx_iff_getElem?.mp hmem, rfl⟩
  · rintro ⟨i, hi, rfl⟩
    exact ⟨(name, i), List.mem_zipIdx_iff_getElem?.mpr hi, rfl⟩

theorem length_makeMapTasks {files : List String} (hfiles : files.Nodup) (nobody : W) :
    (makeMapTasks nobody files).entries.length = files.length := by
  rw [makeMapTasks, Table.entries_ofList (nodup_mapNames hfiles nobody), List.length_reverse,
    List.length_map, List.length_map, List.length_zipIdx]

theorem exact_makeMapTasks {files : List String} (hfiles : files.Nodup) (nobody : W) :
    Exact (makeMapTasks nobody files) files.length := by
  have htally := Table.tally_ofList (p := TaskMetadata.remaining) (nodup_mapNames hfiles nobody)
    (fun e he => by obtain ⟨⟨file, i⟩, -, rfl⟩ := List.mem_map.mp he; rfl)
  rwa [List.length_map, List.length_zipIdx] at htally

theorem exact_makeReduceTasks (nobody : W) (nReduce : ℕ) :
    Exact (makeReduceTasks nobody nReduce) nReduce := by
  have htally := Table.tally_ofList (p := TaskMetadata.remaining) (nodup_reduceNames nobody nReduce)
    (fun e he => by obtain ⟨i, -, rfl⟩ := List.mem_map.mp he; rfl)
  rwa [List.length_map, List.length_range] at htally

/-- The number of a reduce task is its name. -/
theorem lookup_makeReduceTasks {nobody : W} {nReduce : ℕ} {name : String} {task : TaskMetadata W} :
    (makeReduceTasks nobody nReduce).lookup name = some task ↔
      ∃ i < nReduce, name = toString i ∧ task = newTask nobody i := by
  rw [makeReduceTasks, Table.lookup_ofList (nodup_reduceNames nobody nReduce), List.mem_map]
  constructor
  · rintro ⟨i, hi, heq⟩
    cases heq
    exact ⟨i, List.mem_range.mp hi, rfl, rfl⟩
  · rintro ⟨i, hi, rfl, rfl⟩
    exact ⟨i, List.mem_range.mpr hi, rfl⟩

/-- No reduce task is without a name. -/
theorem lookup_makeReduceTasks_empty (nobody : W) (nReduce : ℕ) :
    (makeReduceTasks nobody nReduce).lookup "" = none := by
  cases hlookup : (makeReduceTasks nobody nReduce).lookup "" with
  | none => rfl
  | some task =>
    obtain ⟨i, -, heq⟩ := List.mem_map.mp
      ((Table.lookup_ofList (nodup_reduceNames nobody nReduce)).mp hlookup)
    exact absurd (congrArg Prod.fst heq) Nat.repr_ne_empty

end ExchangeLabs.MapReduce
