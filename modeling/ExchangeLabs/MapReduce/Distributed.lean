import ExchangeLabs.Lib.Run
import ExchangeLabs.MapReduce.Task

/-!
# The distributed coordinator

The coordinator of the distributed version and its clients.  Workers have addresses,
and the coordinator knows them: it records which worker has which task, takes back
the tasks of a worker that is down, and answers every call of `GetTask` with the
addresses of the workers that have the map tasks, from which the output of these
tasks is fetched.

As on one machine, a step is one method under the lock, or what a call of `GetTask`
does from one `Wait` to the next.

## Main definitions

* `Coordinator` — the code: `getTask`, `updateTaskStatus`, `healthMonitor`,
  `rescheduler`, `healthCheck`, `hardReset`, `softReset`, `reportFailure`, `done`.
* `System`, `Event`, `step` — the coordinator with its clients.
-/

namespace ExchangeLabs.MapReduce.Distributed

/-! ### The coordinator -/

structure WorkerInfor where
  workerAddress : String
  lastReportedTime : ℕ
  workerDown : Bool
  deriving DecidableEq

structure Coordinator where
  /-- An `assignedWorker` that is `""` is nobody. -/
  mapTasks : Tasks String
  reduceTasks : Tasks String
  mapRemaining : ℤ
  reduceRemaining : ℤ
  numbeOfReduce : ℕ
  workerMap : Table String WorkerInfor
  mergedOutput : Bool
  deriving DecidableEq

def makeCoordinator (files : List String) (nReduce : ℕ) : Coordinator where
  mapTasks := makeMapTasks "" files
  reduceTasks := makeReduceTasks "" nReduce
  mapRemaining := files.length
  reduceRemaining := nReduce
  numbeOfReduce := nReduce
  workerMap := ∅
  mergedOutput := false

/-- What comes of a pass of `Rescheduler` or `HealthMonitor`. -/
structure Pass where
  coordinator : Coordinator
  /-- There was a `Broadcast`. -/
  woke : Bool
  /-- There is another pass. -/
  again : Bool

namespace Coordinator

/-- The address book that `GetTask` makes first of all. -/
def locations (c : Coordinator) : List String :=
  c.mapTasks.entries.foldl (fun locations task =>
      if task.1 ≠ "" ∧ task.2.assignedWorker ≠ "" then
        locations.set task.2.number task.2.assignedWorker
      else locations)
    (List.replicate c.mapTasks.entries.length "")

/-- The loop of `GetTask` over reduce tasks, up to a return or a `Wait`. -/
def reduceLoop (c : Coordinator) (now : ℕ) (picks : Picks) (locations : List String) :
    Option (Coordinator × Progress) :=
  (takeTask now picks.reduce c.reduceTasks).map fun (reduceTask, numberOfReduceTask, reduceTasks) =>
    let c' := { c with reduceTasks := reduceTasks }
    if reduceTask = "" then
      if c.reduceRemaining = 0 then
        (c', .answered <| .ok
          { name := "", number := -1, partitionNumber := 0, type := .wait,
            mapAddresses := locations })
      else (c', .blocked .reduce)
    else
      (c', .answered <| .ok
        { name := reduceTask, number := numberOfReduceTask, partitionNumber := 0, type := .reduce,
          mapAddresses := locations })

/-- `GetTask` from the check of `reduceRemaining` on. -/
def reduceSection (c : Coordinator) (now : ℕ) (picks : Picks) (locations : List String) :
    Option (Coordinator × Progress) :=
  if c.reduceRemaining ≠ 0 then c.reduceLoop now picks locations
  else some (c, .answered (.error noMoreTasks))

/-- The loop of `GetTask` over map tasks, up to a return or a `Wait`. -/
def mapLoop (c : Coordinator) (now : ℕ) (picks : Picks) (workerAddress : String)
    (locations : List String) : Option (Coordinator × Progress) :=
  (takeTask now picks.map c.mapTasks).bind fun (mapTask, numberOfMapTask, mapTasks) =>
    if mapTask = "" then
      let c' := { c with mapTasks := mapTasks }
      if c.mapRemaining = 0 then c'.reduceSection now picks locations
      else some (c', .blocked .map)
    else
      some ({ c with
          mapTasks := mapTasks.modify mapTask fun task =>
            { task with assignedWorker := workerAddress } },
        .answered <| .ok
          { name := mapTask, number := numberOfMapTask, partitionNumber := c.numbeOfReduce,
            type := .map, mapAddresses := locations })

def getTask (c : Coordinator) (now : ℕ) (picks : Picks) (workerAddress : String) :
    Option (Coordinator × Progress) :=
  if c.mapRemaining ≠ 0 then c.mapLoop now picks workerAddress c.locations
  else c.reduceSection now picks c.locations

/-- A call that waited goes on, with the locations that it made when it began. -/
def resume (c : Coordinator) (now : ℕ) (picks : Picks) (workerAddress : String)
    (locations : List String) : Loop → Option (Coordinator × Progress)
  | .map => c.mapLoop now picks workerAddress locations
  | .reduce => c.reduceLoop now picks locations

/-- The worker is known, and was heard of now. -/
def heardOf (c : Coordinator) (now : ℕ) (address : String) : Coordinator :=
  { c with
    workerMap :=
      if (c.workerMap.lookup address).isSome then
        c.workerMap.modify address fun worker =>
          { worker with lastReportedTime := now, workerDown := false }
      else
        AList.insert address
          { workerAddress := address, lastReportedTime := now, workerDown := false } c.workerMap }

def updateTaskStatus (c : Coordinator) (now : ℕ) (args : UpdateTaskStatusArgs) : Coordinator :=
  let c := c.heardOf now args.workerAddress
  if args.type = .map then
    match c.mapTasks.lookup args.name with
    | none => c
    | some _ =>
      { c with mapTasks := complete args.name c.mapTasks, mapRemaining := c.mapRemaining - 1 }
  else
    match c.reduceTasks.lookup args.name with
    | none => c
    | some _ =>
      { c with
        reduceTasks := complete args.name c.reduceTasks
        reduceRemaining := c.reduceRemaining - 1 }

def healthCheck (c : Coordinator) (now : ℕ) (address : String) : Coordinator :=
  c.heardOf now address

/-- A task that is taken back. -/
def resetTask (task : TaskMetadata String) : TaskMetadata String :=
  { task with status := .unstarted, assignedWorker := "", startTime := none }

def hardReset (c : Coordinator) (failedWorker : String) : Coordinator :=
  { c with
    mapTasks := c.mapTasks.mapVal fun _ task =>
      if task.assignedWorker = failedWorker then resetTask task else task
    mapRemaining := c.mapRemaining +
      c.mapTasks.count fun task =>
        decide (task.assignedWorker = failedWorker) && decide (task.status = .completed) }

def softReset (c : Coordinator) (failedWorker : String) : Coordinator :=
  { c with
    reduceTasks := c.reduceTasks.mapVal fun _ task =>
      if task.assignedWorker = failedWorker ∧ task.status = .inprogress then resetTask task
      else task }

def reportFailure (c : Coordinator) (failedWorker : String) : Coordinator :=
  let c := { c with
    workerMap := c.workerMap.modify failedWorker fun worker => { worker with workerDown := true } }
  (c.hardReset failedWorker).softReset failedWorker

/-- A worker that has not been heard of for more than four seconds is taken off. -/
def takeOff (c : Coordinator) (address : String) : Coordinator :=
  let c := (c.hardReset address).softReset address
  { c with workerMap := c.workerMap.erase address }

/-- The addresses that a pass of `HealthMonitor` finds silent. -/
def silent (c : Coordinator) (clock : String → ℕ) : List String :=
  (c.workerMap.entries.filter fun worker =>
    decide (clock worker.1 - worker.2.lastReportedTime > 4 * second)).map Sigma.fst

/-- One pass of `HealthMonitor`.  In what order it finds the workers does not matter. -/
def healthMonitor (c : Coordinator) (clock : String → ℕ) : Pass where
  coordinator := (c.silent clock).foldl takeOff c
  woke := !(c.silent clock).isEmpty
  again := true

/-- One pass of `Rescheduler`. -/
def rescheduler (c : Coordinator) (clock : String → ℕ) : Pass :=
  if c.mapRemaining ≠ 0 then
    { coordinator := { c with mapTasks := expire "" clock c.mapTasks }
      woke := anyTimedOut clock c.mapTasks
      again := true }
  else if c.reduceRemaining ≠ 0 then
    { coordinator := { c with reduceTasks := expire "" clock c.reduceTasks }
      woke := true
      again := true }
  else { coordinator := c, woke := true, again := false }

/-- What `Done` returns, and the coordinator after it. -/
def done (c : Coordinator) : Bool × Coordinator :=
  if c.reduceRemaining = 0 then (true, { c with mergedOutput := true })
  else (decide (c.mapRemaining = 0 ∧ c.reduceRemaining = 0), c)

end Coordinator

/-! ### The system -/

/-- A call of `GetTask` that waits. -/
structure Call where
  workerAddress : String
  locations : List String
  loop : Loop
  /-- There was a `Broadcast` since it began to wait. -/
  woken : Bool

/-- A task that a worker was handed; to wait is a task without a name. -/
structure Handout where
  worker : String
  type : TaskType
  name : String
  deriving DecidableEq

structure System where
  coordinator : Coordinator
  now : ℕ
  /-- `Rescheduler` has not ended. -/
  rescheduling : Bool
  waiting : List Call
  /-- What the workers have been handed and have not reported. -/
  handouts : List Handout
  /-- What they have reported. -/
  reports : List Handout
  /-- The worker that has got an answer from `GetTask` in the last step, and the answer. -/
  answer : Option (String × Except String GetTaskReply)

inductive Event
  /-- Time passes. -/
  | tick (d : ℕ)
  /-- A worker calls `GetTask`. -/
  | getTask (workerAddress : String) (picks : Picks)
  /-- The `i`-th call that waits goes on. -/
  | resume (i : ℕ) (picks : Picks)
  /-- A worker reports a task that it was handed. -/
  | report (handout : Handout)
  | healthCheck (workerAddress : String)
  | reportFailure (failedWorker : String)
  /-- A pass of `Rescheduler`, which reads the clock `delay name` late for a task. -/
  | reschedule (delay : String → ℕ)
  /-- A pass of `HealthMonitor`, which reads the clock `delay address` late for a worker. -/
  | monitor (delay : String → ℕ)
  /-- The main program calls `Done`. -/
  | done

def Handout.ofReply (worker : String) (reply : GetTaskReply) : Handout where
  worker := worker
  type := reply.type
  name := reply.name

/-- The arguments of `CallUpdateTaskStatus` in `Worker`: what is not a map task is
reported as a reduce task, without an address. -/
def Handout.args (handout : Handout) : UpdateTaskStatusArgs :=
  if handout.type = .map then
    { name := handout.name, type := .map, workerAddress := handout.worker }
  else { name := handout.name, type := .reduce, workerAddress := "" }

namespace System

def make (files : List String) (nReduce : ℕ) : System where
  coordinator := makeCoordinator files nReduce
  now := 0
  rescheduling := true
  waiting := []
  handouts := []
  reports := []
  answer := none

/-- A call has returned, or waits. -/
def settle (s : System) (workerAddress : String) (locations : List String) :
    Coordinator × Progress → System
  | (c, .answered reply) =>
    { s with
      coordinator := c
      handouts := match reply with
        | .ok reply => .ofReply workerAddress reply :: s.handouts
        | .error _ => s.handouts
      answer := some (workerAddress, reply) }
  | (c, .blocked loop) =>
    { s with
      coordinator := c
      waiting := s.waiting ++
        [{ workerAddress := workerAddress, locations := locations, loop := loop, woken := false }]
      answer := none }

def broadcast (calls : List Call) : List Call := calls.map fun call => { call with woken := true }

/-- A method has run that answers no call of `GetTask`; `woke` if it made a `Broadcast`. -/
def update (s : System) (c : Coordinator) (woke : Bool) : System :=
  { s with
    coordinator := c
    waiting := if woke then broadcast s.waiting else s.waiting
    answer := none }

def step (s : System) : Event → Option System
  | .tick d => some { s with now := s.now + d, answer := none }
  | .getTask workerAddress picks =>
    (s.coordinator.getTask s.now picks workerAddress).map
      (s.settle workerAddress s.coordinator.locations)
  | .resume i picks =>
    match s.waiting[i]? with
    | none => none
    | some call =>
      if call.woken then
        (s.coordinator.resume s.now picks call.workerAddress call.locations call.loop).map
          ({ s with waiting := s.waiting.eraseIdx i }.settle call.workerAddress call.locations)
      else none
  | .report handout =>
    if handout ∈ s.handouts then
      some { s.update (s.coordinator.updateTaskStatus s.now handout.args) false with
        handouts := s.handouts.erase handout
        reports := handout :: s.reports }
    else none
  | .healthCheck workerAddress =>
    some (s.update (s.coordinator.healthCheck s.now workerAddress) false)
  | .reportFailure failedWorker => some (s.update (s.coordinator.reportFailure failedWorker) true)
  | .reschedule delay =>
    if s.rescheduling then
      let pass := s.coordinator.rescheduler fun name => s.now + delay name
      some { s.update pass.coordinator pass.woke with rescheduling := pass.again }
    else none
  | .monitor delay =>
    let pass := s.coordinator.healthMonitor fun address => s.now + delay address
    some (s.update pass.coordinator pass.woke)
  | .done => some (s.update s.coordinator.done.2 false)

end System

end ExchangeLabs.MapReduce.Distributed
