import ExchangeLabs.Lib.Run
import ExchangeLabs.Lib.Census
import Mathlib.Algebra.Group.Int.Defs
import Mathlib.Data.Int.Basic

/-!
# The batch scheduler

A half-duplex bus with `BUS_CAPACITY` slots and two priorities.  A task is a thread
that calls `get_slot`, `transfer_data` and `release_slot`.  One step of a thread is
one semaphore operation, with the code up to the next one: all other variables are
read and written by the thread that holds `mutex` only.

`release_slot` raises its semaphores one at a time.  As nobody reads the counters before
it gives `mutex` back, what it counts and decides is a function of the counters at once,
and the thread goes on with the list of semaphores it has yet to raise.

## Main definitions

* `Bus` — the counters and the direction; `Bus.mustWait`, `Bus.wakeupWaitingTask`,
  `Bus.releaseWakes` are what the code computes from them.
* `Phase` — the semaphore operation a thread is about to make.
* `System`, `Event`, `step` — all threads, one step of one of them.

## Main results

* `stepped_of_step` — what a step can do.
-/

namespace ExchangeLabs.BatchScheduler

inductive Direction
  | send
  | receive
  deriving DecidableEq, Repr

def Direction.other : Direction → Direction
  | .send => .receive
  | .receive => .send

theorem Direction.eq_or_eq_other (d d' : Direction) : d = d' ∨ d = d'.other := by
  cases d <;> cases d' <;> simp [other]

@[simp] theorem Direction.other_ne (d : Direction) : d.other ≠ d := by cases d <;> simp [other]

@[simp] theorem Direction.other_other (d : Direction) : d.other.other = d := by cases d <;> rfl

inductive Priority
  | normal
  | priority
  deriving DecidableEq, Repr

/-- A task.  Each of the four kinds has a counter and a semaphore to wait on, which
are indexed by the kind. -/
structure Task where
  direction : Direction
  priority : Priority
  deriving DecidableEq, Repr

def busCapacity : ℕ := 3

/-- The variables that `mutex` protects; `busDirection` is `none` for -1. -/
structure Bus where
  busDirection : Option Direction
  taskOnBus : ℤ
  waitingTask : ℤ
  /-- `send_task`, `receiver_task`, `send_priority_task` and `recv_priority_task` -/
  tasks : Task → ℤ

namespace Bus

abbrev sendTask (b : Bus) : ℤ := b.tasks ⟨.send, .normal⟩

abbrev receiverTask (b : Bus) : ℤ := b.tasks ⟨.receive, .normal⟩

abbrev sendPriorityTask (b : Bus) : ℤ := b.tasks ⟨.send, .priority⟩

abbrev recvPriorityTask (b : Bus) : ℤ := b.tasks ⟨.receive, .priority⟩

def init : Bus := ⟨none, 0, 0, fun _ => 0⟩

/-- The test that `get_slot` makes on entry. -/
def mustWait (b : Bus) (task : Task) : Bool :=
  if b.taskOnBus ≥ busCapacity then true
  else if b.busDirection ≠ none ∧ b.busDirection ≠ some task.direction then true
  else if task.priority = .normal then
    if task.direction = .send ∧ b.sendPriorityTask > 0 then true
    else if task.direction = .receive ∧ b.recvPriorityTask > 0 then true
    else false
  else false

/-- The slots that are neither used nor promised, below zero if more are promised than there are. -/
def emptyBusSlots (b : Bus) : ℤ := busCapacity - b.taskOnBus - b.waitingTask

/-- How many tasks of a kind `wakeup_waiting_task` wakes.  `MIN` compares as `unsigned`,
where a number below zero is larger than every count. -/
def toWake (b : Bus) (kind : Task) : ℕ :=
  if b.emptyBusSlots < 0 then (b.tasks kind).toNat
  else (min b.emptyBusSlots (b.tasks kind)).toNat

/-- `wakeup_waiting_task`: the counters after it and the number it returns. -/
def wakeupWaitingTask (b : Bus) (kind : Task) : Bus × ℕ :=
  ({ b with waitingTask := b.waitingTask + b.toWake kind }, b.toWake kind)

/-- One of the two blocks `if(bus_direction != ...)` of `release_slot`: the counters after it
and the semaphores it raises. -/
def wakeDirection (d : Direction) (b : Bus) : Bus × List Task :=
  if b.busDirection = some d.other then (b, [])
  else
    let first := b.wakeupWaitingTask ⟨d, .priority⟩
    let second :=
      if b.tasks ⟨d.other, .priority⟩ = 0 then first.1.wakeupWaitingTask ⟨d, .normal⟩
      else (first.1, 0)
    (if first.2 + second.2 > 0 then { second.1 with busDirection := some d } else second.1,
      List.replicate first.2 ⟨d, .priority⟩ ++ List.replicate second.2 ⟨d, .normal⟩)

/-- `release_slot` from `if(task_on_bus == 0)` on. -/
def releaseWakes (b : Bus) : Bus × List Task :=
  let idle := if b.taskOnBus = 0 then { b with busDirection := none } else b
  let senders := idle.wakeDirection .send
  let receivers := senders.1.wakeDirection .receive
  (receivers.1, senders.2 ++ receivers.2)

end Bus

/-- The semaphore operation that a thread makes next. -/
inductive Phase
  /-- `get_slot`: down on `mutex` -/
  | enter
  /-- `wait_to_be_onboard`: up on `mutex`, with the task counted -/
  | parking
  /-- `wait_to_be_onboard`: down on the semaphore of the kind -/
  | waiting
  /-- `wait_to_be_onboard`: down on `mutex` -/
  | woken
  /-- `get_slot`: down on `bus_slots` -/
  | boarding
  /-- `get_slot`: up on `mutex` -/
  | boarded
  /-- `transfer_data`, and then `release_slot`: down on `mutex` -/
  | transfer
  /-- `release_slot`: up on `bus_slots` -/
  | releasing
  /-- `release_slot`: up on the semaphores of these kinds, and at the end on `mutex` -/
  | waking (kinds : List Task)
  | finished
  deriving DecidableEq, Repr

structure Thread where
  task : Task
  phase : Phase
  deriving DecidableEq, Repr

structure System where
  bus : Bus
  busSlots : ℕ
  mutex : ℕ
  /-- `has_sender_semaphore` and the other three -/
  hasTask : Task → ℕ
  threads : List Thread

/-- `init_bus` -/
def System.init : System := ⟨Bus.init, busCapacity, 1, fun _ => 0, []⟩

/-- The thread `i`, which runs `task`, goes on to `phase`. -/
def System.goto (s : System) (i : ℕ) (task : Task) (phase : Phase) : System :=
  { s with threads := s.threads.set i ⟨task, phase⟩ }

inductive Event
  /-- `thread_create` with `run_task` -/
  | create (task : Task)
  | run (i : ℕ)
  deriving DecidableEq, Repr

/-- One semaphore operation of the thread `i` and the code up to the next.  `sema_down`
blocks on zero. -/
def System.runTask (s : System) (i : ℕ) (task : Task) : Phase → Option System
  | .enter =>
    if s.mutex = 0 then none
    else if s.bus.mustWait task then
      some <| System.goto { s with
        mutex := s.mutex - 1
        bus := { s.bus with tasks := Function.update s.bus.tasks task (s.bus.tasks task + 1) } }
          i task .parking
    else some <| System.goto { s with mutex := s.mutex - 1 } i task .boarding
  | .parking => some <| System.goto { s with mutex := s.mutex + 1 } i task .waiting
  -- blocks until a task that leaves the bus calls one of its kind
  | .waiting =>
    if s.hasTask task = 0 then none
    else
      some <| System.goto { s with
        hasTask := Function.update s.hasTask task (s.hasTask task - 1) } i task .woken
  | .woken =>
    if s.mutex = 0 then none
    else
      some <| System.goto { s with
        mutex := s.mutex - 1
        bus := { s.bus with
          tasks := Function.update s.bus.tasks task (s.bus.tasks task - 1)
          waitingTask := s.bus.waitingTask - 1 } } i task .boarding
  | .boarding =>
    if s.busSlots = 0 then none
    else
      some <| System.goto { s with
        busSlots := s.busSlots - 1
        bus := { s.bus with
          taskOnBus := s.bus.taskOnBus + 1
          busDirection := some task.direction } } i task .boarded
  | .boarded => some <| System.goto { s with mutex := s.mutex + 1 } i task .transfer
  | .transfer =>
    if s.mutex = 0 then none
    else
      some <| System.goto { s with
        mutex := s.mutex - 1
        bus := { s.bus with taskOnBus := s.bus.taskOnBus - 1 } } i task .releasing
  | .releasing =>
    some <| System.goto { s with
      busSlots := s.busSlots + 1
      bus := s.bus.releaseWakes.1 } i task (.waking s.bus.releaseWakes.2)
  -- one signal for each task that is called
  | .waking (kind :: kinds) =>
    some <| System.goto { s with
      hasTask := Function.update s.hasTask kind (s.hasTask kind + 1) } i task (.waking kinds)
  | .waking [] => some <| System.goto { s with mutex := s.mutex + 1 } i task .finished
  | .finished => none

def step (s : System) : Event → Option System
  | .create task => some { s with threads := s.threads ++ [⟨task, .enter⟩] }
  | .run i =>
    match s.threads[i]? with
    | none => none
    | some thread => s.runTask i thread.task thread.phase

/-- What a step can do. -/
inductive Stepped (s : System) : Event → System → Prop
  | create (task : Task) :
    Stepped s (.create task) { s with threads := s.threads ++ [⟨task, .enter⟩] }
  | wait (i : ℕ) (task : Task) (hi : s.threads[i]? = some ⟨task, .enter⟩) (hmutex : 0 < s.mutex)
    (hwait : s.bus.mustWait task = true) :
    Stepped s (.run i) (System.goto { s with
      mutex := s.mutex - 1
      bus := { s.bus with tasks := Function.update s.bus.tasks task (s.bus.tasks task + 1) } }
        i task .parking)
  | proceed (i : ℕ) (task : Task) (hi : s.threads[i]? = some ⟨task, .enter⟩) (hmutex : 0 < s.mutex)
    (hwait : s.bus.mustWait task = false) :
    Stepped s (.run i) (System.goto { s with mutex := s.mutex - 1 } i task .boarding)
  | park (i : ℕ) (task : Task) (hi : s.threads[i]? = some ⟨task, .parking⟩) :
    Stepped s (.run i) (System.goto { s with mutex := s.mutex + 1 } i task .waiting)
  | hear (i : ℕ) (task : Task) (hi : s.threads[i]? = some ⟨task, .waiting⟩)
    (hsem : 0 < s.hasTask task) :
    Stepped s (.run i) (System.goto { s with
      hasTask := Function.update s.hasTask task (s.hasTask task - 1) } i task .woken)
  | retake (i : ℕ) (task : Task) (hi : s.threads[i]? = some ⟨task, .woken⟩) (hmutex : 0 < s.mutex) :
    Stepped s (.run i) (System.goto { s with
      mutex := s.mutex - 1
      bus := { s.bus with
        tasks := Function.update s.bus.tasks task (s.bus.tasks task - 1)
        waitingTask := s.bus.waitingTask - 1 } } i task .boarding)
  | board (i : ℕ) (task : Task) (hi : s.threads[i]? = some ⟨task, .boarding⟩)
    (hslots : 0 < s.busSlots) :
    Stepped s (.run i) (System.goto { s with
      busSlots := s.busSlots - 1
      bus := { s.bus with
        taskOnBus := s.bus.taskOnBus + 1
        busDirection := some task.direction } } i task .boarded)
  | depart (i : ℕ) (task : Task) (hi : s.threads[i]? = some ⟨task, .boarded⟩) :
    Stepped s (.run i) (System.goto { s with mutex := s.mutex + 1 } i task .transfer)
  | arrive (i : ℕ) (task : Task) (hi : s.threads[i]? = some ⟨task, .transfer⟩)
    (hmutex : 0 < s.mutex) :
    Stepped s (.run i) (System.goto { s with
      mutex := s.mutex - 1
      bus := { s.bus with taskOnBus := s.bus.taskOnBus - 1 } } i task .releasing)
  | release (i : ℕ) (task : Task) (hi : s.threads[i]? = some ⟨task, .releasing⟩) :
    Stepped s (.run i) (System.goto { s with
      busSlots := s.busSlots + 1
      bus := s.bus.releaseWakes.1 } i task (.waking s.bus.releaseWakes.2))
  | wake (i : ℕ) (task kind : Task) (kinds : List Task)
    (hi : s.threads[i]? = some ⟨task, .waking (kind :: kinds)⟩) :
    Stepped s (.run i) (System.goto { s with
      hasTask := Function.update s.hasTask kind (s.hasTask kind + 1) } i task (.waking kinds))
  | finish (i : ℕ) (task : Task) (hi : s.threads[i]? = some ⟨task, .waking []⟩) :
    Stepped s (.run i) (System.goto { s with mutex := s.mutex + 1 } i task .finished)

theorem stepped_of_step {s s' : System} {e : Event} (h : step s e = some s') : Stepped s e s' := by
  cases e with
  | create task =>
    cases h
    exact .create task
  | run i =>
    simp only [step] at h
    split at h
    · cases h
    · next thread hi =>
      obtain ⟨task, phase⟩ := thread
      cases phase with
      | enter =>
        simp only [System.runTask] at h
        split_ifs at h with hmutex hwait
        · cases h
          exact .wait i task hi (Nat.pos_of_ne_zero hmutex) hwait
        · cases h
          exact .proceed i task hi (Nat.pos_of_ne_zero hmutex) (Bool.eq_false_iff.mpr hwait)
      | parking =>
        cases h
        exact .park i task hi
      | waiting =>
        simp only [System.runTask] at h
        split_ifs at h with hsem
        cases h
        exact .hear i task hi (Nat.pos_of_ne_zero hsem)
      | woken =>
        simp only [System.runTask] at h
        split_ifs at h with hmutex
        cases h
        exact .retake i task hi (Nat.pos_of_ne_zero hmutex)
      | boarding =>
        simp only [System.runTask] at h
        split_ifs at h with hslots
        cases h
        exact .board i task hi (Nat.pos_of_ne_zero hslots)
      | boarded =>
        cases h
        exact .depart i task hi
      | transfer =>
        simp only [System.runTask] at h
        split_ifs at h with hmutex
        cases h
        exact .arrive i task hi (Nat.pos_of_ne_zero hmutex)
      | releasing =>
        cases h
        exact .release i task hi
      | waking kinds =>
        cases kinds with
        | nil =>
          cases h
          exact .finish i task hi
        | cons kind kinds =>
          cases h
          exact .wake i task kind kinds hi
      | finished => cases h

end ExchangeLabs.BatchScheduler
