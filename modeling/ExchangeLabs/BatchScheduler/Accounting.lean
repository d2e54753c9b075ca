import ExchangeLabs.BatchScheduler.System

/-!
# What the counters of the bus count

Every counter and semaphore of the bus is a number of threads at certain places.
This holds in every run, whatever goes wrong in it otherwise.

## Main definitions

* `Phase.critical`, `Phase.slot`, `Phase.aboard`, `Phase.counted`, ... — what a
  thread at a place stands for.
* `System.owed s kind` — the wake-ups given to tasks of a kind that have not been used.
* `System.Counted` — every counter is the number that it stands for.

## Main results

* `counted_of_reach` — **the counters are right in every reachable state.**
* `aboard_le_of_reach` — never are there more tasks on the bus than slots.
* `toWake_eq_unsigned` — `MIN` on machine integers is what `toWake` says.
-/

namespace ExchangeLabs.BatchScheduler

/-! ### The comparison in `wakeup_waiting_task` -/

/-- An `int` read as an `unsigned int`. -/
def asUnsigned (x : ℤ) : ℤ := x % 2 ^ 32

/-- An `unsigned int` read as an `int`. -/
def asInt (x : ℤ) : ℤ := if x < 2 ^ 31 then x else x - 2 ^ 32

/-- **`MIN(empty_bus_slots, waiting)`** compares an `int` with an `unsigned int`, so that all
waiting tasks are woken if more slots are promised than there are. -/
theorem toWake_eq_unsigned {b : Bus} {kind : Task}
    (hempty : -2 ^ 31 ≤ b.emptyBusSlots ∧ b.emptyBusSlots < 2 ^ 31)
    (htasks : 0 ≤ b.tasks kind ∧ b.tasks kind < 2 ^ 31) :
    (b.toWake kind : ℤ) = asInt
      (if asUnsigned b.emptyBusSlots < asUnsigned (b.tasks kind) then asUnsigned b.emptyBusSlots
        else asUnsigned (b.tasks kind)) := by
  obtain ⟨hlow, hhigh⟩ := hempty
  obtain ⟨hpos, hlt⟩ := htasks
  have hkind : asUnsigned (b.tasks kind) = b.tasks kind := by
    unfold asUnsigned
    omega
  rw [hkind]
  unfold Bus.toWake
  split
  · next hneg =>
    -- a negative number of slots wraps around to at least 2 ^ 31
    have hslots : asUnsigned b.emptyBusSlots = b.emptyBusSlots + 2 ^ 32 := by
      unfold asUnsigned
      omega
    rw [hslots, if_neg (by omega), asInt, if_pos hlt]
    omega
  · next hneg =>
    have hslots : asUnsigned b.emptyBusSlots = b.emptyBusSlots := by
      unfold asUnsigned
      omega
    rw [hslots]
    split
    · rw [asInt, if_pos hhigh]
      omega
    · rw [asInt, if_pos hlt]
      omega

/-! ### What `release_slot` counts -/

namespace Bus

theorem toWake_pos {b : Bus} (kind : Task) :
    0 < b.toWake kind ↔ b.emptyBusSlots ≠ 0 ∧ 0 < b.tasks kind := by
  unfold toWake
  split <;> omega

/-- A call leaves the slots that it does not promise. -/
theorem emptyBusSlots_wakeupWaitingTask (b : Bus) (kind : Task) :
    (b.wakeupWaitingTask kind).1.emptyBusSlots = b.emptyBusSlots - b.toWake kind := by
  simp only [wakeupWaitingTask, emptyBusSlots]
  omega

/-- How many normal tasks the block of `release_slot` for a direction wakes. -/
def wakeNormal (b : Bus) (d : Direction) : ℕ :=
  if b.tasks ⟨d.other, .priority⟩ = 0 then
    (b.wakeupWaitingTask ⟨d, .priority⟩).1.toWake ⟨d, .normal⟩
  else 0

theorem wakeDirection_skip {b : Bus} {d : Direction} (h : b.busDirection = some d.other) :
    b.wakeDirection d = (b, []) := if_pos h

theorem wakeDirection_eq {b : Bus} {d : Direction} (h : b.busDirection ≠ some d.other) :
    b.wakeDirection d =
      (⟨if b.toWake ⟨d, .priority⟩ + b.wakeNormal d > 0 then some d else b.busDirection,
        b.taskOnBus,
        b.waitingTask + b.toWake ⟨d, .priority⟩ + b.wakeNormal d, b.tasks⟩,
      List.replicate (b.toWake ⟨d, .priority⟩) ⟨d, .priority⟩ ++
        List.replicate (b.wakeNormal d) ⟨d, .normal⟩) := by
  unfold wakeDirection wakeNormal
  rw [if_neg h]
  by_cases hother : b.tasks ⟨d.other, .priority⟩ = 0
  · simp only [if_pos hother, wakeupWaitingTask]
    split <;> rfl
  · simp only [if_neg hother, wakeupWaitingTask]
    split <;> simp

theorem wakeDirection_frame (d : Direction) (b : Bus) :
    (b.wakeDirection d).1.taskOnBus = b.taskOnBus ∧ (b.wakeDirection d).1.tasks = b.tasks ∧
      (b.wakeDirection d).1.waitingTask = b.waitingTask + (b.wakeDirection d).2.length := by
  by_cases h : b.busDirection = some d.other
  · simp [wakeDirection_skip h]
  · rw [wakeDirection_eq h]
    refine ⟨rfl, rfl, ?_⟩
    rw [List.length_append, List.length_replicate, List.length_replicate]
    dsimp only
    omega

/-- The counters with -1 for the direction if nobody is left on the bus. -/
def idle (b : Bus) : Bus := if b.taskOnBus = 0 then { b with busDirection := none } else b

theorem idle_frame (b : Bus) :
    b.idle.taskOnBus = b.taskOnBus ∧ b.idle.tasks = b.tasks ∧
      b.idle.waitingTask = b.waitingTask := by
  unfold idle
  split <;> exact ⟨rfl, rfl, rfl⟩

@[simp] theorem tasks_idle (b : Bus) : b.idle.tasks = b.tasks := b.idle_frame.2.1

@[simp] theorem emptyBusSlots_idle (b : Bus) : b.idle.emptyBusSlots = b.emptyBusSlots := by
  obtain ⟨haboard, -, hwaiting⟩ := b.idle_frame
  unfold emptyBusSlots
  rw [haboard, hwaiting]

theorem releaseWakes_eq (b : Bus) :
    b.releaseWakes = (((b.idle.wakeDirection .send).1.wakeDirection .receive).1,
      (b.idle.wakeDirection .send).2 ++
        ((b.idle.wakeDirection .send).1.wakeDirection .receive).2) :=
  rfl

theorem releaseWakes_frame (b : Bus) :
    b.releaseWakes.1.taskOnBus = b.taskOnBus ∧ b.releaseWakes.1.tasks = b.tasks ∧
      b.releaseWakes.1.waitingTask = b.waitingTask + b.releaseWakes.2.length := by
  obtain ⟨hidle, hidle', hidle''⟩ := b.idle_frame
  obtain ⟨hsend, hsend', hsend''⟩ := wakeDirection_frame .send b.idle
  obtain ⟨hrecv, hrecv', hrecv''⟩ := wakeDirection_frame .receive (b.idle.wakeDirection .send).1
  rw [releaseWakes_eq, List.length_append]
  refine ⟨?_, ?_, ?_⟩
  · rw [hrecv, hsend, hidle]
  · rw [hrecv', hsend', hidle']
  · rw [hrecv'', hsend'', hidle'']
    omega

end Bus

/-! ### Places -/

namespace Phase

/-- Holds `mutex`. -/
def critical : Phase → ℕ
  | .parking | .boarding | .boarded | .releasing | .waking _ => 1
  | .enter | .waiting | .woken | .transfer | .finished => 0

/-- Holds one of the `bus_slots`. -/
def slot : Phase → ℕ
  | .boarded | .transfer | .releasing => 1
  | .enter | .parking | .waiting | .woken | .boarding | .waking _ | .finished => 0

/-- Is on the bus: past `sema_down(&bus_slots)` and not yet in the decrement of `release_slot`. -/
def aboard : Phase → ℕ
  | .boarded | .transfer => 1
  | .enter | .parking | .waiting | .woken | .boarding | .releasing | .waking _ | .finished => 0

/-- Is counted as a task that waits. -/
def counted : Phase → ℕ
  | .parking | .waiting | .woken => 1
  | .enter | .boarding | .boarded | .transfer | .releasing | .waking _ | .finished => 0

/-- Has yet to pass the semaphore of its kind. -/
def parked : Phase → ℕ
  | .parking | .waiting => 1
  | .enter | .woken | .boarding | .boarded | .transfer | .releasing | .waking _ | .finished => 0

/-- Has passed the semaphore of its kind and has not taken `mutex` again. -/
def called : Phase → ℕ
  | .woken => 1
  | .enter | .parking | .waiting | .boarding | .boarded | .transfer | .releasing | .waking _
  | .finished => 0

/-- Will raise the semaphore of the kind so many times. -/
def calling (kind : Task) : Phase → ℕ
  | .waking kinds => kinds.count kind
  | .enter | .parking | .waiting | .woken | .boarding | .boarded | .transfer | .releasing
  | .finished => 0

theorem aboard_le_slot (p : Phase) : p.aboard ≤ p.slot := by
  cases p <;> simp [aboard, slot]

end Phase

/-- The sum of `f` over the places of all threads. -/
def System.at (s : System) (f : Phase → ℕ) : ℕ := census (fun thread => f thread.phase) s.threads

/-- The sum of `f` over the places of the threads of one kind. -/
def System.atKind (s : System) (f : Phase → ℕ) (kind : Task) : ℕ :=
  census (fun thread => if thread.task = kind then f thread.phase else 0) s.threads

/-- The wake-ups given to tasks of a kind, or about to be given, that have not been used up: each
is counted in `waiting_task`. -/
def System.owed (s : System) (kind : Task) : ℕ :=
  s.hasTask kind + s.atKind Phase.called kind + s.at (Phase.calling kind)

/-- The sum over the four kinds. -/
def total (f : Task → ℕ) : ℕ :=
  f ⟨.send, .priority⟩ + f ⟨.send, .normal⟩ + f ⟨.receive, .priority⟩ + f ⟨.receive, .normal⟩

theorem total_add {f g h : Task → ℕ} (hsum : ∀ kind, f kind + g kind = h kind) :
    total f + total g = total h := by
  unfold total
  simp only [← hsum]
  omega

theorem le_total (f : Task → ℕ) (kind : Task) : f kind ≤ total f := by
  obtain ⟨_ | _, _ | _⟩ := kind <;> unfold total <;> omega

theorem total_one (task : Task) : total (fun kind => if task = kind then 1 else 0) = 1 := by
  obtain ⟨_ | _, _ | _⟩ := task <;> rfl

theorem total_count (kinds : List Task) : total (fun kind => kinds.count kind) = kinds.length := by
  induction kinds with
  | nil => rfl
  | cons kind kinds ih =>
    rw [List.length_cons, ← ih, ← total_one kind, Nat.add_comm]
    refine (total_add fun k => ?_).symm
    rw [List.count_cons]
    simp only [beq_iff_eq]
    omega

/-- Every counter and every semaphore is the number that it stands for. -/
structure System.Counted (s : System) : Prop where
  /-- at most one thread holds `mutex`, and it is down if one does -/
  mutex : s.mutex + s.at Phase.critical = 1
  busSlots : s.busSlots + s.at Phase.slot = busCapacity
  taskOnBus : s.bus.taskOnBus = s.at Phase.aboard
  tasks : ∀ kind, s.bus.tasks kind = s.atKind Phase.counted kind
  /-- a wake-up is counted until the task that used it has `mutex` again -/
  waitingTask : s.bus.waitingTask = total s.owed

theorem System.Counted.tasks_nonneg {s : System} (hc : s.Counted) (kind : Task) :
    0 ≤ s.bus.tasks kind := by
  rw [hc.tasks]
  omega

theorem counted_init : System.init.Counted where
  mutex := rfl
  busSlots := rfl
  taskOnBus := rfl
  tasks _ := rfl
  waitingTask := rfl

/-! ### One thread moves -/

section Move

variable {s t : System} {i : ℕ} {task : Task} {p q : Phase}

theorem at_move (f : Phase → ℕ) (hi : s.threads[i]? = some ⟨task, p⟩)
    (ht : t.threads = s.threads.set i ⟨task, q⟩) : t.at f + f p = s.at f + f q := by
  rw [System.at, ht]
  exact census_set (fun thread : Thread => f thread.phase) hi ⟨task, q⟩

theorem atKind_move (f : Phase → ℕ) (kind : Task) (hi : s.threads[i]? = some ⟨task, p⟩)
    (ht : t.threads = s.threads.set i ⟨task, q⟩) :
    t.atKind f kind + (if task = kind then f p else 0) =
      s.atKind f kind + (if task = kind then f q else 0) := by
  rw [System.atKind, ht]
  exact census_set (fun thread : Thread => if thread.task = kind then f thread.phase else 0) hi
    ⟨task, q⟩

theorem le_at (f : Phase → ℕ) (hi : s.threads[i]? = some ⟨task, p⟩) : f p ≤ s.at f :=
  le_census (fun thread : Thread => f thread.phase) hi

theorem le_atKind (f : Phase → ℕ) (hi : s.threads[i]? = some ⟨task, p⟩) :
    f p ≤ s.atKind f task := by
  have := le_census (fun thread : Thread => if thread.task = task then f thread.phase else 0) hi
  rwa [if_pos rfl] at this

/-- The wake-ups that a step of a thread uses (`g`) and gives (`h`), from the semaphores and
the thread alone. -/
theorem owed_move {g h : Task → ℕ} (hi : s.threads[i]? = some ⟨task, p⟩)
    (ht : t.threads = s.threads.set i ⟨task, q⟩)
    (howed : ∀ kind, t.hasTask kind + (if task = kind then q.called else 0) + q.calling kind +
      g kind = s.hasTask kind + (if task = kind then p.called else 0) + p.calling kind + h kind)
    (kind : Task) : t.owed kind + g kind = s.owed kind + h kind := by
  have hcalled := atKind_move Phase.called kind hi ht
  have hcalling := at_move (Phase.calling kind) hi ht
  have := howed kind
  unfold System.owed
  omega

/-- **The counters stay right** if what a step adds to each of them is what its thread comes
to stand for. -/
theorem System.Counted.move (hc : s.Counted) {g h : Task → ℕ}
    (hi : s.threads[i]? = some ⟨task, p⟩) (ht : t.threads = s.threads.set i ⟨task, q⟩)
    (howed : ∀ kind, t.owed kind + g kind = s.owed kind + h kind)
    (hmutex : t.mutex + q.critical = s.mutex + p.critical)
    (hslots : t.busSlots + q.slot = s.busSlots + p.slot)
    (haboard : t.bus.taskOnBus + p.aboard = s.bus.taskOnBus + q.aboard)
    (htasks : ∀ kind, t.bus.tasks kind + ((if task = kind then p.counted else 0 : ℕ) : ℤ) =
      s.bus.tasks kind + (if task = kind then q.counted else 0 : ℕ))
    (hwaiting : t.bus.waitingTask + total g = s.bus.waitingTask + total h) : t.Counted := by
  refine ⟨?_, ?_, ?_, ?_, ?_⟩
  · have := at_move Phase.critical hi ht
    have := hc.mutex
    omega
  · have := at_move Phase.slot hi ht
    have := hc.busSlots
    omega
  · have := at_move Phase.aboard hi ht
    have := hc.taskOnBus
    omega
  · intro kind
    have := atKind_move Phase.counted kind hi ht
    have := hc.tasks kind
    have := htasks kind
    omega
  · have hsum : total t.owed + total g = total s.owed + total h := by
      rw [total_add (h := fun kind => t.owed kind + g kind) fun kind => rfl,
        total_add (h := fun kind => s.owed kind + h kind) fun kind => rfl]
      exact congrArg total (funext howed)
    have := hc.waitingTask
    omega

end Move

/-! ### Every step -/

/-- A thread comes to life where no counter sees it. -/
theorem at_create (f : Phase → ℕ) (hf : f .enter = 0) (s : System) (task : Task) :
    System.at { s with threads := s.threads ++ [⟨task, .enter⟩] } f = s.at f := by
  simp [System.at, hf]

theorem atKind_create (f : Phase → ℕ) (hf : f .enter = 0) (s : System) (task kind : Task) :
    System.atKind { s with threads := s.threads ++ [⟨task, .enter⟩] } f kind = s.atKind f kind := by
  simp [System.atKind, hf]

/-- The wake-up that a step uses: a woken task takes `mutex`. -/
def System.used (s : System) : Event → Task → ℕ
  | .create _, _ => 0
  | .run i, kind =>
    match s.threads[i]? with
    | some ⟨task, .woken⟩ => if task = kind then 1 else 0
    | _ => 0

/-- The wake-ups that a step gives, all those of one call of `release_slot` at once. -/
def System.given (s : System) : Event → Task → ℕ
  | .create _, _ => 0
  | .run i, kind =>
    match s.threads[i]? with
    | some ⟨_, .releasing⟩ => s.bus.releaseWakes.2.count kind
    | _ => 0

theorem used_eq {s : System} {i : ℕ} {task : Task} {p : Phase}
    (hi : s.threads[i]? = some ⟨task, p⟩) :
    s.used (.run i) = fun kind => if task = kind then p.called else 0 := by
  funext kind
  cases p <;> simp [System.used, hi, Phase.called]

theorem given_releasing {s : System} {i : ℕ} {task : Task}
    (hi : s.threads[i]? = some ⟨task, .releasing⟩) :
    s.given (.run i) = fun kind => s.bus.releaseWakes.2.count kind := by
  funext kind
  simp [System.given, hi]

theorem given_eq {s : System} {i : ℕ} {task : Task} {p : Phase}
    (hi : s.threads[i]? = some ⟨task, p⟩) (hp : p ≠ .releasing) :
    s.given (.run i) = fun _ => 0 := by
  funext kind
  cases p <;> simp_all [System.given]

/-- **Wake-ups are conserved**: signals, woken tasks and pending signals turn into each other. -/
theorem Stepped.owed {s t : System} {e : Event} (h : Stepped s e t) (kind : Task) :
    t.owed kind + s.used e kind = s.owed kind + s.given e kind := by
  cases h with
  | create task =>
    show _ + 0 = _ + 0
    unfold System.owed
    rw [at_create _ rfl, atKind_create _ rfl]
  | hear i task hi hsem =>
    -- a signal of the semaphore becomes a woken task
    refine owed_move (q := .woken) hi rfl (fun kind => ?_) kind
    by_cases hk : task = kind
    · subst hk
      simp only [System.goto, Phase.called, Phase.calling, Function.update_self, if_pos,
        System.used, System.given, hi]
      omega
    · simp [System.goto, Phase.calling, System.used, System.given, hi, hk, Ne.symm hk]
  | wake i task kind' kinds hi =>
    -- a pending signal becomes one of the semaphore
    refine owed_move (q := .waking kinds) hi rfl (fun kind => ?_) kind
    by_cases hk : kind' = kind
    · subst hk
      simp only [System.goto, Phase.called, Phase.calling, Function.update_self,
        List.count_cons_self, System.used, System.given, hi]
      omega
    · simp [System.goto, Phase.called, Phase.calling, System.used, System.given, hi, hk, Ne.symm hk]
  | wait i task hi | proceed i task hi | park i task hi | board i task hi | depart i task hi
  | arrive i task hi | finish i task hi | retake i task hi | release i task hi =>
    refine owed_move hi rfl (fun kind => ?_) kind
    simp [System.goto, Phase.called, Phase.calling, System.used, System.given, hi]

theorem System.Counted.create {s : System} (hc : s.Counted) (task : Task) :
    System.Counted { s with threads := s.threads ++ [⟨task, .enter⟩] } := by
  refine ⟨?_, ?_, ?_, ?_, ?_⟩
  · rw [at_create _ rfl]
    exact hc.mutex
  · rw [at_create _ rfl]
    exact hc.busSlots
  · rw [at_create _ rfl]
    exact hc.taskOnBus
  · intro kind
    rw [atKind_create _ rfl]
    exact hc.tasks kind
  · rw [hc.waitingTask]
    exact congrArg _ (congrArg total (funext fun kind => ((Stepped.create task).owed kind).symm))

theorem System.Counted.step {s s' : System} {e : Event} (hc : s.Counted) (h : Stepped s e s') :
    s'.Counted := by
  have howed := h.owed
  cases h with
  | create task => exact hc.create task
  | wait i task hi hmutex hwait =>
    refine hc.move hi rfl howed ?_ rfl rfl ?_ ?_
    · simp only [System.goto, Phase.critical]
      omega
    · intro kind
      by_cases hk : task = kind
      · subst hk
        simp [System.goto, Phase.counted]
      · simp [System.goto, hk, Ne.symm hk]
    · simp [used_eq hi, given_eq hi, total, Phase.called, System.goto]
  | proceed i task hi hmutex hwait =>
    refine hc.move hi rfl howed ?_ rfl rfl ?_ ?_
    · simp only [System.goto, Phase.critical]
      omega
    · simp [System.goto, Phase.counted]
    · simp [used_eq hi, given_eq hi, total, Phase.called, System.goto]
  | retake i task hi hmutex =>
    refine hc.move hi rfl howed ?_ rfl rfl ?_ ?_
    · simp only [System.goto, Phase.critical]
      omega
    · intro kind
      by_cases hk : task = kind
      · subst hk
        simp [System.goto, Phase.counted]
      · simp [System.goto, hk, Ne.symm hk]
    · rw [used_eq hi, given_eq hi (by simp)]
      have := total_one task
      simp only [System.goto, Phase.called, total] at this ⊢
      omega
  | board i task hi hslots =>
    refine hc.move hi rfl howed rfl ?_ ?_ ?_ ?_
    · simp only [System.goto, Phase.slot]
      omega
    · simp only [System.goto, Phase.aboard]
      omega
    · simp [System.goto, Phase.counted]
    · simp [used_eq hi, given_eq hi, total, Phase.called, System.goto]
  | arrive i task hi hmutex =>
    refine hc.move hi rfl howed ?_ rfl ?_ ?_ ?_
    · simp only [System.goto, Phase.critical]
      omega
    · simp only [System.goto, Phase.aboard]
      omega
    · simp [System.goto, Phase.counted]
    · simp [used_eq hi, given_eq hi, total, Phase.called, System.goto]
  -- the wake-ups that `release_slot` promises are given one by one later
  | release i task hi =>
    obtain ⟨haboard, htasks, hwaiting⟩ := s.bus.releaseWakes_frame
    refine hc.move hi rfl howed rfl rfl ?_ ?_ ?_
    · simp [System.goto, Phase.aboard, haboard]
    · simp [System.goto, Phase.counted, htasks]
    · rw [given_releasing hi, total_count]
      simpa [used_eq hi, Phase.called, System.goto, total] using hwaiting
  | park i task hi | depart i task hi | wake i task kind kinds hi | finish i task hi
  | hear i task hi hsem =>
    refine hc.move hi rfl howed rfl rfl rfl ?_ ?_
    · simp [System.goto, Phase.counted]
    · simp [used_eq hi, given_eq hi, total, Phase.called, System.goto]

/-- **The counters are right in every reachable state.** -/
theorem counted_of_reach {ok : System → Event → Prop} {s : System}
    (hs : ReachWhile step ok System.init s) : s.Counted :=
  hs.invariant counted_init fun _ _ _ ht _ hstep => ht.step (stepped_of_step hstep)

/-- **The bus is never over its capacity**, whatever else goes wrong. -/
theorem aboard_le_of_reach {ok : System → Event → Prop} {s : System}
    (hs : ReachWhile step ok System.init s) : s.at Phase.aboard ≤ busCapacity := by
  have hslots := (counted_of_reach hs).busSlots
  have : s.at Phase.aboard ≤ s.at Phase.slot :=
    census_mono (fun thread => thread.phase.aboard_le_slot) _
  omega

/-- **Exclusion**: at most one thread holds `mutex`. -/
theorem System.Counted.critical_unique {s : System} (hc : s.Counted) {i j : ℕ} {a b : Thread}
    (hi : s.threads[i]? = some a) (hj : s.threads[j]? = some b) (ha : 0 < a.phase.critical)
    (hb : 0 < b.phase.critical) : i = j := by
  have hle : s.at Phase.critical ≤ 1 := by
    have := hc.mutex
    omega
  exact eq_of_census_le_one hle hi hj ha hb

end ExchangeLabs.BatchScheduler
