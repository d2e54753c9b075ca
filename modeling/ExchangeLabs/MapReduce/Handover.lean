import ExchangeLabs.MapReduce.Fleet

/-!
# Whoever asks is handed a task

A worker that calls `GetTask`, or whose call waits, can be handed a task as long as `Done` is
false: time passes until every task in progress has timed out, a pass of `Rescheduler` takes
them back and wakes the call, and the call finds one.

It fails for a call that waits for a reduce task while a completed map task is taken back.
The call does not return to the map tasks, `Rescheduler` does not look at the reduce tasks
while a map task remains, and `SoftReset` finds no reduce task of the worker that is down,
as `GetTask` records for map tasks only who has them.

## Main definitions

* `Coordinator.Offers c picks` — there is a task for every call of `GetTask`.
* `Fleet.Stranded f` — all live workers wait for a reduce task and none can be taken back.

## Main results

* `Fleet.notStuck_of_reach` — **nobody is stuck** after a run of steps that are in order.
* `Fleet.not_notStuck` — a run after which a live worker is stuck.
-/

namespace ExchangeLabs.MapReduce.Distributed

/-! ### A pass of `Rescheduler` after a long time -/

section Tables

variable {tasks : Tasks String} {name : String}

/-- Every task in progress has timed out at this time. -/
def Late (tasks : Tasks String) (clock : ℕ) : Prop :=
  ∀ name task, tasks.lookup name = some task → task.status = .inprogress →
    task.timedOut clock = true

/-- In the end all tasks are late. -/
theorem exists_late (tasks : Tasks String) :
    ∃ limit, ∀ clock, limit ≤ clock → Late tasks clock := by
  have hlist : ∀ l : List (Σ _ : String, TaskMetadata String), ∃ limit, ∀ e ∈ l, ∀ startTime,
      e.2.startTime = some startTime → startTime + timeOutCoefficient * second < limit := by
    intro l
    induction l with
    | nil => exact ⟨0, fun e he => by cases he⟩
    | cons e l ih =>
      obtain ⟨limit, hlimit⟩ := ih
      refine ⟨limit + (e.2.startTime.getD 0 + timeOutCoefficient * second) + 1,
        fun e' he' startTime hstart => ?_⟩
      rcases List.mem_cons.mp he' with rfl | hmem
      · rw [hstart, Option.getD_some]
        omega
      · have := hlimit e' hmem startTime hstart
        omega
  obtain ⟨limit, hlimit⟩ := hlist tasks.entries
  refine ⟨limit, fun clock hclock name task htask hstatus => ?_⟩
  unfold TaskMetadata.timedOut
  rw [hstatus]
  cases hstart : task.startTime with
  | none => rfl
  | some startTime =>
    have := hlimit ⟨name, task⟩ (Table.mem_entries.mpr htask) startTime hstart
    exact decide_eq_true (by omega)

/-- A table that is not all completed has an unstarted task after it. -/
theorem exists_unstarted_expire {now : ℕ} (hnot : ¬ AllCompleted tasks) (hlate : Late tasks now) :
    ∃ name, Unstarted (expire "" (fun _ => now) tasks) name := by
  obtain ⟨name, task, htask, hstatus⟩ : ∃ name task, tasks.lookup name = some task ∧
      task.status ≠ .completed := by
    by_contra hall
    refine hnot fun name task htask => ?_
    by_contra hne
    exact hall ⟨name, task, htask, hne⟩
  have hlookup : (expire "" (fun _ => now) tasks).lookup name =
      some (if task.timedOut now then { task with status := .unstarted, assignedWorker := "" }
        else task) := by
    unfold expire
    rw [Table.lookup_mapVal, htask]
    rfl
  refine ⟨name, unstarted_iff.mpr ⟨_, hlookup, ?_⟩⟩
  cases hs : task.status with
  | inprogress => rw [if_pos (hlate name task htask hs)]
  | completed => exact absurd hs hstatus
  | unstarted => split <;> trivial

theorem Unstarted.ne_empty (h : Unstarted tasks name) (hnone : tasks.lookup "" = none) :
    name ≠ "" := by
  rintro rfl
  rw [Unstarted, hnone] at h
  cases h

/-- An iteration can find it. -/
theorem Unstarted.takeTask (h : Unstarted tasks name) (now : ℕ) :
    ∃ number tasks', takeTask now (some name) tasks = some (name, number, tasks') := by
  obtain ⟨task, htask, hstatus⟩ := unstarted_iff.mp h
  unfold MapReduce.takeTask
  dsimp only
  rw [htask]
  dsimp only
  rw [if_pos hstatus]
  exact ⟨_, _, rfl⟩

end Tables

/-! ### A call that finds a task -/

namespace Coordinator

variable {c : Coordinator} {now : ℕ} {picks : Picks} {locations : List String} {worker : String}

/-- There is a map task to start, or all are completed and there is a reduce task to start; and
`picks` finds it. -/
def Offers (c : Coordinator) (picks : Picks) : Prop :=
  (c.mapRemaining ≠ 0 ∧ ∃ name, name ≠ "" ∧ Unstarted c.mapTasks name ∧ picks = ⟨some name, none⟩) ∨
  (c.mapRemaining = 0 ∧ AllCompleted c.mapTasks ∧ c.reduceRemaining ≠ 0 ∧
    ∃ name, name ≠ "" ∧ Unstarted c.reduceTasks name ∧ picks = ⟨none, some name⟩)

/-- The call returns with a task. -/
def Hands (r : Option (Coordinator × Progress)) : Prop :=
  ∃ c' reply, r = some (c', .answered (.ok reply)) ∧ reply.type ≠ .wait

theorem reduceLoop_hands {name : String} (hname : name ≠ "") (hopen : Unstarted c.reduceTasks name)
    (pick : Option String) : Hands (c.reduceLoop now ⟨pick, some name⟩ locations) := by
  obtain ⟨number, tasks', htake⟩ := hopen.takeTask now
  unfold reduceLoop
  dsimp only
  rw [htake, Option.map_some]
  dsimp only
  rw [if_neg hname]
  exact ⟨_, _, rfl, by simp⟩

theorem reduceSection_hands {name : String} (hremaining : c.reduceRemaining ≠ 0)
    (hname : name ≠ "") (hopen : Unstarted c.reduceTasks name) (pick : Option String) :
    Hands (c.reduceSection now ⟨pick, some name⟩ locations) := by
  unfold reduceSection
  rw [if_pos hremaining]
  exact reduceLoop_hands hname hopen pick

theorem mapLoop_hands (h : c.Offers picks) : Hands (c.mapLoop now picks worker locations) := by
  unfold mapLoop
  rcases h with ⟨-, name, hname, hopen, rfl⟩ | ⟨hzero, hall, hremaining, name, hname, hopen, rfl⟩
  · obtain ⟨number, tasks', htake⟩ := hopen.takeTask now
    dsimp only
    rw [htake, Option.bind_some]
    dsimp only
    rw [if_neg hname]
    exact ⟨_, _, rfl, by simp⟩
  · -- the iteration over the map tasks finds nothing
    have hnone : takeTask now none c.mapTasks = some ("", -1, c.mapTasks) := by
      refine if_pos (Table.count_eq_zero.mpr fun other task htask => ?_)
      rw [hall other task htask]
      rfl
    dsimp only
    rw [hnone, Option.bind_some]
    dsimp only
    rw [if_pos rfl, if_pos hzero]
    exact reduceSection_hands hremaining hname hopen none

theorem getTask_hands (h : c.Offers picks) : Hands (c.getTask now picks worker) := by
  unfold getTask
  split
  · exact mapLoop_hands h
  · next hzero =>
    obtain ⟨hne, -⟩ | ⟨-, -, hremaining, name, hname, hopen, rfl⟩ := h
    · exact absurd hne hzero
    · exact reduceSection_hands hremaining hname hopen none

theorem resume_hands {loop : Loop} (h : c.Offers picks)
    (hloop : loop = .reduce → c.mapRemaining = 0) :
    Hands (c.resume now picks worker locations loop) := by
  cases loop with
  | map => exact mapLoop_hands h
  | reduce =>
    obtain ⟨hne, -⟩ | ⟨-, -, -, name, hname, hopen, rfl⟩ := h
    · exact absurd (hloop rfl) hne
    · exact reduceLoop_hands hname hopen none

/-- A map task remains, no reduce task can be started, and `SoftReset` will take none back. -/
structure Strands (c : Coordinator) : Prop where
  mapRemaining : 0 < c.mapRemaining
  reduceRemaining : c.reduceRemaining ≠ 0
  started : ∀ name task, c.reduceTasks.lookup name = some task →
    task.status ≠ .unstarted ∧ task.assignedWorker = ""
  known : c.workerMap.lookup "" = none

theorem Strands.heardOf (h : Strands c) {address : String} (hne : address ≠ "") (now : ℕ) :
    Strands (c.heardOf now address) where
  mapRemaining := h.mapRemaining
  reduceRemaining := h.reduceRemaining
  started := h.started
  known := by
    unfold Coordinator.heardOf
    dsimp only
    split
    · rw [Table.lookup_modify_ne (Ne.symm hne)]
      exact h.known
    · rw [AList.lookup_insert_ne (Ne.symm hne)]
      exact h.known

/-- The reduce tasks are nobody's. -/
theorem Strands.reset (h : Strands c) {address : String} (hne : address ≠ "") :
    Strands ((c.hardReset address).softReset address) where
  mapRemaining :=
    Int.lt_of_lt_of_le h.mapRemaining (Int.le_add_of_nonneg_right (Int.natCast_nonneg _))
  reduceRemaining := h.reduceRemaining
  started := by
    intro name task' hlookup
    unfold softReset hardReset at hlookup
    dsimp only at hlookup
    rw [Table.lookup_mapVal] at hlookup
    obtain ⟨task, htask, rfl⟩ := Option.map_eq_some_iff.mp hlookup
    have hstarted := h.started name task htask
    rw [if_neg fun hassigned => hne (hassigned.1.symm.trans hstarted.2)]
    exact hstarted
  known := h.known

theorem Strands.reportFailure (h : Strands c) {address : String} (hne : address ≠ "") :
    Strands (c.reportFailure address) := by
  have hdown : Strands { c with
      workerMap := c.workerMap.modify address fun worker =>
        { worker with workerDown := true } } := by
    refine ⟨h.mapRemaining, h.reduceRemaining, h.started, ?_⟩
    dsimp only
    rw [Table.lookup_modify_ne (Ne.symm hne)]
    exact h.known
  exact hdown.reset hne

theorem Strands.takeOff (h : Strands c) {address : String} (hne : address ≠ "") :
    Strands (c.takeOff address) := by
  obtain ⟨hmap, hreduce, hstarted, -⟩ := h.reset hne
  refine ⟨hmap, hreduce, hstarted, ?_⟩
  unfold Coordinator.takeOff
  dsimp only
  rw [AList.lookup_erase_ne (Ne.symm hne)]
  exact h.known

theorem Strands.healthMonitor (h : Strands c) (clock : String → ℕ) :
    Strands (c.healthMonitor clock).coordinator := by
  -- an address that is watched is not the empty one
  have hsilent : ∀ address ∈ c.silent clock, address ≠ "" := by
    rintro address hmem rfl
    obtain ⟨worker, hworker, heq⟩ := List.mem_map.mp hmem
    have hlookup := Table.mem_entries.mp (List.mem_of_mem_filter hworker)
    rw [heq, h.known] at hlookup
    cases hlookup
  unfold Coordinator.healthMonitor
  dsimp only
  generalize c.silent clock = addresses at hsilent
  -- on the silent addresses, which are taken off one by one
  induction addresses generalizing c with
  | nil => exact h
  | cons address addresses ih =>
    exact ih (h.takeOff (hsilent address List.mem_cons_self))
      fun other hmem => hsilent other (List.mem_cons_of_mem _ hmem)

/-- `Rescheduler` does not look at the reduce tasks. -/
theorem Strands.rescheduler (h : Strands c) (clock : String → ℕ) :
    Strands (c.rescheduler clock).coordinator := by
  have hne : c.mapRemaining ≠ 0 := by
    have := h.mapRemaining
    omega
  unfold Coordinator.rescheduler
  rw [if_pos hne]
  exact ⟨h.mapRemaining, h.reduceRemaining, h.started, h.known⟩

/-- A call that waits for a reduce task waits on. -/
theorem Strands.reduceLoop (h : Strands c) {c' : Coordinator} {p : Progress}
    (hloop : c.reduceLoop now picks locations = some (c', p)) : c' = c ∧ p = .blocked .reduce := by
  obtain ⟨⟨name, number, reduceTasks⟩, htake, heq⟩ := Option.map_eq_some_iff.mp hloop
  -- there is no task to start, and tasks remain, so the call blocks
  rcases takeTask_cases htake with ⟨rfl, -, rfl, -⟩ | ⟨task, htask, hstatus, -⟩
  · dsimp only at heq
    rw [if_pos rfl, if_neg h.reduceRemaining] at heq
    cases heq
    exact ⟨rfl, rfl⟩
  · exact absurd hstatus (h.started name task htask).1

theorem reduceRemaining_of_done (h : c.done.1 = false) : c.reduceRemaining ≠ 0 := by
  intro hzero
  rw [done, if_pos hzero] at h
  cases h

end Coordinator

/-- After a pass of `Rescheduler` that finds all tasks in progress late there is a task for
every call. -/
theorem System.Ready.rescheduler_offers {s : System} (h : s.Ready) {now : ℕ}
    (hremaining : s.coordinator.reduceRemaining ≠ 0) (hmap : Late s.coordinator.mapTasks now)
    (hreduce : Late s.coordinator.reduceTasks now) :
    ∃ picks, (s.coordinator.rescheduler fun _ => now).coordinator.Offers picks := by
  unfold Coordinator.rescheduler
  -- in the map phase a late map task is open again, and after it a late reduce task
  split
  · next hne =>
    obtain ⟨name, hopen⟩ := exists_unstarted_expire (mt h.map.eq_zero_iff.mpr hne) hmap
    have hname := hopen.ne_empty (Remap.lookup_eq_none ⟨_, rfl⟩ h.mapNamed)
    exact ⟨_, .inl ⟨hne, name, hname, hopen, rfl⟩⟩
  · next hzero =>
    obtain ⟨name, hopen⟩ := exists_unstarted_expire (mt h.reduce.eq_zero_iff.mpr hremaining) hreduce
    have hname := hopen.ne_empty (Remap.lookup_eq_none ⟨_, rfl⟩ h.reduceNamed)
    exact ⟨_, .inr ⟨not_not.mp hzero, h.map.eq_zero_iff.mp (not_not.mp hzero), hremaining, name,
      hname, hopen, rfl⟩⟩

/-- The last pass before which no map task remains wakes all calls. -/
theorem System.woken_of_rescheduler {s : System} {clock : String → ℕ} {call : Call}
    (hzero : (s.coordinator.rescheduler clock).coordinator.mapRemaining = 0)
    (hcall : call ∈ (s.update (s.coordinator.rescheduler clock).coordinator
      (s.coordinator.rescheduler clock).woke).waiting) : call.woken = true := by
  have hwoke : (s.coordinator.rescheduler clock).woke = true := by
    rw [Coordinator.mapRemaining_rescheduler] at hzero
    unfold Coordinator.rescheduler
    rw [if_neg (not_not.mpr hzero)]
    split <;> rfl
  rw [hwoke] at hcall
  obtain ⟨old, -, rfl⟩ := List.mem_map.mp hcall
  rfl

namespace Fleet

variable {f f' : Fleet} {worker : String}

/-- Once no map task remains, every pass of `Rescheduler` wakes all calls; before, a live worker
waits for a map task only, and has been woken if there is one. -/
theorem Orderly.woken (h : Orderly f) {picks : Picks} (hoffers : f.system.coordinator.Offers picks)
    (hwoke : f.system.coordinator.mapRemaining = 0 → ∀ call ∈ f.system.waiting, call.woken = true)
    {call : Call} (hcall : call ∈ f.system.waiting)
    (hcontrol : f.control call.workerAddress = .waiting) : call.woken = true := by
  -- a map task is open, or the last pass of `Rescheduler` has woken everybody
  rcases hoffers with ⟨hne, name, -, hopen, -⟩ | ⟨hzero, -⟩
  · cases hloop : call.loop with
    | map => exact h.ready.woken name hopen call hcall hloop
    | reduce => exact absurd (h.reduce ⟨call, hcall, hloop, hcontrol⟩) hne
  · exact hwoke hzero call hcall

/-- Time passes and `Rescheduler` runs: then there is a task for every call, and the calls of
live workers have been woken. -/
theorem Orderly.refresh (h : Orderly f) (hremaining : f.system.coordinator.reduceRemaining ≠ 0) :
    ∃ f' picks, ReachWhile step Continues f f' ∧ Orderly f' ∧ f'.control = f.control ∧
      f'.system.coordinator.Offers picks ∧ ∀ call ∈ f'.system.waiting,
        f'.control call.workerAddress = .waiting → call.woken = true := by
  have hrescheduling : f.system.rescheduling = true := by
    cases hr : f.system.rescheduling with
    | true => rfl
    | false => exact absurd (h.ready.rescheduling hr) hremaining
  -- enough time passes for all tasks in progress to be late
  obtain ⟨mapLimit, hmap⟩ := exists_late f.system.coordinator.mapTasks
  obtain ⟨reduceLimit, hreduce⟩ := exists_late f.system.coordinator.reduceTasks
  obtain ⟨f₁, hf₁, htick⟩ : ∃ f₁, f.step (.tick (mapLimit + reduceLimit)) = some f₁ ∧
      f₁ = { f with system := { f.system with
        now := f.system.now + (mapLimit + reduceLimit), answer := none } } := ⟨_, rfl, rfl⟩
  have h₁ := h.of_step hf₁ trivial
  obtain ⟨f₂, hf₂, hpass⟩ : ∃ f₂, f₁.step (.reschedule fun _ => 0) = some f₂ ∧
      f₂ = { f₁ with system :=
        { f₁.system.update (f₁.system.coordinator.rescheduler fun _ => f₁.system.now).coordinator
            (f₁.system.coordinator.rescheduler fun _ => f₁.system.now).woke with
          rescheduling :=
            (f₁.system.coordinator.rescheduler fun _ => f₁.system.now).again } } := by
    refine ⟨_, ?_, rfl⟩
    have hr : f₁.system.rescheduling = true := by rw [htick]; exact hrescheduling
    change Option.map _ (if _ then _ else _) = _
    rw [if_pos hr]
    rfl
  have h₂ := h₁.of_step hf₂ trivial
  obtain ⟨picks, hoffers⟩ : ∃ picks, f₂.system.coordinator.Offers picks := by
    rw [hpass]
    refine h₁.ready.rescheduler_offers ?_ ?_ ?_ <;> rw [htick]
    · exact hremaining
    · exact hmap _ (by dsimp only; omega)
    · exact hreduce _ (by dsimp only; omega)
  -- the two steps are one way to go on
  have hreach : ReachWhile step Continues f f₂ :=
    .tail (.reschedule fun _ => 0) (.tail (.tick _) .refl trivial hf₁) trivial hf₂
  refine ⟨f₂, picks, hreach, h₂, by rw [hpass, htick], hoffers, fun call hcall hcontrol =>
    h₂.woken hoffers (fun hzero call hcall => ?_) hcall hcontrol⟩
  rw [hpass] at hzero hcall
  exact System.woken_of_rescheduler hzero hcall

/-- The worker is handed the task with which its call returns. -/
theorem serve_handed {e : Distributed.Event} {s : System} {locations : List String}
    {r : Option (Coordinator × Progress)} (hr : Coordinator.Hands r)
    (hstep : f.system.step e = r.map (s.settle worker locations)) :
    ∃ f', f.serve worker e = some f' ∧ f'.Handed worker := by
  obtain ⟨c, reply, rfl, htype⟩ := hr
  unfold serve
  rw [hstep]
  exact ⟨_, rfl, .ofReply worker reply, Function.update_self .., htype⟩

/-- Where the invariant holds, nobody is stuck. -/
theorem Orderly.notStuck (h : Orderly f) : f.NotStuck := by
  intro hdone worker hseeking
  obtain ⟨f₁, picks, hreach, h₁, hcontrol, hoffers, hwoken⟩ :=
    h.refresh (Coordinator.reduceRemaining_of_done hdone)
  rcases hseeking with hw | hw <;> rw [← hcontrol] at hw
  · -- the worker calls `GetTask`
    obtain ⟨f₂, hserve, hhanded⟩ := serve_handed (f := f₁) (e := .getTask worker picks)
      (Coordinator.getTask_hands hoffers) rfl
    have hstep : f₁.step (.getTask worker picks) = some f₂ := (if_pos hw).trans hserve
    exact ⟨f₂, .tail (.getTask worker picks) hreach trivial hstep, hhanded⟩
  · -- its call goes on
    obtain ⟨i, call, hi, rfl⟩ := h₁.exists_call hw
    have hmem := List.mem_of_getElem? hi
    have hhands : Coordinator.Hands (f₁.system.coordinator.resume f₁.system.now picks
        call.workerAddress call.locations call.loop) :=
      Coordinator.resume_hands hoffers fun hloop => h₁.reduce ⟨call, hmem, hloop, hw⟩
    obtain ⟨f₂, hserve, hhanded⟩ := serve_handed (f := f₁) (e := .resume i picks) hhands (by
      dsimp only [System.step]
      rw [hi]
      exact if_pos (hwoken call hmem hw))
    have hstep : f₁.step (.resume i picks) = some f₂ := by
      refine Option.bind_eq_some_iff.mpr ⟨call, hi, ?_⟩
      exact (if_pos hw).trans hserve
    have hcontinues : f₁.Continues (.resume i picks) := by
      intro call' hcall'
      rw [hi] at hcall'
      cases hcall'
      exact ⟨by rw [hw]; decide, by rw [hw]; decide⟩
    exact ⟨f₂, .tail _ hreach hcontinues hstep, hhanded⟩

/-- **Nobody is stuck** after a run in which no report finds its task completed and no completed
map task is taken back while a live worker waits for a reduce task. -/
theorem notStuck_of_reach {files : List String} (hfiles : files.Nodup) (hnames : "" ∉ files)
    (nReduce : ℕ) (h : ReachWhile step InOrder (make files nReduce) f) : f.NotStuck :=
  (orderly_of_reach hfiles hnames h).notStuck

/-- Worker `B` waits for the map task of `A`, which has crashed. -/
def crashedRun : List Event :=
  [.start "A", .start "B", .getTask "A" ⟨some "f", none⟩, .getTask "B" ⟨none, none⟩, .crash "A"]

theorem notStuck_crashedRun : ∃ f, run (restrict step InOrder) (make ["f"] 1) crashedRun = some f ∧
    f.system.coordinator.done.1 = false ∧ f.control "B" = .waiting ∧ f.NotStuck := by
  have hobs : (run (restrict step InOrder) (make ["f"] 1) crashedRun).map
      (fun f => (f.system.coordinator.done.1, f.control "B")) = some (false, .waiting) := by
    decide +kernel
  obtain ⟨f, hf, hval⟩ := Option.map_eq_some_iff.mp hobs
  simp only [Prod.mk.injEq] at hval
  exact ⟨f, hf, hval.1, hval.2,
    notStuck_of_reach (by decide) (by decide) 1 (reachWhile_of_run _ _ _ hf)⟩

/-! ### A call that waits for a reduce task -/

/-- All live workers wait for a reduce task while a map task remains, and no reduce task can be
started or is known to be with a worker. -/
structure Stranded (f : Fleet) : Prop where
  live : ∀ worker, f.Live worker → f.control worker = .waiting
  nobody : ¬ f.Live ""
  loops : ∀ call ∈ f.system.waiting, call.loop = .reduce
  strands : f.system.coordinator.Strands

/-- A step of the coordinator by itself. -/
theorem Stranded.update (h : Stranded f) {t : System} (hstrands : t.coordinator.Strands)
    (hwaiting : t.waiting = f.system.waiting ∨ t.waiting = System.broadcast f.system.waiting) :
    Stranded { f with system := t } where
  live := h.live
  nobody := h.nobody
  loops := by
    intro call hcall
    rcases hwaiting with heq | heq <;> dsimp only at hcall <;> rw [heq] at hcall
    · exact h.loops call hcall
    · obtain ⟨old, hold, rfl⟩ := List.mem_map.mp hcall
      exact h.loops old hold
  strands := hstrands

theorem Stranded.not_live (h : Stranded f) {control : Control} (hw : f.control worker = control)
    (hne : control ≠ .absent ∧ control ≠ .waiting ∧ control ≠ .crashed) : False := by
  subst hw
  exact hne.2.1 (h.live worker ⟨hne.1, hne.2.2⟩)

/-- A live worker's call goes on, and waits again. -/
theorem Stranded.resume (h : Stranded f) {i : ℕ} {picks : Picks} {call : Call}
    (hi : f.system.waiting[i]? = some call) (hlive : f.Live call.workerAddress)
    (hstep : f.step (.resume i picks) = some f') : Stranded f' := by
  have hw := h.live _ hlive
  obtain ⟨call', hi', hstep⟩ := Option.bind_eq_some_iff.mp hstep
  rw [hi] at hi'
  cases hi'
  rw [if_pos hw] at hstep
  obtain ⟨t, ht, rfl⟩ := Option.map_eq_some_iff.mp hstep
  obtain ⟨call', c, p, hcall', hresume, rfl⟩ := System.resume_cases ht
  rw [hi] at hcall'
  cases hcall'
  -- the call waits in the loop of the reduce tasks, which does not test the map tasks
  rw [h.loops call (List.mem_of_getElem? hi)] at hresume
  obtain ⟨rfl, rfl⟩ := h.strands.reduceLoop hresume
  -- nothing but the order of the calls has changed
  have hcontrol : Function.update f.control call.workerAddress .waiting = f.control := by
    rw [← hw]
    exact Function.update_eq_self ..
  have hafter : controlAfter call.workerAddress
      ({ f.system with waiting := f.system.waiting.eraseIdx i }.settle call.workerAddress
        call.locations (f.system.coordinator, .blocked .reduce)) = .waiting := rfl
  rw [hafter, hcontrol]
  refine ⟨h.live, h.nobody, fun call' hcall' => ?_, h.strands⟩
  rcases mem_settle hcall' with hold | ⟨-, hblocked⟩
  · exact h.loops call' ((List.eraseIdx_sublist ..).mem hold)
  · injection hblocked with hloop
    exact hloop.symm

/-- **Whatever the live workers, `Rescheduler` and `HealthMonitor` do.** -/
theorem Stranded.of_step (h : Stranded f) {e : Event} (hstep : f.step e = some f')
    (hok : f.Continues e) : Stranded f' := by
  cases e with
  | start worker => exact hok.elim
  | crash worker => exact hok.elim
  | done => exact hok.elim
  | tick d =>
    cases hstep
    exact h.update h.strands (.inl rfl)
  -- a worker that waits neither calls nor reports
  | getTask worker picks =>
    dsimp only [step] at hstep
    split at hstep
    · next hw => exact (h.not_live hw (by simp)).elim
    · cases hstep
  | resume i picks =>
    obtain ⟨call, hi, -⟩ := Option.bind_eq_some_iff.mp hstep
    exact h.resume hi (hok call hi) hstep
  | report worker | giveUp worker =>
    dsimp only [step] at hstep
    split at hstep
    · next handout hw => exact (h.not_live hw (by simp)).elim
    · cases hstep
  | healthCheck worker =>
    dsimp only [step] at hstep
    split at hstep
    · next hlive =>
      cases hstep
      have hne : worker ≠ "" := by
        rintro rfl
        exact h.nobody hlive
      exact h.update (h.strands.heardOf hne _) (.inl rfl)
    · cases hstep
  | reportFailure worker failedWorker =>
    dsimp only [step] at hstep
    split at hstep
    · next hguard =>
      cases hstep
      exact h.update (h.strands.reportFailure hguard.2) (.inr rfl)
    · cases hstep
  | reschedule delay =>
    obtain ⟨t, ht, rfl⟩ := Option.map_eq_some_iff.mp hstep
    refine h.update ?_ (System.waiting_of_step (by simp) (by simp) ht)
    obtain rfl := System.reschedule_cases ht
    exact h.strands.rescheduler _
  | monitor delay =>
    cases hstep
    exact h.update (h.strands.healthMonitor _)
      (System.waiting_of_step (s := f.system) (e := .monitor delay) (by simp) (by simp) rfl)

/-- No live worker will be handed a task. -/
theorem Stranded.not_notStuck (h : Stranded f) (hw : f.control worker = .waiting) :
    ¬ f.NotStuck := by
  intro hnot
  have hdone : f.system.coordinator.done.1 = false := by
    unfold Coordinator.done
    rw [if_neg h.strands.reduceRemaining]
    exact decide_eq_false fun hzero => h.strands.reduceRemaining hzero.2
  obtain ⟨f', hreach, handout, hcontrol, -⟩ := hnot hdone worker (.inr hw)
  -- the invariant holds of every run, and in it nobody gets a task
  have h' : Stranded f' := hreach.invariant h fun _ _ _ hinv hok hstep => hinv.of_step hstep hok
  exact h'.not_live hcontrol (by simp)

/-- A step turns one worker to something else at most, and an absent one only if it starts. -/
theorem control_cases {e : Event} (hstep : f.step e = some f') :
    f'.control = f.control ∨ ∃ worker control,
      f'.control = Function.update f.control worker control ∧
      (f.control worker = .absent → e = .start worker) := by
  have hcoordinate : ∀ {e}, f.coordinate e = some f' → f'.control = f.control := by
    intro e hstep
    obtain ⟨t, -, rfl⟩ := Option.map_eq_some_iff.mp hstep
    rfl
  cases e with
  | start worker =>
    dsimp only [step] at hstep
    split at hstep
    · cases hstep
      exact .inr ⟨worker, _, rfl, fun _ => rfl⟩
    · cases hstep
  | crash worker =>
    dsimp only [step] at hstep
    split at hstep
    · next hlive =>
      cases hstep
      exact .inr ⟨worker, _, rfl, fun habsent => absurd habsent hlive.1⟩
    · cases hstep
  | getTask worker picks =>
    dsimp only [step] at hstep
    split at hstep
    · next hw =>
      obtain ⟨t, -, rfl⟩ := Option.map_eq_some_iff.mp hstep
      exact .inr ⟨worker, _, rfl, fun habsent => by rw [hw] at habsent; cases habsent⟩
    · cases hstep
  | resume i picks =>
    obtain ⟨call, -, hrun⟩ := Option.bind_eq_some_iff.mp hstep
    split at hrun
    · next hw =>
      obtain ⟨t, -, rfl⟩ := Option.map_eq_some_iff.mp hrun
      exact .inr ⟨_, _, rfl, fun habsent => by rw [hw] at habsent; cases habsent⟩
    · exact .inl (hcoordinate hrun)
  | report worker =>
    dsimp only [step] at hstep
    split at hstep
    · next handout hw =>
      obtain ⟨t, -, rfl⟩ := Option.map_eq_some_iff.mp hstep
      exact .inr ⟨worker, _, rfl, fun habsent => by rw [hw] at habsent; cases habsent⟩
    · cases hstep
  | giveUp worker =>
    dsimp only [step] at hstep
    split at hstep
    · next handout hw =>
      split at hstep
      · cases hstep
      · cases hstep
        exact .inr ⟨worker, _, rfl, fun habsent => by rw [hw] at habsent; cases habsent⟩
    · cases hstep
  | healthCheck worker | reportFailure worker failedWorker =>
    dsimp only [step] at hstep
    split at hstep
    · exact .inl (hcoordinate hstep)
    · cases hstep
  | tick | reschedule | monitor | done => exact .inl (hcoordinate hstep)

/-- A worker that is never started is absent. -/
theorem absent_of_run {es : List Event} (hstart : ∀ e ∈ es, e ≠ .start worker)
    (h : run step f es = some f') (hw : f.control worker = .absent) :
    f'.control worker = .absent := by
  induction es generalizing f with
  | nil =>
    cases h
    exact hw
  | cons e es ih =>
    obtain ⟨f₁, hstep, hrun⟩ := Option.bind_eq_some_iff.mp h
    refine ih (fun e' he' => hstart e' (List.mem_cons_of_mem _ he')) hrun ?_
    rcases control_cases hstep with heq | ⟨other, control, heq, habsent⟩
    · rw [heq]
      exact hw
    · have hne : worker ≠ other := by
        rintro rfl
        exact hstart e List.mem_cons_self (habsent hw)
      rw [heq, Function.update_of_ne hne]
      exact hw

/-- Worker `A` has done the map task and works on the reduce task, for which `B` waits; then `A`
crashes, and `HealthMonitor` takes the map task back. -/
def strandedRun : List Event :=
  [.start "A", .start "B", .getTask "A" ⟨some "f", none⟩, .report "A",
    .getTask "A" ⟨none, some "0"⟩, .getTask "B" ⟨none, none⟩, .crash "A", .tick (5 * second),
    .monitor fun _ => 0]

/-- `B` lives and will not be handed a task, although nothing is done. -/
theorem not_notStuck : ∃ f, Reach step (make ["f"] 1) f ∧ f.system.coordinator.done.1 = false ∧
    f.control "B" = .waiting ∧ ¬ f.NotStuck := by
  have hobs : (run step (make ["f"] 1) strandedRun).map (fun f => decide (
      f.system.coordinator.done.1 = false ∧ f.control "A" = .crashed ∧ f.control "B" = .waiting ∧
        (∀ call ∈ f.system.waiting, call.loop = .reduce) ∧ 0 < f.system.coordinator.mapRemaining ∧
        f.system.coordinator.reduceRemaining ≠ 0 ∧
        (f.system.coordinator.workerMap.lookup "").isNone ∧
        ∀ e ∈ f.system.coordinator.reduceTasks.entries,
          e.2.status ≠ .unstarted ∧ e.2.assignedWorker = "")) = some true := by decide +kernel
  obtain ⟨f, hf, hval⟩ := Option.map_eq_some_iff.mp hobs
  rw [decide_eq_true_eq, Option.isNone_iff_eq_none] at hval
  obtain ⟨hdone, hA, hB, hloops, hmap, hreduce, hknown, hstarted⟩ := hval
  have habsent : ∀ worker, worker ≠ "A" → worker ≠ "B" → f.control worker = .absent := by
    intro worker hneA hneB
    refine absent_of_run (fun e he heq => ?_) hf rfl
    subst heq
    simp [strandedRun] at he
    exact he.elim hneA hneB
  have hstranded : Stranded f := by
    refine ⟨fun worker hlive => ?_, fun hlive => hlive.1 (habsent "" (by decide) (by decide)),
      hloops, hmap, hreduce, fun name task hlookup => ?_, hknown⟩
    · -- `A` has crashed, `B` waits, and nobody else has been started
      by_cases hneA : worker = "A"
      · subst hneA
        exact absurd hA hlive.2
      by_cases hneB : worker = "B"
      · exact hneB ▸ hB
      · exact absurd (habsent worker hneA hneB) hlive.1
    · exact hstarted ⟨name, task⟩ (Table.mem_entries.mpr hlookup)
  exact ⟨f, reach_of_run _ _ _ hf, hdone, hB, hstranded.not_notStuck hB⟩

end Fleet

end ExchangeLabs.MapReduce.Distributed
