import ExchangeLabs.Lib.Run
import ExchangeLabs.MapReduce.Task

/-!
# The coordinator on one machine

The coordinator of the single-machine version and its clients.  Each method runs
under the lock, so a step of the system is one method, or what a call of `GetTask`
does from one `Wait` to the next.  A call that waits stays in `waiting` with the loop
that it is in; after a `Broadcast` it can go on, at any later time.

A worker reports every task that it was handed at most once, at any time: `handouts`
holds the tasks that are still to be reported.

## Main definitions

* `Coordinator`, `getTask`, `updateTaskStatus`, `rescheduler`, `done` — the code.
* `System`, `Event`, `step` — the coordinator with its clients.
* `PhaseSafe` — reduce tasks are handed out, and the job ends, when they should.
* `FirstReport` — the step is not a report of a task that is already completed.

## Main results

* `phase_safety` — **the phases are safe in every run without a second report.**
* `not_phaseSafe` — a second report, after a timeout, breaks both halves.
-/

namespace ExchangeLabs.MapReduce.Local

/-! ### The coordinator -/

structure Coordinator where
  mapTasks : Tasks Unit
  reduceTasks : Tasks Unit
  mapRemaining : ℤ
  reduceRemaining : ℤ
  numbeOfReduce : ℕ
  mapTaskAddresses : List String
  deriving DecidableEq

def makeCoordinator (files : List String) (nReduce : ℕ) : Coordinator where
  mapTasks := makeMapTasks () files
  reduceTasks := makeReduceTasks () nReduce
  mapRemaining := files.length
  reduceRemaining := nReduce
  numbeOfReduce := nReduce
  mapTaskAddresses := List.replicate files.length ""

/-- What comes of a pass of `Rescheduler`. -/
structure Pass where
  coordinator : Coordinator
  /-- There was a `Broadcast`. -/
  woke : Bool
  /-- There is another pass. -/
  again : Bool

namespace Coordinator

/-- The loop of `GetTask` over reduce tasks, up to a return or a `Wait`. -/
def reduceLoop (c : Coordinator) (now : ℕ) (picks : Picks) : Option (Coordinator × Progress) :=
  (takeTask now picks.reduce c.reduceTasks).map fun (reduceTask, numberOfReduceTask, reduceTasks) =>
    let c' := { c with reduceTasks := reduceTasks }
    if reduceTask = "" then
      if c.reduceRemaining = 0 then (c', .answered (.error noMoreTasks)) else (c', .blocked .reduce)
    else
      (c', .answered <| .ok
        { name := reduceTask, number := numberOfReduceTask, partitionNumber := 0, type := .reduce,
          mapAddresses := [] })

/-- `GetTask` from the check of `reduceRemaining` on. -/
def reduceSection (c : Coordinator) (now : ℕ) (picks : Picks) : Option (Coordinator × Progress) :=
  if c.reduceRemaining ≠ 0 then c.reduceLoop now picks
  else some (c, .answered (.error noMoreTasks))

/-- The loop of `GetTask` over map tasks, up to a return or a `Wait`. -/
def mapLoop (c : Coordinator) (now : ℕ) (picks : Picks) : Option (Coordinator × Progress) :=
  (takeTask now picks.map c.mapTasks).bind fun (mapTask, numberOfMapTask, mapTasks) =>
    let c' := { c with mapTasks := mapTasks }
    if mapTask = "" then
      if c.mapRemaining = 0 then c'.reduceSection now picks else some (c', .blocked .map)
    else
      some (c', .answered <| .ok
        { name := mapTask, number := numberOfMapTask, partitionNumber := c.numbeOfReduce,
          type := .map, mapAddresses := [] })

def getTask (c : Coordinator) (now : ℕ) (picks : Picks) : Option (Coordinator × Progress) :=
  if c.mapRemaining ≠ 0 then c.mapLoop now picks else c.reduceSection now picks

/-- A call that waited goes on. -/
def resume (c : Coordinator) (now : ℕ) (picks : Picks) : Loop → Option (Coordinator × Progress)
  | .map => c.mapLoop now picks
  | .reduce => c.reduceLoop now picks

/-- A task that does not exist is a nil dereference, after which nothing happens. -/
def updateTaskStatus (c : Coordinator) (args : UpdateTaskStatusArgs) : Option Coordinator :=
  if args.type = .map then
    (c.mapTasks.lookup args.name).map fun task =>
      { c with
        mapTasks := complete args.name c.mapTasks
        mapRemaining := c.mapRemaining - 1
        mapTaskAddresses := c.mapTaskAddresses.set task.number args.workerAddress }
  else
    (c.reduceTasks.lookup args.name).map fun _ =>
      { c with
        reduceTasks := complete args.name c.reduceTasks
        reduceRemaining := c.reduceRemaining - 1 }

/-- One pass of `Rescheduler`. -/
def rescheduler (c : Coordinator) (clock : String → ℕ) : Pass :=
  if c.mapRemaining ≠ 0 then
    { coordinator := { c with mapTasks := expire () clock c.mapTasks }
      woke := anyTimedOut clock c.mapTasks
      again := true }
  else if c.reduceRemaining ≠ 0 then
    { coordinator := { c with reduceTasks := expire () clock c.reduceTasks }
      woke := true
      again := true }
  else { coordinator := c, woke := true, again := false }

def done (c : Coordinator) : Bool := decide (c.reduceRemaining = 0)

end Coordinator

/-! ### The system -/

/-- A call of `GetTask` that waits. -/
structure Call where
  worker : ℕ
  loop : Loop
  /-- There was a `Broadcast` since it began to wait. -/
  woken : Bool

/-- A worker has been handed a task and has not reported it. -/
structure Handout where
  worker : ℕ
  type : TaskType
  name : String
  deriving DecidableEq

structure System where
  coordinator : Coordinator
  now : ℕ
  /-- `Rescheduler` has not ended. -/
  rescheduling : Bool
  waiting : List Call
  handouts : List Handout
  /-- The worker that has got an answer from `GetTask` in the last step, and the answer. -/
  answer : Option (ℕ × Except String GetTaskReply)

inductive Event
  /-- Time passes. -/
  | tick (d : ℕ)
  /-- A worker calls `GetTask`. -/
  | getTask (worker : ℕ) (picks : Picks)
  /-- The `i`-th call that waits goes on. -/
  | resume (i : ℕ) (picks : Picks)
  /-- A worker reports a task that it was handed. -/
  | report (handout : Handout)
  /-- A pass of `Rescheduler`, which reads the clock `delay name` late for a task. -/
  | reschedule (delay : String → ℕ)

def Handout.ofReply (worker : ℕ) (reply : GetTaskReply) : Handout where
  worker := worker
  type := reply.type
  name := reply.name

/-- The arguments of `CallUpdateTaskStatus` in `Worker`. -/
def Handout.args (handout : Handout) : UpdateTaskStatusArgs where
  name := handout.name
  type := handout.type
  workerAddress := ""

namespace System

def make (files : List String) (nReduce : ℕ) : System where
  coordinator := makeCoordinator files nReduce
  now := 0
  rescheduling := true
  waiting := []
  handouts := []
  answer := none

/-- A call has returned, or waits. -/
def settle (s : System) (worker : ℕ) : Coordinator × Progress → System
  | (c, .answered reply) =>
    { s with
      coordinator := c
      handouts := match reply with
        | .ok reply => .ofReply worker reply :: s.handouts
        | .error _ => s.handouts
      answer := some (worker, reply) }
  | (c, .blocked loop) =>
    { s with
      coordinator := c
      waiting := s.waiting ++ [{ worker := worker, loop := loop, woken := false }]
      answer := none }

def broadcast (calls : List Call) : List Call := calls.map fun call => { call with woken := true }

def step (s : System) : Event → Option System
  | .tick d => some { s with now := s.now + d, answer := none }
  | .getTask worker picks => (s.coordinator.getTask s.now picks).map (s.settle worker)
  | .resume i picks =>
    match s.waiting[i]? with
    | none => none
    | some call =>
      if call.woken then
        (s.coordinator.resume s.now picks call.loop).map
          ({ s with waiting := s.waiting.eraseIdx i }.settle call.worker)
      else none
  | .report handout =>
    if handout ∈ s.handouts then
      (s.coordinator.updateTaskStatus handout.args).map fun c =>
        { s with coordinator := c, handouts := s.handouts.erase handout, answer := none }
    else none
  | .reschedule delay =>
    if s.rescheduling then
      let pass := s.coordinator.rescheduler fun name => s.now + delay name
      some { s with
        coordinator := pass.coordinator
        waiting := if pass.woke then broadcast s.waiting else s.waiting
        rescheduling := pass.again
        answer := none }
    else none

/-- **The phases are safe**: a reduce task is only returned by `GetTask` when all map
tasks have been completed, and `Done` is only true when all reduce tasks have been. -/
def PhaseSafe (s : System) : Prop :=
  (∀ worker reply, s.answer = some (worker, .ok reply) → reply.type = .reduce →
    AllCompleted s.coordinator.mapTasks) ∧
  (s.coordinator.done = true → AllCompleted s.coordinator.reduceTasks)

/-- The table that a report is about. -/
def tasks (s : System) (type : TaskType) : Tasks Unit :=
  if type = .map then s.coordinator.mapTasks else s.coordinator.reduceTasks

/-- The step is not a report of a task that is already completed. -/
def FirstReport (s : System) : Event → Prop
  | .report handout =>
    ((s.tasks handout.type).lookup handout.name).map (·.status) ≠ some .completed
  | _ => True

instance (s : System) : (e : Event) → Decidable (FirstReport s e)
  | .report _ => inferInstanceAs (Decidable (_ ≠ _))
  | .tick _ | .getTask .. | .resume .. | .reschedule _ => inferInstanceAs (Decidable True)

end System

/-! ### What the methods keep -/

namespace Coordinator

variable {c c' : Coordinator} {now : ℕ} {picks : Picks} {p : Progress}

/-- The counters are the same and stay exact. -/
structure Keeps (c c' : Coordinator) : Prop where
  mapRemaining : c'.mapRemaining = c.mapRemaining
  reduceRemaining : c'.reduceRemaining = c.reduceRemaining
  map : ∀ n, Exact c.mapTasks n → Exact c'.mapTasks n
  reduce : ∀ n, Exact c.reduceTasks n → Exact c'.reduceTasks n

theorem Keeps.refl (c : Coordinator) : c.Keeps c := ⟨rfl, rfl, fun _ => id, fun _ => id⟩

theorem reduceLoop_keeps (h : c.reduceLoop now picks = some (c', p)) : c.Keeps c' := by
  obtain ⟨⟨name, number, reduceTasks⟩, htake, heq⟩ := Option.map_eq_some_iff.mp h
  have hc' : c' = { c with reduceTasks := reduceTasks } := by
    dsimp only at heq
    split at heq
    · split at heq <;> cases heq <;> rfl
    · cases heq
      rfl
  subst hc'
  exact ⟨rfl, rfl, fun _ => id, fun n hn => hn.takeTask htake⟩

theorem reduceSection_keeps (h : c.reduceSection now picks = some (c', p)) : c.Keeps c' := by
  unfold reduceSection at h
  split at h
  · exact reduceLoop_keeps h
  · cases h
    exact .refl c

/-- The map loop is only left for the reduce section when no map task remains. -/
theorem mapLoop_keeps (h : c.mapLoop now picks = some (c', p)) :
    c.Keeps c' ∧ (p.Reduces → c.mapRemaining = 0) := by
  obtain ⟨⟨name, number, mapTasks⟩, htake, heq⟩ := Option.bind_eq_some_iff.mp h
  have htaken : c.Keeps { c with mapTasks := mapTasks } :=
    ⟨rfl, rfl, fun n hn => hn.takeTask htake, fun _ => id⟩
  dsimp only at heq
  split at heq
  · split at heq
    · next hzero =>
      have hkeeps := reduceSection_keeps heq
      refine ⟨⟨hkeeps.mapRemaining, hkeeps.reduceRemaining, ?_, hkeeps.reduce⟩, fun _ => hzero⟩
      exact fun n hn => hkeeps.map n (htaken.map n hn)
    · cases heq
      exact ⟨htaken, fun hp => by cases hp⟩
  · cases heq
    exact ⟨htaken, fun hp => by cases hp⟩

theorem getTask_keeps (h : c.getTask now picks = some (c', p)) :
    c.Keeps c' ∧ (p.Reduces → c.mapRemaining = 0) := by
  unfold getTask at h
  split at h
  · exact mapLoop_keeps h
  · next hzero => exact ⟨reduceSection_keeps h, fun _ => not_not.mp hzero⟩

theorem resume_keeps {loop : Loop} (h : c.resume now picks loop = some (c', p)) :
    c.Keeps c' ∧ (p.Reduces → loop = .map → c.mapRemaining = 0) := by
  cases loop with
  | map =>
    obtain ⟨hkeeps, hzero⟩ := mapLoop_keeps h
    exact ⟨hkeeps, fun hp _ => hzero hp⟩
  | reduce => exact ⟨reduceLoop_keeps h, fun _ hloop => by cases hloop⟩

theorem rescheduler_keeps (c : Coordinator) (clock : String → ℕ) :
    c.Keeps (c.rescheduler clock).coordinator := by
  unfold rescheduler
  split
  · exact ⟨rfl, rfl, fun n hn => hn.expire () clock, fun _ => id⟩
  split
  · exact ⟨rfl, rfl, fun _ => id, fun n hn => hn.expire () clock⟩
  · exact .refl c

end Coordinator

/-! ### The invariant -/

namespace System

variable {s t : System}

/-- Both counters are exact, and no call is past the check of `mapRemaining` while a
map task remains. -/
structure Inv (s : System) : Prop where
  map : Exact s.coordinator.mapTasks s.coordinator.mapRemaining
  reduce : Exact s.coordinator.reduceTasks s.coordinator.reduceRemaining
  waiting : ∀ call ∈ s.waiting, call.loop = .reduce → s.coordinator.mapRemaining = 0
  answer : ∀ worker reply, s.answer = some (worker, .ok reply) → reply.type = .reduce →
    s.coordinator.mapRemaining = 0

theorem Inv.phaseSafe (h : Inv s) : PhaseSafe s :=
  ⟨fun worker reply hans htype => h.map.eq_zero_iff.mp (h.answer worker reply hans htype),
    fun hdone => h.reduce.eq_zero_iff.mp (of_decide_eq_true hdone)⟩

theorem inv_make {files : List String} (hfiles : files.Nodup) (nReduce : ℕ) :
    Inv (make files nReduce) where
  map := exact_makeMapTasks hfiles ()
  reduce := exact_makeReduceTasks () nReduce
  waiting := by
    intro call hcall
    cases hcall
  answer := by
    intro worker reply hans
    cases hans

/-- A step that answers nobody hands out no reduce task. -/
theorem reduces_none {remaining : ℤ} : ∀ worker reply,
    (none : Option (ℕ × Except String GetTaskReply)) = some (worker, .ok reply) →
      reply.type = .reduce → remaining = 0 := by
  intro worker reply hans
  cases hans

/-- An answer, or the end of an attempt. -/
theorem Inv.settle (h : Inv s) {c : Coordinator} {p : Progress} (hc : s.coordinator.Keeps c)
    (hp : p.Reduces → s.coordinator.mapRemaining = 0) (worker : ℕ) :
    Inv (s.settle worker (c, p)) := by
  have hmap : Exact c.mapTasks c.mapRemaining := hc.mapRemaining ▸ hc.map _ h.map
  have hreduce : Exact c.reduceTasks c.reduceRemaining := hc.reduceRemaining ▸ hc.reduce _ h.reduce
  have hold : ∀ call ∈ s.waiting, call.loop = .reduce → c.mapRemaining = 0 :=
    fun call hcall hloop => hc.mapRemaining.trans (h.waiting call hcall hloop)
  have hnew : p.Reduces → c.mapRemaining = 0 := fun hp' => hc.mapRemaining.trans (hp hp')
  cases p with
  | answered reply =>
    refine ⟨hmap, hreduce, hold, fun worker reply' hans htype => ?_⟩
    cases hans
    exact hnew htype
  | blocked loop =>
    refine ⟨hmap, hreduce, fun call hcall hloop => ?_, fun worker reply hans => by cases hans⟩
    rcases List.mem_append.mp hcall with hcall | hcall
    · exact hold call hcall hloop
    · cases List.mem_singleton.mp hcall
      exact hnew hloop

/-- A report takes one off the counter of its table, and the other table stays. -/
theorem Inv.updateTaskStatus (h : Inv s) {args : UpdateTaskStatusArgs} {c : Coordinator}
    (hc : s.coordinator.updateTaskStatus args = some c)
    (hfirst : ((s.tasks args.type).lookup args.name).map (·.status) ≠ some .completed)
    (handouts : List Handout) :
    Inv { s with coordinator := c, handouts := handouts, answer := none } := by
  unfold Coordinator.updateTaskStatus at hc
  split at hc
  · next htype =>
    obtain ⟨task, htask, rfl⟩ := Option.map_eq_some_iff.mp hc
    have hstatus : task.status ≠ .completed := by simpa [tasks, htype, htask] using hfirst
    refine ⟨h.map.complete htask hstatus, h.reduce, fun call hcall hloop => ?_, reduces_none⟩
    -- a call past the check means that all map tasks are completed: this one, too
    exact absurd (h.map.eq_zero_iff.mp (h.waiting call hcall hloop) _ _ htask) hstatus
  · next htype =>
    obtain ⟨task, htask, rfl⟩ := Option.map_eq_some_iff.mp hc
    have hstatus : task.status ≠ .completed := by simpa [tasks, htype, htask] using hfirst
    exact ⟨h.map, h.reduce.complete htask hstatus, h.waiting, reduces_none⟩

/-- **The step lemma.** -/
theorem Inv.of_step (h : Inv s) {e : Event} (hfirst : FirstReport s e) (hstep : s.step e = some t) :
    Inv t := by
  cases e with
  | tick d =>
    cases hstep
    exact ⟨h.map, h.reduce, h.waiting, reduces_none⟩
  | getTask worker picks =>
    obtain ⟨⟨c, p⟩, hget, rfl⟩ := Option.map_eq_some_iff.mp hstep
    obtain ⟨hkeeps, hzero⟩ := Coordinator.getTask_keeps hget
    exact h.settle hkeeps hzero worker
  | resume i picks =>
    dsimp only [step] at hstep
    split at hstep
    · cases hstep
    next call hcall =>
    split at hstep
    · obtain ⟨⟨c, p⟩, hresume, rfl⟩ := Option.map_eq_some_iff.mp hstep
      obtain ⟨hkeeps, hzero⟩ := Coordinator.resume_keeps hresume
      have h' : Inv { s with waiting := s.waiting.eraseIdx i } :=
        ⟨h.map, h.reduce, fun call hcall => h.waiting call (List.mem_of_mem_eraseIdx hcall),
          h.answer⟩
      refine h'.settle hkeeps (fun hp => ?_) call.worker
      -- a call in the reduce loop has left the map loop when no map task remained
      cases hloop : call.loop with
      | map => exact hzero hp hloop
      | reduce => exact h.waiting call (List.mem_of_getElem? hcall) hloop
    · cases hstep
  | report handout =>
    dsimp only [step] at hstep
    split at hstep
    · obtain ⟨c, hc, rfl⟩ := Option.map_eq_some_iff.mp hstep
      exact h.updateTaskStatus hc hfirst _
    · cases hstep
  | reschedule delay =>
    dsimp only [step] at hstep
    split at hstep
    · have hkeeps := s.coordinator.rescheduler_keeps fun name => s.now + delay name
      cases hstep
      refine ⟨hkeeps.mapRemaining ▸ hkeeps.map _ h.map,
        hkeeps.reduceRemaining ▸ hkeeps.reduce _ h.reduce,
        fun call hcall hloop => hkeeps.mapRemaining.trans ?_, reduces_none⟩
      dsimp only at hcall
      -- the calls are woken or not; none of them changes its loop
      split at hcall
      · obtain ⟨call', hcall', rfl⟩ := List.mem_map.mp hcall
        exact h.waiting call' hcall' hloop
      · exact h.waiting call hcall hloop
    · cases hstep

/-- **The phases are safe in every run in which no report finds its task already
completed.** -/
theorem phase_safety {files : List String} (hfiles : files.Nodup) (nReduce : ℕ)
    (h : ReachWhile step FirstReport (make files nReduce) s) : PhaseSafe s :=
  (h.invariant (inv_make hfiles nReduce) fun _ _ _ hinv hok hstep =>
    hinv.of_step hok hstep).phaseSafe

/-- Worker `0` does the map task while `1` waits for the reduce task. -/
def shortRun : List Event :=
  [.getTask 0 ⟨some "f", none⟩, .getTask 1 ⟨none, none⟩, .report ⟨0, .map, "f"⟩,
    .reschedule fun _ => 0, .resume 0 ⟨none, some "0"⟩, .report ⟨1, .reduce, "0"⟩]

theorem phase_safety_shortRun : ∃ s,
    run (restrict step FirstReport) (make ["f"] 1) shortRun = some s ∧
      s.coordinator.done = true ∧ PhaseSafe s := by
  have hobs : (run (restrict step FirstReport) (make ["f"] 1) shortRun).map
      (fun s => s.coordinator.done) = some true := by decide +kernel
  obtain ⟨s, hs, hdone⟩ := Option.map_eq_some_iff.mp hobs
  exact ⟨s, hs, hdone, phase_safety (by decide) 1 (reachWhile_of_run _ _ _ hs)⟩

/-! ### A second report -/

/-- The tasks are `f` and `g`.  Worker `0` has `f` for more than ten seconds, so worker
`1` gets it, too, and both report it.  No map task remains by then, and `1` is handed a
reduce task. -/
def earlyRun : List Event :=
  [.getTask 0 ⟨some "f", none⟩, .tick (11 * second), .reschedule fun _ => 0,
    .getTask 1 ⟨some "f", none⟩, .report ⟨1, .map, "f"⟩, .report ⟨0, .map, "f"⟩,
    .getTask 1 ⟨none, some "0"⟩]

/-- What follows: the same happens with the reduce task `0`, and the job is done. -/
def lateRun : List Event :=
  earlyRun ++ [.tick (11 * second), .reschedule fun _ => 0, .getTask 0 ⟨none, some "0"⟩,
    .report ⟨0, .reduce, "0"⟩, .report ⟨1, .reduce, "0"⟩]

/-- A reduce task is returned although `g` has not even been started, and the job ends
although the reduce task `1` has not been. -/
theorem not_phaseSafe :
    (∃ s, run step (make ["f", "g"] 2) earlyRun = some s ∧
      Reach step (make ["f", "g"] 2) s ∧ ¬ PhaseSafe s) ∧
    ∃ s, run step (make ["f", "g"] 2) lateRun = some s ∧
      Reach step (make ["f", "g"] 2) s ∧ s.coordinator.done = true ∧
      ¬ AllCompleted s.coordinator.reduceTasks := by
  constructor
  · have hobs : (run step (make ["f", "g"] 2) earlyRun).map (fun s =>
        (answeredWith (·.type) s.answer, (s.coordinator.mapTasks.lookup "g").map (·.status))) =
        some (some .reduce, some .unstarted) := by decide +kernel
    obtain ⟨s, hs, hval⟩ := Option.map_eq_some_iff.mp hobs
    simp only [Prod.mk.injEq] at hval
    obtain ⟨worker, reply, hanswer, htype⟩ := exists_of_answeredWith hval.1
    refine ⟨s, hs, reach_of_run _ _ _ hs, fun hsafe => ?_⟩
    exact not_allCompleted hval.2 (by decide) (hsafe.1 worker reply hanswer htype)
  · have hobs : (run step (make ["f", "g"] 2) lateRun).map (fun s =>
        (s.coordinator.done, (s.coordinator.reduceTasks.lookup "1").map (·.status))) =
        some (true, some .unstarted) := by decide +kernel
    obtain ⟨s, hs, hval⟩ := Option.map_eq_some_iff.mp hobs
    simp only [Prod.mk.injEq] at hval
    exact ⟨s, hs, reach_of_run _ _ _ hs, hval.1, not_allCompleted hval.2 (by decide)⟩

end System

end ExchangeLabs.MapReduce.Local
