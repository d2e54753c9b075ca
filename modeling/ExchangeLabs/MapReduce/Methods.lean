import ExchangeLabs.MapReduce.Distributed

/-!
# What the methods of the distributed coordinator do

One lemma for each method, on the counters and on the map tasks: which methods keep
the counters exact by themselves, and what becomes of a map task that is completed.

## Main definitions

* `Evolves tasks tasks'` — every task of `tasks'` is as it was or not completed.
* `Maintains c c'` — the counters stay exact, and the map tasks evolve.
* `Fits p picks locations` — an answer carries the locations of its call.

## Main results

* `Coordinator.hardReset_maintains` — the counter gains what `HardReset` opens again.
* `Coordinator.getTask_spec`, `Coordinator.resume_spec` — a call of `GetTask`.
* `Coordinator.healthMonitor_maintains` — a whole pass of `HealthMonitor`.
* `System.resume_cases`, `System.report_cases` — what the steps do that cannot always happen.
-/

namespace ExchangeLabs.MapReduce.Distributed

variable {tasks tasks' tasks'' : Tasks String} {c c' c'' : Coordinator} {now : ℕ} {picks : Picks}
  {locations : List String} {p : Progress}

/-! ### Map tasks -/

/-- Every task keeps its name and its number, and is as it was or not completed. -/
def Evolves (tasks tasks' : Tasks String) : Prop :=
  ∃ f, tasks' = tasks.mapVal f ∧ (∀ name task, (f name task).number = task.number) ∧
    ∀ name task, tasks.lookup name = some task →
      f name task = task ∨ (f name task).status ≠ .completed

theorem Evolves.refl (tasks : Tasks String) : Evolves tasks tasks :=
  ⟨fun _ task => task, (Table.mapVal_id tasks).symm, fun _ _ => rfl, fun _ _ _ => .inl rfl⟩

theorem Evolves.trans (h : Evolves tasks tasks') (h' : Evolves tasks' tasks'') :
    Evolves tasks tasks'' := by
  obtain ⟨f, rfl, hfn, hf⟩ := h
  obtain ⟨g, rfl, hgn, hg⟩ := h'
  refine ⟨fun name task => g name (f name task), Table.mapVal_mapVal f g tasks,
    fun name task => (hgn _ _).trans (hfn _ _), fun name task htask => ?_⟩
  have hf' := hf name task htask
  rcases hg name (f name task) (by rw [Table.lookup_mapVal, htask]; rfl) with heq | hne
  · dsimp only
    rwa [heq]
  · exact .inr hne

/-- One task is changed, and is not completed afterwards. -/
theorem Evolves.modify {name : String} {f : TaskMetadata String → TaskMetadata String}
    (hnumber : ∀ task, (f task).number = task.number)
    (hf : ∀ task, tasks.lookup name = some task → (f task).status ≠ .completed) :
    Evolves tasks (tasks.modify name f) := by
  refine ⟨fun name' task => if name' = name then f task else task, rfl, fun name' task => ?_,
    fun name' task htask => ?_⟩
  · dsimp only
    split
    · exact hnumber task
    · rfl
  · dsimp only
    split
    · next heq => exact .inr (hf task (heq ▸ htask))
    · exact .inl rfl

theorem Evolves.takeTask {pick : Option String} {name : String} {number : ℤ}
    (h : takeTask now pick tasks = some (name, number, tasks')) : Evolves tasks tasks' := by
  rcases takeTask_cases h with ⟨-, -, rfl, -⟩ | ⟨task, -, -, -, rfl⟩
  · exact .refl _
  · refine .modify (fun _ => rfl) fun _ _ hstatus => by cases hstatus

theorem Evolves.expire (clock : String → ℕ) : Evolves tasks (expire "" clock tasks) := by
  refine ⟨_, rfl, fun name task => ?_, fun name task _ => ?_⟩
  · split <;> rfl
  · split
    · exact .inr fun hstatus => by cases hstatus
    · exact .inl rfl

/-! ### The coordinator -/

/-- The counters stay exact, and the map tasks evolve. -/
structure Maintains (c c' : Coordinator) : Prop where
  map : Exact c.mapTasks c.mapRemaining → Exact c'.mapTasks c'.mapRemaining
  reduce : Exact c.reduceTasks c.reduceRemaining → Exact c'.reduceTasks c'.reduceRemaining
  evolves : Evolves c.mapTasks c'.mapTasks

theorem Maintains.refl (c : Coordinator) : Maintains c c := ⟨id, id, .refl _⟩

theorem Maintains.trans (h : Maintains c c') (h' : Maintains c' c'') : Maintains c c'' :=
  ⟨h'.map ∘ h.map, h'.reduce ∘ h.reduce, h.evolves.trans h'.evolves⟩

namespace Coordinator

theorem heardOf_maintains (c : Coordinator) (now : ℕ) (address : String) :
    Maintains c (c.heardOf now address) := ⟨id, id, .refl _⟩

theorem healthCheck_maintains (c : Coordinator) (now : ℕ) (address : String) :
    Maintains c (c.healthCheck now address) := c.heardOf_maintains now address

theorem done_maintains (c : Coordinator) : Maintains c c.done.2 := by
  unfold done
  split
  · exact ⟨id, id, .refl _⟩
  · exact .refl c

/-- The counter gains what is opened again. -/
theorem hardReset_maintains (c : Coordinator) (failedWorker : String) :
    Maintains c (c.hardReset failedWorker) := by
  refine ⟨fun h => h.mapVal_add _ (fun name task => ?_) (fun task => ?_), id,
    ⟨_, rfl, fun name task => ?_, fun name task _ => ?_⟩⟩
  · split
    · next hassigned => cases hstatus : task.status <;>
        simp [TaskMetadata.remaining, resetTask, hassigned, hstatus]
    · next hassigned => simp [hassigned]
  · simp [TaskMetadata.remaining]
  · split <;> rfl
  · split
    · exact .inr fun hstatus => by cases hstatus
    · exact .inl rfl

theorem softReset_maintains (c : Coordinator) (failedWorker : String) :
    Maintains c (c.softReset failedWorker) := by
  refine ⟨id, fun h => h.mapVal_of_eq fun name task => ?_, .refl _⟩
  split
  · next hreset => simp [TaskMetadata.remaining, resetTask, hreset.2]
  · rfl

theorem reportFailure_maintains (c : Coordinator) (failedWorker : String) :
    Maintains c (c.reportFailure failedWorker) := by
  have hdown : Maintains c { c with
      workerMap := c.workerMap.modify failedWorker fun worker =>
        { worker with workerDown := true } } :=
    ⟨id, id, .refl _⟩
  exact (hdown.trans (hardReset_maintains _ failedWorker)).trans
    (softReset_maintains _ failedWorker)

theorem takeOff_maintains (c : Coordinator) (address : String) :
    Maintains c (c.takeOff address) := by
  have hreset := (c.hardReset_maintains address).trans (softReset_maintains _ address)
  exact ⟨hreset.map, hreset.reduce, hreset.evolves⟩

theorem healthMonitor_maintains (c : Coordinator) (clock : String → ℕ) :
    Maintains c (c.healthMonitor clock).coordinator := by
  unfold healthMonitor
  dsimp only
  generalize c.silent clock = addresses
  induction addresses generalizing c with
  | nil => exact .refl c
  | cons address addresses ih => exact (c.takeOff_maintains address).trans (ih _)

theorem rescheduler_maintains (c : Coordinator) (clock : String → ℕ) :
    Maintains c (c.rescheduler clock).coordinator := by
  unfold rescheduler
  split
  · exact ⟨fun h => h.expire "" clock, id, .expire clock⟩
  split
  · exact ⟨id, fun h => h.expire "" clock, .refl _⟩
  · exact .refl c

/-! ### A call of `GetTask` -/

/-- What an answer carries: the locations of the call, the name of a map task, and a
reduce task only if the iteration has found one. -/
def Fits (p : Progress) (picks : Picks) (locations : List String) : Prop :=
  ∀ reply, p = .answered (.ok reply) → reply.mapAddresses = locations ∧
    (reply.type = .map → reply.name ≠ "") ∧ (reply.type = .reduce → picks.reduce ≠ none)

theorem reduceLoop_spec (h : c.reduceLoop now picks locations = some (c', p)) :
    Maintains c c' ∧ c'.mapRemaining = c.mapRemaining ∧ Fits p picks locations := by
  obtain ⟨⟨name, number, reduceTasks⟩, htake, heq⟩ := Option.map_eq_some_iff.mp h
  have hmaintains : Maintains c { c with reduceTasks := reduceTasks } :=
    ⟨id, fun h => h.takeTask htake, .refl _⟩
  dsimp only at heq
  split at heq
  · split at heq <;> cases heq <;> refine ⟨hmaintains, rfl, fun reply hreply => ?_⟩
    · cases hreply
      exact ⟨rfl, fun htype => (by cases htype), fun htype => (by cases htype)⟩
    · cases hreply
  · next hname =>
    cases heq
    refine ⟨hmaintains, rfl, fun reply hreply => ?_⟩
    cases hreply
    refine ⟨rfl, fun htype => (by cases htype), fun _ hnone => ?_⟩
    -- an iteration that finds nothing returns no name
    rw [hnone, takeTask] at htake
    split at htake
    · cases htake
      exact hname rfl
    · cases htake

theorem reduceSection_spec (h : c.reduceSection now picks locations = some (c', p)) :
    Maintains c c' ∧ c'.mapRemaining = c.mapRemaining ∧ Fits p picks locations := by
  unfold reduceSection at h
  split at h
  · exact reduceLoop_spec h
  · cases h
    exact ⟨.refl c, rfl, fun reply hreply => by cases hreply⟩

/-- The map loop is only left for the reduce section when no map task remains. -/
theorem mapLoop_spec {workerAddress : String}
    (h : c.mapLoop now picks workerAddress locations = some (c', p)) :
    Maintains c c' ∧ c'.mapRemaining = c.mapRemaining ∧ Fits p picks locations ∧
      (p.Reduces → c.mapRemaining = 0) := by
  obtain ⟨⟨name, number, mapTasks⟩, htake, heq⟩ := Option.bind_eq_some_iff.mp h
  have htaken : Maintains c { c with mapTasks := mapTasks } :=
    ⟨fun h => h.takeTask htake, id, .takeTask htake⟩
  dsimp only at heq
  split at heq
  · split at heq
    · next hzero =>
      obtain ⟨hsection, hremaining, hfits⟩ := reduceSection_spec heq
      exact ⟨htaken.trans hsection, hremaining, hfits, fun _ => hzero⟩
    · cases heq
      exact ⟨htaken, rfl, fun reply hreply => (by cases hreply), fun hp => (by cases hp)⟩
  · next hname =>
    cases heq
    -- the task has just been started
    have hstatus : ∀ task, mapTasks.lookup name = some task → task.status ≠ .completed := by
      intro task htask
      rcases takeTask_cases htake with ⟨hempty, -⟩ | ⟨task', htask', -, -, rfl⟩
      · exact absurd hempty hname
      · rw [Table.lookup_modify_self, htask'] at htask
        cases htask
        simp
    have hassign : Maintains { c with mapTasks := mapTasks } { c with
        mapTasks :=
          mapTasks.modify name fun task => { task with assignedWorker := workerAddress } } :=
      ⟨fun h => h.modify_of_eq fun _ _ => rfl, id, .modify (fun _ => rfl) hstatus⟩
    refine ⟨htaken.trans hassign, rfl, fun reply hreply => ?_, fun hp => (by cases hp)⟩
    cases hreply
    exact ⟨rfl, fun _ => hname, fun htype => (by cases htype)⟩

theorem getTask_spec {workerAddress : String}
    (h : c.getTask now picks workerAddress = some (c', p)) :
    Maintains c c' ∧ c'.mapRemaining = c.mapRemaining ∧ Fits p picks c.locations ∧
      (p.Reduces → c.mapRemaining = 0) := by
  unfold getTask at h
  split at h
  · exact mapLoop_spec h
  · next hzero =>
    obtain ⟨hmaintains, hremaining, hfits⟩ := reduceSection_spec h
    exact ⟨hmaintains, hremaining, hfits, fun _ => not_not.mp hzero⟩

theorem resume_spec {workerAddress : String} {loop : Loop}
    (h : c.resume now picks workerAddress locations loop = some (c', p)) :
    Maintains c c' ∧ c'.mapRemaining = c.mapRemaining ∧ Fits p picks locations ∧
      (p.Reduces → loop = .map → c.mapRemaining = 0) := by
  cases loop with
  | map =>
    obtain ⟨hmaintains, hremaining, hfits, hzero⟩ := mapLoop_spec h
    exact ⟨hmaintains, hremaining, hfits, fun hp _ => hzero hp⟩
  | reduce =>
    obtain ⟨hmaintains, hremaining, hfits⟩ := reduceLoop_spec h
    exact ⟨hmaintains, hremaining, hfits, fun _ hloop => by cases hloop⟩

end Coordinator

/-! ### Steps -/

namespace System

variable {s t : System}

/-- A call goes on that waits and has been woken. -/
theorem resume_cases {i : ℕ} {picks : Picks} (hstep : s.step (.resume i picks) = some t) :
    ∃ call c p, s.waiting[i]? = some call ∧
      s.coordinator.resume s.now picks call.workerAddress call.locations call.loop = some (c, p) ∧
      t = { s with waiting := s.waiting.eraseIdx i }.settle call.workerAddress call.locations
        (c, p) := by
  dsimp only [step] at hstep
  split at hstep
  · cases hstep
  next call hcall =>
  split at hstep
  · obtain ⟨⟨c, p⟩, hresume, rfl⟩ := Option.map_eq_some_iff.mp hstep
    exact ⟨call, c, p, hcall, hresume, rfl⟩
  · cases hstep

/-- A task is reported that was handed out. -/
theorem report_cases {handout : Handout} (hstep : s.step (.report handout) = some t) :
    handout ∈ s.handouts ∧
      t = { s.update (s.coordinator.updateTaskStatus s.now handout.args) false with
        handouts := s.handouts.erase handout
        reports := handout :: s.reports } := by
  dsimp only [step] at hstep
  split at hstep
  · next hmem =>
    cases hstep
    exact ⟨hmem, rfl⟩
  · cases hstep

/-- `Rescheduler` makes passes until it has ended. -/
theorem reschedule_cases {delay : String → ℕ} (hstep : s.step (.reschedule delay) = some t) :
    t = { s.update (s.coordinator.rescheduler fun name => s.now + delay name).coordinator
        (s.coordinator.rescheduler fun name => s.now + delay name).woke with
      rescheduling := (s.coordinator.rescheduler fun name => s.now + delay name).again } := by
  dsimp only [step] at hstep
  split at hstep
  · cases hstep
    rfl
  · cases hstep

end System

end ExchangeLabs.MapReduce.Distributed
