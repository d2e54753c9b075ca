import ExchangeLabs.MapReduce.Local

/-!
# What is assigned to a worker

Map tasks are named by their files and reduce tasks by their numbers, from the start of the job to
its end.  So an answer of `GetTask` says which file is to be mapped, or which partition is to be
reduced.  Only a report completes a task, and nothing undoes it.

## Main definitions

* `NumberedBy names tasks` — the tasks have these names, and their places as numbers.
* `Completed tasks name` — the task of this name has been completed.
* `Assigned files n reply` — the answer is a map task or a reduce task of the job.

## Main results

* `Coordinator.getTask_assigns`, `Coordinator.resume_assigns` — what a call is answered with.
* `Coordinator.updateTaskStatus_completes` — what a report completes.
* `System.step_assigns` — what no step but a report changes.
-/

namespace ExchangeLabs.MapReduce.Local

variable {names files : List String} {tasks tasks' : Tasks Unit} {name : String} {n : ℕ}

/-! ### Names and numbers -/

/-- The tasks have these names, and their places as numbers. -/
def NumberedBy (names : List String) (tasks : Tasks Unit) : Prop :=
  ∀ (name : String) (i : ℕ), (tasks.lookup name).map (·.number) = some i ↔ names[i]? = some name

/-- The task of this name has been completed. -/
def Completed (tasks : Tasks Unit) (name : String) : Prop :=
  (tasks.lookup name).map (·.status) = some .completed

instance : Decidable (Completed tasks name) := inferInstanceAs (Decidable (_ = _))

/-- The names of the reduce tasks. -/
def reduceNames (nReduce : ℕ) : List String := (List.range nReduce).map toString

theorem getElem?_reduceNames {p : ℕ} :
    (reduceNames n)[p]? = some name ↔ p < n ∧ name = toString p := by
  rw [reduceNames, List.getElem?_map]
  by_cases hp : p < n
  · simp [hp, eq_comm]
  · simp [hp]

/-- The tables agree on the numbers, and on what has been completed. -/
structure Same (tasks tasks' : Tasks Unit) : Prop where
  number : ∀ name, (tasks'.lookup name).map (·.number) = (tasks.lookup name).map (·.number)
  completed : ∀ name, Completed tasks' name ↔ Completed tasks name

theorem Same.refl (tasks : Tasks Unit) : Same tasks tasks := ⟨fun _ => rfl, fun _ => Iff.rfl⟩

theorem NumberedBy.same (h : NumberedBy names tasks) (hs : Same tasks tasks') :
    NumberedBy names tasks' := by
  intro name i
  rw [hs.number, h]

theorem NumberedBy.exists_task (h : NumberedBy names tasks) {i : ℕ} (hi : names[i]? = some name) :
    ∃ task, tasks.lookup name = some task ∧ task.number = i :=
  Option.map_eq_some_iff.mp ((h name i).mpr hi)

theorem NumberedBy.getElem? (h : NumberedBy names tasks) {task : TaskMetadata Unit}
    (htask : tasks.lookup name = some task) : names[task.number]? = some name := by
  refine (h name _).mp ?_
  rw [htask]
  rfl

theorem allCompleted_iff (h : NumberedBy names tasks) :
    AllCompleted tasks ↔ ∀ (i : ℕ) name, names[i]? = some name → Completed tasks name := by
  constructor
  · intro hall i name hi
    obtain ⟨task, htask, -⟩ := h.exists_task hi
    rw [Completed, htask, Option.map_some, hall name task htask]
  · intro hall name task htask
    have hcompleted := hall _ _ (h.getElem? htask)
    rw [Completed, htask, Option.map_some] at hcompleted
    exact Option.some.inj hcompleted

theorem Same.allCompleted (hs : Same tasks tasks') (h : AllCompleted tasks) :
    AllCompleted tasks' := by
  intro name task' htask'
  obtain ⟨task, htask, -⟩ : ∃ task, tasks.lookup name = some task ∧ task.number = task'.number := by
    have hnumber := hs.number name
    rw [htask', Option.map_some, eq_comm] at hnumber
    exact Option.map_eq_some_iff.mp hnumber
  have hcompleted : Completed tasks name := by
    rw [Completed, htask, Option.map_some, h name task htask]
  have hcompleted' := (hs.completed name).mpr hcompleted
  rw [Completed, htask', Option.map_some] at hcompleted'
  exact Option.some.inj hcompleted'

/-- An update of tasks that completes none and undoes none. -/
theorem same_mapVal {f : String → TaskMetadata Unit → TaskMetadata Unit}
    (hnumber : ∀ name task, (f name task).number = task.number)
    (hstatus : ∀ name task, tasks.lookup name = some task →
      ((f name task).status = .completed ↔ task.status = .completed)) :
    Same tasks (tasks.mapVal f) := by
  constructor
  · intro name
    rw [Table.lookup_mapVal, Option.map_map]
    exact congrArg (fun g => Option.map g (tasks.lookup name)) (funext (hnumber name))
  · intro name
    rw [Completed, Completed, Table.lookup_mapVal]
    cases htask : tasks.lookup name with
    | none => simp
    | some task => simp [hstatus name task htask]

theorem same_expire (clock : String → ℕ) (tasks : Tasks Unit) :
    Same tasks (expire () clock tasks) := by
  refine same_mapVal (fun name task => ?_) fun name task _ => ?_
  · split <;> rfl
  · split
    · next htime => simp [TaskMetadata.timedOut_status htime]
    · rfl

theorem same_takeTask {now : ℕ} {pick : Option String} {number : ℤ}
    (h : takeTask now pick tasks = some (name, number, tasks')) : Same tasks tasks' := by
  rcases takeTask_cases h with ⟨-, -, rfl, -⟩ | ⟨task, htask, hstatus, -, rfl⟩
  · exact .refl _
  · -- a task that is in progress was not completed before
    refine same_mapVal (fun name' task' => ?_) fun name' task' htask' => ?_
    · split <;> rfl
    · split
      · next heq =>
        subst heq
        rw [htask, Option.some.injEq] at htask'
        simp [← htask', hstatus]
      · rfl

/-- A report completes one task. -/
theorem completed_complete {name' : String} :
    Completed (complete name tasks) name' ↔
      Completed tasks name' ∨ name' = name ∧ ∃ task, tasks.lookup name = some task := by
  rw [Completed, Completed, complete, Table.lookup_modify]
  by_cases heq : name' = name
  · subst heq
    cases htask : tasks.lookup name' <;> simp
  · simp [heq]

theorem NumberedBy.of_complete (h : NumberedBy names tasks) (name : String) :
    NumberedBy names (complete name tasks) := by
  intro name' i
  have hnumber : ((complete name tasks).lookup name').map (·.number) =
      (tasks.lookup name').map (·.number) := by
    rw [complete, Table.lookup_modify]
    split
    · next heq =>
      rw [heq, Option.map_map]
      rfl
    · rfl
  rw [hnumber, h]

theorem numberedBy_makeMapTasks (hfiles : files.Nodup) :
    NumberedBy files (makeMapTasks () files) := by
  intro name i
  rw [Option.map_eq_some_iff]
  constructor
  · rintro ⟨task, htask, rfl⟩
    obtain ⟨i, hi, rfl⟩ := (lookup_makeMapTasks hfiles).mp htask
    exact hi
  · intro hi
    exact ⟨newTask () i, (lookup_makeMapTasks hfiles).mpr ⟨i, hi, rfl⟩, rfl⟩

theorem numberedBy_makeReduceTasks (n : ℕ) :
    NumberedBy (reduceNames n) (makeReduceTasks () n) := by
  intro name i
  rw [Option.map_eq_some_iff, getElem?_reduceNames]
  constructor
  · rintro ⟨task, htask, rfl⟩
    obtain ⟨p, hp, rfl, rfl⟩ := lookup_makeReduceTasks.mp htask
    exact ⟨hp, rfl⟩
  · rintro ⟨hi, rfl⟩
    exact ⟨newTask () i, lookup_makeReduceTasks.mpr ⟨i, hi, rfl, rfl⟩, rfl⟩

theorem not_completed_of_unstarted
    (h : ∀ name task, tasks.lookup name = some task → task.status = .unstarted) (name : String) :
    ¬ Completed tasks name := by
  intro hcompleted
  obtain ⟨task, htask, hstatus⟩ := Option.map_eq_some_iff.mp hcompleted
  rw [h name task htask] at hstatus
  cases hstatus

theorem not_completed_makeMapTasks (hfiles : files.Nodup) (name : String) :
    ¬ Completed (makeMapTasks () files) name := by
  apply not_completed_of_unstarted
  intro name task htask
  obtain ⟨i, -, rfl⟩ := (lookup_makeMapTasks hfiles).mp htask
  rfl

theorem not_completed_makeReduceTasks (n : ℕ) (name : String) :
    ¬ Completed (makeReduceTasks () n) name := by
  apply not_completed_of_unstarted
  intro name task htask
  obtain ⟨p, -, -, rfl⟩ := lookup_makeReduceTasks.mp htask
  rfl

/-! ### Answers -/

/-- The answer with the map task for the `i`-th file. -/
def mapReply (name : String) (i n : ℕ) : GetTaskReply where
  name := name
  number := i
  partitionNumber := n
  type := .map
  mapAddresses := []

/-- The answer with the reduce task for partition `p`. -/
def reduceReply (p : ℕ) : GetTaskReply where
  name := toString p
  number := p
  partitionNumber := 0
  type := .reduce
  mapAddresses := []

/-- The answer is a map task or a reduce task of the job. -/
inductive Assigned (files : List String) (n : ℕ) : GetTaskReply → Prop
  | map {i : ℕ} {name : String} (hi : files[i]? = some name) : Assigned files n (mapReply name i n)
  | reduce {p : ℕ} (hp : p < n) : Assigned files n (reduceReply p)

namespace Coordinator

variable {c c' : Coordinator} {now : ℕ} {picks : Picks} {p : Progress}

/-- The tasks are those of the job. -/
structure OfJob (c : Coordinator) (files : List String) (n : ℕ) : Prop where
  map : NumberedBy files c.mapTasks
  reduce : NumberedBy (reduceNames n) c.reduceTasks
  numbeOfReduce : c.numbeOfReduce = n

theorem ofJob_make (hfiles : files.Nodup) (n : ℕ) : OfJob (makeCoordinator files n) files n where
  map := numberedBy_makeMapTasks hfiles
  reduce := numberedBy_makeReduceTasks n
  numbeOfReduce := rfl

/-- Nothing is completed from one to the other. -/
structure Same (c c' : Coordinator) : Prop where
  map : Local.Same c.mapTasks c'.mapTasks
  reduce : Local.Same c.reduceTasks c'.reduceTasks
  numbeOfReduce : c'.numbeOfReduce = c.numbeOfReduce

theorem Same.refl (c : Coordinator) : c.Same c := ⟨.refl _, .refl _, rfl⟩

theorem OfJob.same (h : c.OfJob files n) (hs : c.Same c') : c'.OfJob files n where
  map := h.map.same hs.map
  reduce := h.reduce.same hs.reduce
  numbeOfReduce := hs.numbeOfReduce.trans h.numbeOfReduce

/-- What comes of a call: nothing is completed, and what is answered is a task of the job. -/
def Assigns (files : List String) (n : ℕ) (c c' : Coordinator) (p : Progress) : Prop :=
  c.Same c' ∧ ∀ reply, p = .answered (.ok reply) → Assigned files n reply

/-- A task that is taken has a name that is not empty, or there is none. -/
theorem takeTask_assigns {tasks tasks' : Tasks Unit} {names : List String}
    (hnames : NumberedBy names tasks) {pick : Option String} {name : String} {number : ℤ}
    (h : takeTask now pick tasks = some (name, number, tasks')) (hname : name ≠ "") :
    ∃ i : ℕ, number = i ∧ names[i]? = some name := by
  rcases takeTask_cases h with ⟨hempty, -⟩ | ⟨task, htask, -, hnumber, -⟩
  · exact absurd hempty hname
  · exact ⟨task.number, hnumber, hnames.getElem? htask⟩

theorem reduceLoop_assigns (hc : c.OfJob files n) (h : c.reduceLoop now picks = some (c', p)) :
    Assigns files n c c' p := by
  obtain ⟨⟨name, number, reduceTasks⟩, htake, heq⟩ := Option.map_eq_some_iff.mp h
  have hsame : c.Same { c with reduceTasks := reduceTasks } := ⟨.refl _, same_takeTask htake, rfl⟩
  dsimp only at heq
  -- without a task the call ends or blocks
  split at heq
  · split at heq
    all_goals
      cases heq
      exact ⟨hsame, fun reply hreply => by cases hreply⟩
  · next hname =>
    cases heq
    refine ⟨hsame, fun reply hreply => ?_⟩
    cases hreply
    obtain ⟨q, rfl, hq⟩ := takeTask_assigns hc.reduce htake hname
    obtain ⟨hlt, rfl⟩ := getElem?_reduceNames.mp hq
    exact .reduce hlt

theorem reduceSection_assigns (hc : c.OfJob files n)
    (h : c.reduceSection now picks = some (c', p)) : Assigns files n c c' p := by
  unfold reduceSection at h
  split at h
  · exact reduceLoop_assigns hc h
  · cases h
    exact ⟨.refl c, fun reply hreply => by cases hreply⟩

theorem mapLoop_assigns (hc : c.OfJob files n) (h : c.mapLoop now picks = some (c', p)) :
    Assigns files n c c' p := by
  obtain ⟨⟨name, number, mapTasks⟩, htake, heq⟩ := Option.bind_eq_some_iff.mp h
  have hsame : c.Same { c with mapTasks := mapTasks } := ⟨same_takeTask htake, .refl _, rfl⟩
  dsimp only at heq
  split at heq
  · split at heq
    · -- all map tasks are completed, and the call goes on to the reduce tasks
      obtain ⟨hsame', hreply⟩ := reduceSection_assigns (hc.same hsame) heq
      refine ⟨⟨⟨fun name => ?_, fun name => ?_⟩, hsame'.reduce, hsame'.numbeOfReduce⟩, hreply⟩
      · rw [hsame'.map.number, hsame.map.number]
      · rw [hsame'.map.completed, hsame.map.completed]
    · cases heq
      exact ⟨hsame, fun reply hreply => by cases hreply⟩
  · next hname =>
    cases heq
    refine ⟨hsame, fun reply hreply => ?_⟩
    cases hreply
    obtain ⟨i, rfl, hi⟩ := takeTask_assigns hc.map htake hname
    rw [hc.numbeOfReduce]
    exact .map hi

/-- **What a call of `GetTask` is answered with.** -/
theorem getTask_assigns (hc : c.OfJob files n) (h : c.getTask now picks = some (c', p)) :
    Assigns files n c c' p := by
  unfold getTask at h
  split at h
  · exact mapLoop_assigns hc h
  · exact reduceSection_assigns hc h

theorem resume_assigns (hc : c.OfJob files n) {loop : Loop}
    (h : c.resume now picks loop = some (c', p)) : Assigns files n c c' p := by
  cases loop with
  | map => exact mapLoop_assigns hc h
  | reduce => exact reduceLoop_assigns hc h

theorem rescheduler_same (c : Coordinator) (clock : String → ℕ) :
    c.Same (c.rescheduler clock).coordinator := by
  unfold rescheduler
  -- only tasks in progress are opened again
  split
  · exact ⟨same_expire clock _, .refl _, rfl⟩
  split
  · exact ⟨.refl _, same_expire clock _, rfl⟩
  · exact .refl c

/-- **A report** completes the task that it is about, and no other. -/
theorem updateTaskStatus_completes (hc : c.OfJob files n) {reply : GetTaskReply}
    (hreply : Assigned files n reply) {address : String}
    (h : c.updateTaskStatus ⟨reply.name, reply.type, address⟩ = some c') :
    c'.OfJob files n ∧
      (∀ name, Completed c'.mapTasks name ↔
        Completed c.mapTasks name ∨ reply.type = .map ∧ name = reply.name) ∧
      ∀ name, Completed c'.reduceTasks name ↔
        Completed c.reduceTasks name ∨ reply.type = .reduce ∧ name = reply.name := by
  cases hreply with
  | @map i file hi =>
    obtain ⟨task, htask, rfl⟩ := Option.map_eq_some_iff.mp h
    refine ⟨⟨hc.map.of_complete _, hc.reduce, hc.numbeOfReduce⟩, fun name => ?_, fun name => ?_⟩
    · rw [completed_complete]
      exact or_congr_right ⟨fun h => ⟨rfl, h.1⟩, fun h => ⟨h.2, task, htask⟩⟩
    · simp [mapReply]
  | @reduce q hq =>
    obtain ⟨task, htask, rfl⟩ := Option.map_eq_some_iff.mp h
    refine ⟨⟨hc.map, hc.reduce.of_complete _, hc.numbeOfReduce⟩, fun name => ?_, fun name => ?_⟩
    · simp [reduceReply]
    · rw [completed_complete]
      exact or_congr_right ⟨fun h => ⟨rfl, h.1⟩, fun h => ⟨h.2, task, htask⟩⟩

end Coordinator

namespace System

variable {s s' : System}

/-- The answer of the last step, if it is a task, is one of the job. -/
def Answers (files : List String) (n : ℕ) (s : System) : Prop :=
  ∀ worker reply, s.answer = some (worker, .ok reply) → Assigned files n reply

theorem settle_assigns {c : Coordinator} {p : Progress} (worker : ℕ)
    (h : s.coordinator.Assigns files n c p) :
    s.coordinator.Same (s.settle worker (c, p)).coordinator ∧
      Answers files n (s.settle worker (c, p)) := by
  cases p with
  | answered reply =>
    refine ⟨h.1, fun worker reply' hanswer => ?_⟩
    cases hanswer
    exact h.2 _ rfl
  | blocked loop => exact ⟨h.1, fun worker reply' hanswer => by cases hanswer⟩

/-- **What no step but a report changes**, and what a worker is answered with. -/
theorem step_assigns (hs : s.coordinator.OfJob files n) {e : Event}
    (he : ∀ handout, e ≠ .report handout) (hstep : s.step e = some s') :
    s.coordinator.Same s'.coordinator ∧ Answers files n s' := by
  cases e with
  | tick d =>
    cases hstep
    exact ⟨.refl _, fun worker reply hanswer => by cases hanswer⟩
  | getTask worker picks =>
    obtain ⟨⟨c, p⟩, hget, rfl⟩ := Option.map_eq_some_iff.mp hstep
    exact settle_assigns worker (Coordinator.getTask_assigns hs hget)
  | resume i picks =>
    dsimp only [step] at hstep
    split at hstep
    · cases hstep
    split at hstep
    · obtain ⟨⟨c, p⟩, hresume, rfl⟩ := Option.map_eq_some_iff.mp hstep
      exact settle_assigns (s := { s with waiting := s.waiting.eraseIdx i }) _
        (Coordinator.resume_assigns hs hresume)
    · cases hstep
  | report handout => exact absurd rfl (he handout)
  | reschedule delay =>
    dsimp only [step] at hstep
    split at hstep
    · cases hstep
      exact ⟨s.coordinator.rescheduler_same _, fun worker reply hanswer => by cases hanswer⟩
    · cases hstep

/-- **A report** is one step of the coordinator. -/
theorem step_report {handout : Handout} (hstep : s.step (.report handout) = some s') :
    s.coordinator.updateTaskStatus handout.args = some s'.coordinator := by
  dsimp only [step] at hstep
  split at hstep
  · obtain ⟨c, hc, rfl⟩ := Option.map_eq_some_iff.mp hstep
    exact hc
  · cases hstep

end System

end ExchangeLabs.MapReduce.Local
