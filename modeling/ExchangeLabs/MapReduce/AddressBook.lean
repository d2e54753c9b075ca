import ExchangeLabs.MapReduce.Counters

/-!
# The address book of the distributed coordinator

With a reduce task goes a list of addresses, one for each map task: the worker that
asked for the reduce task fetches the output of the map tasks there.  An address that
is empty is skipped without a word.

Two things go wrong.  A report completes the task of its name, whoever the task is
assigned to by then: another worker after a timeout, or nobody.  And the list is made
when the call begins; a call that waits until the last map task is completed leaves
with the addresses of the time before.

## Main definitions

* `fetchRequests` — what `FetchData` asks for.
* `Covers files reports addresses` — the addresses are those of workers that have
  reported the map tasks.
* `System.AddressBookSound` — every reduce task is handed out with such addresses.
* `System.Named`, `System.HeldReport`, `System.FreshLocations` — the workers have
  addresses, and the step is not of the first, not of the second kind.

## Main results

* `Coordinator.getElem?_locations` — what is in the book.
* `System.address_book_sound` — **the addresses are right in every run of such steps.**
* `System.not_addressBookSound` — both kinds of steps hand out wrong ones.
-/

namespace ExchangeLabs.MapReduce.Distributed

/-! ### The output of the map tasks -/

/-- The file with the output of map task `index` for a reduce task. -/
def intermediateName (index : ℕ) (partition : ℤ) : String :=
  "mr-" ++ toString index ++ "-" ++ toString partition

/-- The addresses that `FetchData` asks, and for which file. -/
def fetchRequests (mapWorkerAddress : List String) (partition : ℤ) : List (String × String) :=
  (mapWorkerAddress.zipIdx.filter fun worker => worker.1 ≠ "").map fun (address, index) =>
    (address, intermediateName index partition)

theorem mem_fetchRequests {addresses : List String} {i : ℕ} {address : String}
    (h : addresses[i]? = some address) (hne : address ≠ "") (partition : ℤ) :
    (address, intermediateName i partition) ∈ fetchRequests addresses partition := by
  refine List.mem_map.mpr ⟨(address, i), List.mem_filter.mpr ⟨?_, by simpa using hne⟩, rfl⟩
  exact List.mem_zipIdx_iff_getElem?.mpr h

/-- Each map task has an address there, of a worker that has reported the task. -/
def Covers (files : List String) (reports : List Handout) (addresses : List String) : Prop :=
  ∀ (i : ℕ) file, files[i]? = some file →
    ∃ address, addresses[i]? = some address ∧ address ≠ "" ∧
      { worker := address, type := .map, name := file } ∈ reports

theorem Covers.mono {files addresses : List String} {reports reports' : List Handout}
    (h : Covers files reports addresses) (hsub : reports ⊆ reports') :
    Covers files reports' addresses := by
  intro i file hfile
  obtain ⟨address, haddress, hne, hmem⟩ := h i file hfile
  exact ⟨address, haddress, hne, hsub hmem⟩

/-! ### The book -/

/-- The map tasks have the names of the files, and their places as numbers. -/
structure Numbered (files : List String) (tasks : Tasks String) : Prop where
  lookup : ∀ name i, (tasks.lookup name).map (·.number) = some i ↔ files[i]? = some name
  length : tasks.entries.length = files.length

theorem Numbered.mapVal {files : List String} {tasks : Tasks String} (h : Numbered files tasks)
    {f : String → TaskMetadata String → TaskMetadata String}
    (hf : ∀ name task, (f name task).number = task.number) : Numbered files (tasks.mapVal f) := by
  refine ⟨fun name i => ?_, (Table.length_mapVal f tasks).trans h.length⟩
  rw [← h.lookup, Table.lookup_mapVal, Option.map_map]
  refine iff_of_eq (congrArg (· = some i) (congrArg (Option.map · (tasks.lookup name)) ?_))
  exact funext (hf name)

theorem Numbered.evolves {files : List String} {tasks tasks' : Tasks String}
    (h : Numbered files tasks) (he : Evolves tasks tasks') : Numbered files tasks' := by
  obtain ⟨f, rfl, hnumber, -⟩ := he
  exact h.mapVal hnumber

theorem Numbered.complete {files : List String} {tasks : Tasks String} (h : Numbered files tasks)
    (name : String) : Numbered files (complete name tasks) := by
  refine h.mapVal fun name' task => ?_
  split <;> rfl

theorem numbered_makeMapTasks {files : List String} (hfiles : files.Nodup) :
    Numbered files (makeMapTasks "" files) := by
  refine ⟨fun name i => ?_, ?_⟩
  · rw [Option.map_eq_some_iff]
    constructor
    · rintro ⟨task, htask, rfl⟩
      obtain ⟨i, hi, rfl⟩ := (lookup_makeMapTasks hfiles).mp htask
      exact hi
    · intro hi
      exact ⟨newTask "" i, (lookup_makeMapTasks hfiles).mpr ⟨i, hi, rfl⟩, rfl⟩
  · exact length_makeMapTasks hfiles ""

/-- The book has the worker of a task at the number of the task. -/
theorem Coordinator.getElem?_locations {files : List String} {c : Coordinator}
    (h : Numbered files c.mapTasks) {name : String} {task : TaskMetadata String}
    (htask : c.mapTasks.lookup name = some task) (hname : name ≠ "")
    (hassigned : task.assignedWorker ≠ "") :
    c.locations[task.number]? = some task.assignedWorker := by
  have hfile : files[task.number]? = some name := (h.lookup name _).mp (by rw [htask]; rfl)
  have hlt : task.number < c.mapTasks.entries.length := by
    rw [h.length]
    exact (List.getElem?_eq_some_iff.mp hfile).1
  refine Table.getElem?_scatter (a := (⟨name, task⟩ : Σ _ : String, TaskMetadata String))
    (Table.mem_entries.mpr htask) ⟨hname, hassigned⟩ (by rwa [List.length_replicate]) ?_
  -- no other task has this number
  rintro ⟨name', task'⟩ hmem - hnumber
  have htask' := Table.mem_entries.mp hmem
  have hfile' := (h.lookup name' task'.number).mp (by rw [htask']; rfl)
  dsimp only at hnumber
  rw [hnumber, hfile, Option.some.injEq] at hfile'
  subst hfile'
  rw [htask, Option.some.injEq] at htask'
  rw [htask']

theorem Handout.args_map {handout : Handout} (h : handout.args.type = .map) :
    handout.type = .map ∧ handout.args.name = handout.name := by
  unfold args at h ⊢
  split at h
  · next htype => exact ⟨htype, by rw [if_pos htype]⟩
  · cases h

theorem Coordinator.mapTasks_updateTaskStatus (c : Coordinator) (now : ℕ)
    (args : UpdateTaskStatusArgs) :
    (c.updateTaskStatus now args).mapTasks =
      if args.type = .map then complete args.name c.mapTasks else c.mapTasks := by
  unfold updateTaskStatus
  dsimp only
  split
  · cases htask : (c.heardOf now args.workerAddress).mapTasks.lookup args.name with
    | none => exact (Table.modify_of_lookup_eq_none _ htask).symm
    | some task => rfl
  · split <;> rfl

namespace System

variable {files : List String} {s t : System}

/-- **The address book is sound**: a reduce task is handed out with an address for each
map task, of a worker that has reported it, and `FetchData` asks there for the output. -/
def AddressBookSound (files : List String) (s : System) : Prop :=
  ∀ worker reply, s.answer = some (worker, .ok reply) → reply.type = .reduce →
    ∀ (i : ℕ) file, files[i]? = some file →
      ∃ address, reply.mapAddresses[i]? = some address ∧ address ≠ "" ∧
        { worker := address, type := .map, name := file } ∈ s.reports ∧
        (address, intermediateName i reply.number) ∈
          fetchRequests reply.mapAddresses reply.number

/-- Every worker has an address. -/
def Named : Event → Prop
  | .getTask workerAddress _ => workerAddress ≠ ""
  | _ => True

/-- A map task is reported by the worker that it is assigned to, and is not completed. -/
def HeldReport (s : System) : Event → Prop
  | .report handout => handout.type = .map →
      (s.coordinator.mapTasks.lookup handout.name).all (fun task =>
        decide (task.status ≠ .completed) && decide (task.assignedWorker = handout.worker)) = true
  | _ => True

/-- A call that waited for a map task goes on to reduce tasks with the present book. -/
def FreshLocations (s : System) : Event → Prop
  | .resume i _ => s.coordinator.mapRemaining = 0 →
      s.waiting[i]?.all (fun call =>
        decide (call.loop ≠ .map) || decide (call.locations = s.coordinator.locations)) = true
  | _ => True

/-- The worker has an address, and the step is none of the two that go wrong. -/
def Addressed (s : System) (e : Event) : Prop := Named e ∧ HeldReport s e ∧ FreshLocations s e

instance : (e : Event) → Decidable (Named e)
  | .getTask .. => inferInstanceAs (Decidable (_ ≠ _))
  | .tick _ | .resume .. | .report _ | .healthCheck _ | .reportFailure _ | .reschedule _
  | .monitor _ | .done => inferInstanceAs (Decidable True)

instance (s : System) : (e : Event) → Decidable (HeldReport s e)
  | .report _ => inferInstanceAs (Decidable (_ → _))
  | .tick _ | .getTask .. | .resume .. | .healthCheck _ | .reportFailure _ | .reschedule _
  | .monitor _ | .done => inferInstanceAs (Decidable True)

instance (s : System) : (e : Event) → Decidable (FreshLocations s e)
  | .resume .. => inferInstanceAs (Decidable (_ → _))
  | .tick _ | .getTask .. | .report _ | .healthCheck _ | .reportFailure _ | .reschedule _
  | .monitor _ | .done => inferInstanceAs (Decidable True)

instance (s : System) (e : Event) : Decidable (Addressed s e) :=
  inferInstanceAs (Decidable (_ ∧ _ ∧ _))

/-! ### The invariant -/

/-- A completed map task is assigned to a worker that has reported it. -/
def Booked (tasks : Tasks String) (reports : List Handout) : Prop :=
  ∀ name task, tasks.lookup name = some task → task.status = .completed →
    name ≠ "" ∧ task.assignedWorker ≠ "" ∧
      { worker := task.assignedWorker, type := .map, name := name } ∈ reports

theorem Booked.evolves {tasks tasks' : Tasks String} {reports : List Handout}
    (h : Booked tasks reports) (he : Evolves tasks tasks') : Booked tasks' reports := by
  obtain ⟨f, rfl, -, hf⟩ := he
  intro name task' htask' hstatus
  rw [Table.lookup_mapVal] at htask'
  obtain ⟨task, htask, rfl⟩ := Option.map_eq_some_iff.mp htask'
  rcases hf name task htask with heq | hne
  · rw [heq] at hstatus ⊢
    exact h name task htask hstatus
  · exact absurd hstatus hne

theorem Booked.mono {tasks : Tasks String} {reports reports' : List Handout}
    (h : Booked tasks reports) (hsub : reports ⊆ reports') : Booked tasks reports' := by
  intro name task htask hstatus
  obtain ⟨hname, hassigned, hmem⟩ := h name task htask hstatus
  exact ⟨hname, hassigned, hsub hmem⟩

theorem Booked.complete {tasks : Tasks String} {reports : List Handout} (h : Booked tasks reports)
    {handout : Handout} (htype : handout.type = .map) (hname : handout.name ≠ "")
    (hworker : handout.worker ≠ "")
    (hheld : (tasks.lookup handout.name).all (fun task =>
      decide (task.status ≠ .completed) && decide (task.assignedWorker = handout.worker)) = true) :
    Booked (complete handout.name tasks) (handout :: reports) := by
  intro name task' htask' hstatus
  rw [MapReduce.complete, Table.lookup_modify] at htask'
  split at htask'
  · next heq =>
    -- the task that is reported
    obtain ⟨task, htask, rfl⟩ := Option.map_eq_some_iff.mp htask'
    subst heq
    rw [htask, Option.all_some, Bool.and_eq_true, decide_eq_true_iff, decide_eq_true_iff] at hheld
    obtain ⟨worker, type, name⟩ := handout
    dsimp only at htype hheld ⊢
    rw [hheld.2, htype]
    exact ⟨hname, hworker, List.mem_cons_self⟩
  · exact h.mono (List.subset_cons_self _ _) name task' htask' hstatus

/-- The map tasks are in order, and so are the locations of every call that has got to
reduce tasks. -/
structure Sound (files : List String) (s : System) : Prop where
  map : Exact s.coordinator.mapTasks s.coordinator.mapRemaining
  numbered : Numbered files s.coordinator.mapTasks
  booked : Booked s.coordinator.mapTasks s.reports
  waiting : ∀ call ∈ s.waiting, call.workerAddress ≠ "" ∧
    (call.loop = .reduce → Covers files s.reports call.locations)
  handouts : ∀ handout ∈ s.handouts, handout.worker ≠ "" ∧
    (handout.type = .map → handout.name ≠ "")
  answer : ∀ worker reply, s.answer = some (worker, .ok reply) → reply.type = .reduce →
    Covers files s.reports reply.mapAddresses

theorem Sound.addressBookSound (h : Sound files s) : AddressBookSound files s := by
  intro worker reply hanswer htype i file hfile
  obtain ⟨address, haddress, hne, hmem⟩ := h.answer worker reply hanswer htype i file hfile
  exact ⟨address, haddress, hne, hmem, mem_fetchRequests haddress hne reply.number⟩

theorem sound_make (hfiles : files.Nodup) (nReduce : ℕ) : Sound files (make files nReduce) where
  map := exact_makeMapTasks hfiles ""
  numbered := numbered_makeMapTasks hfiles
  booked := by
    intro name task htask hstatus
    obtain ⟨i, -, rfl⟩ := (lookup_makeMapTasks hfiles).mp htask
    cases hstatus
  waiting := by
    intro call hcall
    cases hcall
  handouts := by
    intro handout hhandout
    cases hhandout
  answer := by
    intro worker reply hanswer
    cases hanswer

/-- When no map task remains, the book is complete. -/
theorem Sound.covers (h : Sound files s) (hzero : s.coordinator.mapRemaining = 0) :
    Covers files s.reports s.coordinator.locations := by
  intro i file hfile
  obtain ⟨task, htask, rfl⟩ := Option.map_eq_some_iff.mp ((h.numbered.lookup file i).mpr hfile)
  have hstatus := h.map.eq_zero_iff.mp hzero file task htask
  obtain ⟨hname, hassigned, hmem⟩ := h.booked file task htask hstatus
  exact ⟨task.assignedWorker,
    Coordinator.getElem?_locations h.numbered htask hname hassigned, hassigned, hmem⟩

/-- A method that answers no call. -/
theorem Sound.update (h : Sound files s) {c : Coordinator} (hc : Maintains s.coordinator c)
    (woke : Bool) : Sound files (s.update c woke) where
  map := hc.map h.map
  numbered := h.numbered.evolves hc.evolves
  booked := h.booked.evolves hc.evolves
  waiting := by
    intro call hcall
    dsimp only [System.update] at hcall
    split at hcall
    · obtain ⟨call', hcall', rfl⟩ := List.mem_map.mp hcall
      exact h.waiting call' hcall'
    · exact h.waiting call hcall
  handouts := h.handouts
  answer := by
    intro worker reply hanswer
    cases hanswer

/-- A call that returns or waits. -/
theorem Sound.settle (h : Sound files s) {c : Coordinator} {p : Progress} {picks : Picks}
    {locations : List String} (hc : Maintains s.coordinator c)
    (hfits : Coordinator.Fits p picks locations)
    (hp : p.Reduces → Covers files s.reports locations) {workerAddress : String}
    (hworker : workerAddress ≠ "") : Sound files (s.settle workerAddress locations (c, p)) := by
  have hmap := hc.map h.map
  have hnumbered := h.numbered.evolves hc.evolves
  have hbooked := h.booked.evolves hc.evolves
  cases p with
  | answered answer =>
    refine ⟨hmap, hnumbered, hbooked, h.waiting, fun handout hhandout => ?_,
      fun worker reply hanswer htype => ?_⟩
    · cases answer with
      | error message => exact h.handouts handout hhandout
      | ok reply =>
        rcases List.mem_cons.mp hhandout with rfl | hold
        · exact ⟨hworker, (hfits reply rfl).2.1⟩
        · exact h.handouts handout hold
    · cases hanswer
      rw [(hfits reply rfl).1]
      exact hp htype
  | blocked loop =>
    refine ⟨hmap, hnumbered, hbooked, fun call hcall => ?_, h.handouts,
      fun worker reply hanswer => by cases hanswer⟩
    rcases List.mem_append.mp hcall with hold | hnew
    · exact h.waiting call hold
    · cases List.mem_singleton.mp hnew
      exact ⟨hworker, hp⟩

/-- A report by the worker that has the task. -/
theorem Sound.report (h : Sound files s) {handout : Handout} (hmem : handout ∈ s.handouts)
    (hheld : HeldReport s (.report handout)) :
    Sound files { s.update (s.coordinator.updateTaskStatus s.now handout.args) false with
      handouts := s.handouts.erase handout
      reports := handout :: s.reports } := by
  obtain ⟨hworker, hname⟩ := h.handouts handout hmem
  have hsub : s.reports ⊆ handout :: s.reports := List.subset_cons_self _ _
  have hmap : Exact (s.coordinator.updateTaskStatus s.now handout.args).mapTasks
      (s.coordinator.updateTaskStatus s.now handout.args).mapRemaining := by
    refine Coordinator.updateTaskStatus_map h.map (fun htype hcompleted => ?_) _
    rw [Coordinator.tasks, if_pos htype] at hcompleted
    obtain ⟨htype, hargs⟩ := Handout.args_map htype
    rw [hargs] at hcompleted
    obtain ⟨task, htask, hstatus⟩ := Option.map_eq_some_iff.mp hcompleted
    have := hheld htype
    simp [htask, hstatus] at this
  have hbook : Numbered files (s.coordinator.updateTaskStatus s.now handout.args).mapTasks ∧
      Booked (s.coordinator.updateTaskStatus s.now handout.args).mapTasks
        (handout :: s.reports) := by
    rw [Coordinator.mapTasks_updateTaskStatus]
    split
    · next htype =>
      obtain ⟨htype, hargs⟩ := Handout.args_map htype
      rw [hargs]
      exact ⟨h.numbered.complete _, h.booked.complete htype (hname htype) hworker (hheld htype)⟩
    · exact ⟨h.numbered, h.booked.mono hsub⟩
  exact {
    map := hmap
    numbered := hbook.1
    booked := hbook.2
    waiting := fun call hcall => ⟨(h.waiting call hcall).1,
      fun hloop => ((h.waiting call hcall).2 hloop).mono hsub⟩
    handouts := fun other hother => h.handouts other (List.mem_of_mem_erase hother)
    answer := fun worker reply hanswer => by cases hanswer }

/-- **The step lemma.** -/
theorem Sound.of_step (h : Sound files s) {e : Event} (hok : Addressed s e)
    (hstep : s.step e = some t) : Sound files t := by
  obtain ⟨hnamed, hheld, hfresh⟩ := hok
  cases e with
  | tick d =>
    cases hstep
    exact ⟨h.map, h.numbered, h.booked, h.waiting, h.handouts,
      fun worker reply hans => by cases hans⟩
  | getTask workerAddress picks =>
    obtain ⟨⟨c, p⟩, hget, rfl⟩ := Option.map_eq_some_iff.mp hstep
    obtain ⟨hc, -, hfits, hzero⟩ := Coordinator.getTask_spec hget
    exact h.settle hc hfits (fun hp => h.covers (hzero hp)) hnamed
  | resume i picks =>
    obtain ⟨call, c, p, hcall, hresume, rfl⟩ := resume_cases hstep
    obtain ⟨hc, -, hfits, hzero⟩ := Coordinator.resume_spec hresume
    obtain ⟨hworker, hcovers⟩ := h.waiting call (List.mem_of_getElem? hcall)
    have h' : Sound files { s with waiting := s.waiting.eraseIdx i } :=
      ⟨h.map, h.numbered, h.booked,
        fun call hcall => h.waiting call (List.mem_of_mem_eraseIdx hcall), h.handouts, h.answer⟩
    refine h'.settle hc hfits (fun hp => ?_) hworker
    cases hloop : call.loop with
    | map =>
      -- the condition makes up for the old locations
      have hz := hzero hp hloop
      have hlocations : call.locations = s.coordinator.locations := by
        have := hfresh hz
        simpa [hcall, hloop] using this
      rw [hlocations]
      exact h.covers hz
    | reduce => exact hcovers hloop
  | report handout =>
    obtain ⟨hmem, rfl⟩ := report_cases hstep
    exact h.report hmem hheld
  | healthCheck workerAddress =>
    cases hstep
    exact h.update (s.coordinator.healthCheck_maintains s.now workerAddress) false
  | reportFailure failedWorker =>
    cases hstep
    exact h.update (s.coordinator.reportFailure_maintains failedWorker) true
  | reschedule delay =>
    obtain rfl := reschedule_cases hstep
    have hnew := h.update (s.coordinator.rescheduler_maintains fun name => s.now + delay name)
      (s.coordinator.rescheduler fun name => s.now + delay name).woke
    exact ⟨hnew.map, hnew.numbered, hnew.booked, hnew.waiting, hnew.handouts, hnew.answer⟩
  | monitor delay =>
    cases hstep
    exact h.update (s.coordinator.healthMonitor_maintains _) _
  | done =>
    cases hstep
    exact h.update s.coordinator.done_maintains false

/-- **The address book is sound** in every run of workers with addresses in which map
tasks are only reported by the workers they are assigned to and no call that waited
goes on to reduce tasks with an old book. -/
theorem address_book_sound (hfiles : files.Nodup) (nReduce : ℕ)
    (h : ReachWhile step Addressed (make files nReduce) s) : AddressBookSound files s :=
  (h.invariant (sound_make hfiles nReduce) fun _ _ _ hinv hok hstep =>
    hinv.of_step hok hstep).addressBookSound

/-- Worker `A` completes the map task and is not heard of again; `B` does it once more
and goes on to the reduce task. -/
def movedRun : List Event :=
  [.getTask "A" ⟨some "f", none⟩, .report ⟨"A", .map, "f"⟩, .tick (5 * second),
    .monitor fun _ => 0, .getTask "B" ⟨some "f", none⟩, .report ⟨"B", .map, "f"⟩,
    .getTask "B" ⟨none, some "0"⟩]

theorem address_book_sound_movedRun : ∃ s,
    run (restrict step Addressed) (make ["f"] 1) movedRun = some s ∧
      answeredWith (fun reply => (reply.type, reply.mapAddresses)) s.answer =
        some (.reduce, ["B"]) ∧ AddressBookSound ["f"] s := by
  have hobs : (run (restrict step Addressed) (make ["f"] 1) movedRun).map
      (fun s => answeredWith (fun reply => (reply.type, reply.mapAddresses)) s.answer) =
      some (some (.reduce, ["B"])) := by decide +kernel
  obtain ⟨s, hs, hval⟩ := Option.map_eq_some_iff.mp hobs
  exact ⟨s, hs, hval, address_book_sound (by decide) 1 (reachWhile_of_run _ _ _ hs)⟩

/-! ### Wrong addresses -/

/-- Worker `A` reports its map task after it has been taken back. -/
def nobodyRun : List Event :=
  [.getTask "A" ⟨some "f", none⟩, .tick (11 * second), .reschedule fun _ => 0,
    .report ⟨"A", .map, "f"⟩, .getTask "B" ⟨none, some "0"⟩]

/-- Worker `B` waits since `A` has the map task.  The task is taken from `A` and given to
`C`, which completes it; then `B` is handed the reduce task. -/
def oldBookRun : List Event :=
  [.getTask "A" ⟨some "f", none⟩, .getTask "B" ⟨none, none⟩, .tick (11 * second),
    .reschedule fun _ => 0, .getTask "C" ⟨some "f", none⟩, .resume 0 ⟨none, none⟩,
    .report ⟨"C", .map, "f"⟩, .reschedule fun _ => 0, .resume 0 ⟨none, some "0"⟩]

/-- After `nobodyRun` the address is empty, and after `oldBookRun` it is that of `A`,
which has not reported anything.  Each run has only one of the two kinds of steps. -/
theorem not_addressBookSound :
    (∃ s, ReachWhile step (fun s e => Named e ∧ FreshLocations s e) (make ["f"] 1) s ∧
      Reach step (make ["f"] 1) s ∧ ¬ AddressBookSound ["f"] s) ∧
    ∃ s, ReachWhile step (fun s e => Named e ∧ HeldReport s e) (make ["f"] 1) s ∧
      Reach step (make ["f"] 1) s ∧ ¬ AddressBookSound ["f"] s := by
  constructor
  · have hobs : (run (restrict step fun s e => Named e ∧ FreshLocations s e) (make ["f"] 1)
        nobodyRun).map
        (fun s => answeredWith (fun reply => (reply.type, reply.mapAddresses)) s.answer) =
        some (some (.reduce, [""])) := by decide +kernel
    obtain ⟨s, hs, hval⟩ := Option.map_eq_some_iff.mp hobs
    have hreach := reachWhile_of_run _ _ _ hs
    refine ⟨s, hreach, hreach.mono fun _ _ _ => trivial, fun hsound => ?_⟩
    obtain ⟨worker, reply, hanswer, hreply⟩ := exists_of_answeredWith hval
    simp only [Prod.mk.injEq] at hreply
    obtain ⟨address, haddress, hne, -⟩ := hsound worker reply hanswer hreply.1 0 "f" rfl
    rw [hreply.2] at haddress
    cases haddress
    exact hne rfl
  · have hobs : (run (restrict step fun s e => Named e ∧ HeldReport s e) (make ["f"] 1)
        oldBookRun).map (fun s =>
        (answeredWith (fun reply => (reply.type, reply.mapAddresses)) s.answer, s.reports)) =
        some (some (.reduce, ["A"]), [⟨"C", .map, "f"⟩]) := by decide +kernel
    obtain ⟨s, hs, hval⟩ := Option.map_eq_some_iff.mp hobs
    simp only [Prod.mk.injEq] at hval
    have hreach := reachWhile_of_run _ _ _ hs
    refine ⟨s, hreach, hreach.mono fun _ _ _ => trivial, fun hsound => ?_⟩
    obtain ⟨worker, reply, hanswer, hreply⟩ := exists_of_answeredWith hval.1
    simp only [Prod.mk.injEq] at hreply
    obtain ⟨address, haddress, -, hmem, -⟩ := hsound worker reply hanswer hreply.1 0 "f" rfl
    rw [hreply.2] at haddress
    cases haddress
    rw [hval.2] at hmem
    exact absurd hmem (by decide)

end System

end ExchangeLabs.MapReduce.Distributed
