import ExchangeLabs.MapReduce.Job

/-!
# What a job leaves behind

However the workers are interleaved, an orderly job writes what the sequential program
writes.  The intermediate files of a completed map task are there and never change, since
every execution of the task writes the same.  The output file of a reduce task may be
emptied and written by several workers at once; then, too, every cell is right or is still
to be written by one of them.

## Main definitions

* `Execution.Sound` — what has been done and what is to be done make up the task.
* `Job.Inv` — the invariant of an orderly job.

## Main results

* `Job.Inv.of_step` — **the step lemma.**
* `job_writes_same` — when the job is done and nobody is writing, the output is right.
* `job_dies` — only an input file that cannot be read makes a worker give up.
-/

namespace ExchangeLabs.MapReduce.Local

open Worker Worker.Env Overwrite

variable {env : Env} {files : List String} {n : ℕ}

/-! ### Files -/

/-- The input files, as the workers open them. -/
def inputs (files : List String) : List GoString := files.map utf8

theorem getElem?_inputs {i : ℕ} {filename : GoString} :
    (inputs files)[i]? = some filename ↔ ∃ name, files[i]? = some name ∧ utf8 name = filename := by
  rw [inputs, List.getElem?_map, Option.map_eq_some_iff]

/-- The file of the `i`-th map task for partition `j`. -/
def mapFile (env : Env) (n j : ℕ) (name : String) : GoString :=
  encode (bucket n j (env.mapOutput (utf8 name)))

/-- The intermediate files that are there stay. -/
def KeepsMaps (env : Env) (files : List String) (n : ℕ) (dir dir' : Directory) : Prop :=
  ∀ (i : ℕ) name j, files[i]? = some name →
    dir.lookup (intermediateName i j) = some (mapFile env n j name) →
    dir'.lookup (intermediateName i j) = some (mapFile env n j name)

theorem KeepsMaps.refl (dir : Directory) : KeepsMaps env files n dir dir := fun _ _ _ _ => id

theorem keepsMaps_insert_output (dir : Directory) (p : ℕ) (content : GoString) :
    KeepsMaps env files n dir (AList.insert (outputName p) content dir) := by
  intro i name j _ hlookup
  rwa [AList.lookup_insert_ne (intermediateName_ne_outputName i j p)]

theorem keepsMaps_modify_output (dir : Directory) (p : ℕ) (f : GoString → GoString) :
    KeepsMaps env files n dir (dir.modify (outputName p) f) := by
  intro i name j _ hlookup
  rwa [Table.lookup_modify_ne (intermediateName_ne_outputName i j p)]

theorem keepsMaps_insert_map (dir : Directory) {i : ℕ} {name : String} (hi : files[i]? = some name)
    (j : ℕ) : KeepsMaps env files n dir
      (AList.insert (intermediateName i j) (mapFile env n j name) dir) := by
  intro i' name' j' hi' hlookup
  by_cases heq : intermediateName i' j' = intermediateName i j
  · obtain ⟨rfl, rfl⟩ := intermediateName_inj heq
    rw [hi, Option.some.injEq] at hi'
    subst hi'
    exact AList.lookup_insert _
  · rwa [AList.lookup_insert_ne heq]

/-- Only files of the job: intermediate files, and output files, which may be unfinished. -/
def Prepared (env : Env) (files : List String) (n : ℕ) (dir : Directory) : Prop :=
  ∀ name content, dir.lookup name = some content →
    env.IsMapFile (inputs files) n name content ∨ ∃ p < n, name = outputName p

namespace Prepared

variable {dir : Directory}

theorem insert_map (h : Prepared env files n dir) {i j : ℕ} {name : String}
    (hi : files[i]? = some name) (hne : bucket n j (env.mapOutput (utf8 name)) ≠ []) :
    Prepared env files n (AList.insert (intermediateName i j) (mapFile env n j name) dir) := by
  intro file content hfile
  by_cases heq : file = intermediateName i j
  · subst heq
    rw [AList.lookup_insert, Option.some.injEq] at hfile
    exact .inl ⟨i, utf8 name, j, getElem?_inputs.mpr ⟨name, hi, rfl⟩, rfl, hne, hfile.symm⟩
  · rw [AList.lookup_insert_ne heq] at hfile
    exact h file content hfile

theorem insert_output (h : Prepared env files n dir) {p : ℕ} (hp : p < n) (content : GoString) :
    Prepared env files n (AList.insert (outputName p) content dir) := by
  intro file content' hfile
  by_cases heq : file = outputName p
  · exact .inr ⟨p, hp, heq⟩
  · rw [AList.lookup_insert_ne heq] at hfile
    exact h file content' hfile

theorem modify_output (h : Prepared env files n dir) {p : ℕ} (hp : p < n)
    (f : GoString → GoString) : Prepared env files n (dir.modify (outputName p) f) := by
  intro file content' hfile
  by_cases heq : file = outputName p
  · exact .inr ⟨p, hp, heq⟩
  · rw [Table.lookup_modify_ne heq] at hfile
    exact h file content' hfile

end Prepared

/-! ### Executions -/

namespace Execution

variable {maps maps' : Tasks Unit} {dir dir' : Directory} {ex : Execution}

/-- What has been done and what is to be done make up the task. -/
inductive Sound (env : Env) (files : List String) (n : ℕ) (maps : Tasks Unit) (dir : Directory) :
    Execution → Prop
  | handed {worker : ℕ} {reply : GetTaskReply} (hreply : Assigned files n reply)
      (hmaps : reply.type = .reduce → AllCompleted maps) :
      Sound env files n maps dir ⟨worker, reply, .handed⟩
  | placing {worker i : ℕ} {name : String} {mp : Table ℕ GoString} (hi : files[i]? = some name)
      (hread : ∃ content, env.readFile (utf8 name) = some content)
      (hmp : ∀ j f, mp.lookup j = some f →
        bucket n j (env.mapOutput (utf8 name)) ≠ [] ∧ f = mapFile env n j name)
      (hdir : ∀ j, bucket n j (env.mapOutput (utf8 name)) ≠ [] → mp.lookup j = none →
        dir.lookup (intermediateName i j) = some (mapFile env n j name)) :
      Sound env files n maps dir ⟨worker, mapReply name i n, .placing mp⟩
  | reading {worker p : ℕ} {tasks : List (GoString × ℕ)} {data : List KeyValue} (hp : p < n)
      (hmaps : AllCompleted maps) (htasks : ∀ task ∈ tasks, task ∈ env.senders (inputs files) n p)
      (hdata : (data ++ tasks.flatMap fun task => bucket n p (env.mapOutput task.1)).Perm
        (bucket n p (env.emitted (inputs files)))) :
      Sound env files n maps dir
        ⟨worker, reduceReply p, .reading (tasks.map fun task => intermediateName task.2 p) data⟩
  | sorted {worker p : ℕ} {lines : List GoString} (hp : p < n) (hmaps : AllCompleted maps)
      (hlines : lines.flatten = env.outputContent (inputs files) n p) :
      Sound env files n maps dir ⟨worker, reduceReply p, .sorted lines⟩
  | writing {worker p offset : ℕ} {lines : List GoString} (hp : p < n) (hmaps : AllCompleted maps)
      (hoffset : offset ≤ (env.outputContent (inputs files) n p).length)
      (hlines : (env.outputContent (inputs files) n p).drop offset = lines.flatten) :
      Sound env files n maps dir ⟨worker, reduceReply p, .writing offset lines⟩

theorem Sound.mono (h : Sound env files n maps dir ex)
    (hmaps : AllCompleted maps → AllCompleted maps') (hdir : KeepsMaps env files n dir dir') :
    Sound env files n maps' dir' ex := by
  cases h with
  | handed hreply hall => exact .handed hreply fun htype => hmaps (hall htype)
  | placing hi hread hmp hrenamed =>
    exact .placing hi hread hmp fun j hne hnone => hdir _ _ j hi (hrenamed j hne hnone)
  | reading hp hall htasks hdata => exact .reading hp (hmaps hall) htasks hdata
  | sorted hp hall hlines => exact .sorted hp (hmaps hall) hlines
  | writing hp hall hoffset hlines => exact .writing hp (hmaps hall) hoffset hlines

theorem Sound.assigned (h : Sound env files n maps dir ex) : Assigned files n ex.reply := by
  cases h with
  | handed hreply _ => exact hreply
  | placing hi _ _ _ => exact .map hi
  | reading hp _ _ _ => exact .reduce hp
  | sorted hp _ _ => exact .reduce hp
  | writing hp _ _ _ => exact .reduce hp

/-- A worker without lines left has passed all of the output file. -/
theorem Sound.through (h : Sound env files n maps dir ex) {p offset : ℕ}
    (hname : ex.reply.name = toString p) (hstage : ex.stage = .writing offset []) :
    (env.outputContent (inputs files) n p).length ≤ offset := by
  cases h with
  | writing hp hall hoffset hlines =>
    obtain rfl := toString_injective hname
    cases hstage
    exact List.drop_eq_nil_iff.mp hlines
  | handed | placing | reading | sorted => cases hstage

/-- What is left behind by an execution that is over. -/
theorem Sound.of_finished (h : Sound env files n maps dir ex) (hfinished : ex.finished = true) :
    (∃ i name, files[i]? = some name ∧ ex.reply = mapReply name i n ∧
      (∃ content, env.readFile (utf8 name) = some content) ∧
      ∀ j, bucket n j (env.mapOutput (utf8 name)) ≠ [] →
        dir.lookup (intermediateName i j) = some (mapFile env n j name)) ∨
    (∃ p < n, ex.reply = reduceReply p ∧ AllCompleted maps ∧ ex.Begun (toString p)) := by
  cases h with
  | @placing worker i name mp hi hread hmp hdir =>
    refine .inl ⟨i, name, hi, rfl, hread, fun j hne => hdir j hne ?_⟩
    have hempty : mp.entries = [] := List.isEmpty_iff.mp hfinished
    rw [AList.lookup, hempty]
    rfl
  | @writing worker p offset lines hp hmaps hoffset hlines =>
    cases lines with
    | nil => exact .inr ⟨p, hp, rfl, hmaps, rfl, offset, [], rfl⟩
    | cons line lines => cases hfinished
  | handed | reading | sorted => cases hfinished

end Execution

/-! ### The invariant -/

namespace Job

variable {job : Job} {p : ℕ}

/-- Where the workers are that have opened the output file of the reduce task `name`. -/
def writers (job : Job) (name : String) : Set ℕ :=
  {o | ∃ ex ∈ job.running, ex.reply.name = name ∧ ∃ lines, ex.stage = .writing o lines}

/-- The reduce task `name` is completed, or a worker has its output file open. -/
def Written (job : Job) (name : String) : Prop :=
  Completed job.system.coordinator.reduceTasks name ∨ ∃ ex ∈ job.running, ex.Begun name

/-- The output file of partition `p` is there, and its writers will mend it. -/
def OutputOk (env : Env) (files : List String) (n : ℕ) (job : Job) (p : ℕ) : Prop :=
  ∃ content, job.dir.lookup (outputName p) = some content ∧
    Mends (env.outputContent (inputs files) n p) (job.writers (toString p)) content

/-- The invariant of an orderly job. -/
structure Inv (env : Env) (files : List String) (n : ℕ) (job : Job) : Prop where
  system : job.system.Inv
  ofJob : job.system.coordinator.OfJob files n
  running : ∀ ex ∈ job.running, ex.Sound env files n job.system.coordinator.mapTasks job.dir
  known : Prepared env files n job.dir
  read : ∀ name, Completed job.system.coordinator.mapTasks name →
    ∃ content, env.readFile (utf8 name) = some content
  mapped : ∀ (i : ℕ) name, files[i]? = some name →
    Completed job.system.coordinator.mapTasks name →
      ∀ j, bucket n j (env.mapOutput (utf8 name)) ≠ [] →
        job.dir.lookup (intermediateName i j) = some (mapFile env n j name)
  reduced : ∀ name, Completed job.system.coordinator.reduceTasks name →
    AllCompleted job.system.coordinator.mapTasks
  output : ∀ p < n, job.Written (toString p) → job.OutputOk env files n p

theorem OutputOk.mono {job' : Job} (h : job.OutputOk env files n p)
    (hdir : job'.dir.lookup (outputName p) = job.dir.lookup (outputName p))
    (hwriters : ∀ o ∈ job.writers (toString p), o ∈ job'.writers (toString p) ∨
      (env.outputContent (inputs files) n p).length ≤ o) : job'.OutputOk env files n p := by
  obtain ⟨content, hcontent, hmends⟩ := h
  exact ⟨content, hdir.trans hcontent, hmends.mono hwriters⟩

theorem inv_make (hfiles : files.Nodup) {dir : Directory} (hdir : Prepared env files n dir) :
    Inv env files n (make files n dir) where
  system := System.inv_make hfiles n
  ofJob := Coordinator.ofJob_make hfiles n
  running := by
    intro ex hex
    cases hex
  known := hdir
  read := fun name hcompleted => absurd hcompleted (not_completed_makeMapTasks hfiles name)
  mapped := fun i name _ hcompleted => absurd hcompleted (not_completed_makeMapTasks hfiles name)
  reduced := fun name hcompleted => absurd hcompleted (not_completed_makeReduceTasks n name)
  output := by
    intro p _ hwritten
    rcases hwritten with hcompleted | ⟨ex, hex, -⟩
    · exact absurd hcompleted (not_completed_makeReduceTasks n _)
    · cases hex

/-- Once all map tasks are completed, their files are there. -/
theorem Inv.toMapped (h : Inv env files n job)
    (hall : AllCompleted job.system.coordinator.mapTasks) :
    env.Mapped (inputs files) n job.dir where
  known := h.known
  tasks := by
    intro i filename j hi hne
    obtain ⟨name, hname, rfl⟩ := getElem?_inputs.mp hi
    exact h.mapped i name hname ((allCompleted_iff h.ofJob.map).mp hall i name hname) j hne

/-! ### Steps of the coordinator -/

theorem mem_begin {s : System} {ex : Execution} :
    ex ∈ (job.begin s).running ↔ ex ∈ job.running ∨
      ∃ worker reply, s.answer = some (worker, .ok reply) ∧ ex = ⟨worker, reply, .handed⟩ := by
  unfold begin
  dsimp only
  split
  · next worker reply hanswer =>
    rw [List.mem_append, List.mem_singleton, hanswer]
    simp
  · next hanswer =>
    constructor
    · exact .inl
    · rintro (hex | ⟨worker, reply, hreply, -⟩)
      · exact hex
      · exact absurd hreply (hanswer worker reply)

/-- A step of the coordinator in which nothing is completed. -/
theorem Inv.begin (h : Inv env files n job) {s : System} (hs : s.Inv)
    (hsame : job.system.coordinator.Same s.coordinator) (hanswers : s.Answers files n) :
    Inv env files n (job.begin s) where
  system := hs
  ofJob := h.ofJob.same hsame
  running := by
    intro ex hex
    rcases mem_begin.mp hex with hex | ⟨worker, reply, hanswer, rfl⟩
    · exact (h.running ex hex).mono hsame.map.allCompleted (.refl _)
    · refine .handed (hanswers worker reply hanswer) fun htype => ?_
      exact hs.map.eq_zero_iff.mp (hs.answer worker reply hanswer htype)
  known := h.known
  read := fun name hcompleted => h.read name ((hsame.map.completed name).mp hcompleted)
  mapped :=
    fun i name hi hcompleted => h.mapped i name hi ((hsame.map.completed name).mp hcompleted)
  reduced := fun name hcompleted =>
    hsame.map.allCompleted (h.reduced name ((hsame.reduce.completed name).mp hcompleted))
  output := by
    intro p hp hwritten
    have hold : job.Written (toString p) := by
      rcases hwritten with hcompleted | ⟨ex, hex, hbegun⟩
      · exact .inl ((hsame.reduce.completed _).mp hcompleted)
      · rcases mem_begin.mp hex with hex | ⟨worker, reply, -, rfl⟩
        · exact .inr ⟨ex, hex, hbegun⟩
        · obtain ⟨-, offset, lines, hstage⟩ := hbegun
          cases hstage
    refine (h.output p hp hold).mono rfl fun o ho => .inl ?_
    obtain ⟨ex, hex, hname, lines, hstage⟩ := ho
    exact ⟨ex, mem_begin.mpr (.inl hex), hname, lines, hstage⟩

/-- **A step of the coordinator** that is no report. -/
theorem Inv.coordinator (h : Inv env files n job) {e : Event} {s : System}
    (he : ∀ handout, e ≠ .report handout) (hstep : job.system.step e = some s) :
    Inv env files n (job.begin s) := by
  have hfirst : job.system.FirstReport e := by
    cases e with
    | report handout => exact absurd rfl (he handout)
    | tick | getTask | resume | reschedule => trivial
  obtain ⟨hsame, hanswers⟩ := System.step_assigns h.ofJob he hstep
  exact h.begin (h.system.of_step hfirst hstep) hsame hanswers

/-! ### An execution goes away -/

theorem mem_drop {i : ℕ} {ex other : Execution} (hi : job.running[i]? = some ex)
    (hother : other ∈ job.running) : other = ex ∨ other ∈ (job.drop i).running := by
  obtain ⟨k, hk⟩ := List.mem_iff_getElem?.mp hother
  by_cases hki : k = i
  · subst hki
    rw [hi, Option.some.injEq] at hk
    exact .inl hk.symm
  · exact .inr (List.mem_eraseIdx_iff_getElem?.mpr ⟨k, hki, hk⟩)

/-- A worker is through with its task or crashes. -/
theorem Inv.drop (h : Inv env files n job) {i : ℕ} {ex : Execution} (hi : job.running[i]? = some ex)
    (hleaves : ex.halfway = true →
      ¬ Completed job.system.coordinator.reduceTasks ex.reply.name ∧
        ∀ other ∈ job.running.eraseIdx i, ¬ other.Begun ex.reply.name) :
    Inv env files n (job.drop i) where
  system := h.system
  ofJob := h.ofJob
  running := fun other hother => h.running other (List.mem_of_mem_eraseIdx hother)
  known := h.known
  read := h.read
  mapped := h.mapped
  reduced := h.reduced
  output := by
    intro p hp hwritten
    have hold : job.Written (toString p) := by
      refine hwritten.imp_right ?_
      rintro ⟨other, hother, hbegun⟩
      exact ⟨other, List.mem_of_mem_eraseIdx hother, hbegun⟩
    refine (h.output p hp hold).mono rfl fun o ho => ?_
    obtain ⟨other, hother, hname, lines, hstage⟩ := ho
    rcases mem_drop hi hother with rfl | hother
    · -- the worker that goes away: it is through, or nobody needs the file
      have hsound := h.running _ (List.mem_of_getElem? hi)
      cases lines with
      | nil =>
        exact .inr (hsound.through hname hstage)
      | cons line lines =>
        have hhalfway : other.halfway = true := by rw [Execution.halfway, hstage]
        obtain ⟨hnot, hnone⟩ := hleaves hhalfway
        rw [hname] at hnot hnone
        rcases hwritten with hcompleted | ⟨other', hother', hbegun⟩
        · exact absurd hcompleted hnot
        · exact absurd hbegun (hnone other' hother')
    · exact .inl ⟨other, hother, hname, lines, hstage⟩

/-! ### Reports -/

theorem halfway_of_finished {ex : Execution} (h : ex.finished = true) : ex.halfway = false := by
  obtain ⟨worker, reply, stage⟩ := ex
  cases stage with
  | writing offset lines =>
    cases lines with
    | nil => rfl
    | cons line lines => cases h
  | handed | placing | reading | sorted => rfl

/-- **A report** of an execution that is over. -/
theorem Inv.report (h : Inv env files n job) {i : ℕ} {ex : Execution}
    (hi : job.running[i]? = some ex) (hfinished : ex.finished = true) {s : System}
    (hfirst : job.system.FirstReport (.report ex.handout))
    (hstep : job.system.step (.report ex.handout) = some s) :
    Inv env files n ({ job with system := s }.drop i) := by
  have hmem : ex ∈ job.running := List.mem_of_getElem? hi
  have hsound := h.running ex hmem
  obtain ⟨hofJob, hmap, hreduce⟩ := Coordinator.updateTaskStatus_completes h.ofJob
    hsound.assigned (System.step_report hstep)
  have hall : AllCompleted job.system.coordinator.mapTasks →
      AllCompleted s.coordinator.mapTasks := by
    intro hall
    refine (allCompleted_iff hofJob.map).mpr fun k name hk => (hmap name).mpr (.inl ?_)
    exact (allCompleted_iff h.ofJob.map).mp hall k name hk
  have hreported : Inv env files n { job with system := s } := by
    -- a report changes the states of tasks only; the files are as they were
    refine ⟨h.system.of_step hfirst hstep, hofJob, fun other hother => ?_, h.known, ?_, ?_, ?_, ?_⟩
    · exact (h.running other hother).mono hall (.refl _)
    · intro name hcompleted
      rcases (hmap name).mp hcompleted with hold | ⟨htype, rfl⟩
      · exact h.read name hold
      · -- what is reported is a map task that has read its input
        rcases hsound.of_finished hfinished with ⟨k, name, hk, hreply, hread, -⟩ | ⟨p, -, hreply, -⟩
        · rw [hreply]
          exact hread
        · rw [hreply] at htype
          cases htype
    · intro k name hk hcompleted
      rcases (hmap name).mp hcompleted with hold | ⟨htype, rfl⟩
      · exact h.mapped k name hk hold
      · rcases hsound.of_finished hfinished with
          ⟨k', name, hk', hreply, -, hfiles⟩ | ⟨p, -, hreply, -⟩
        · rw [hreply] at hk ⊢
          -- the file has one place among the input files
          have hplace := (h.ofJob.map name k).mpr hk
          rw [(h.ofJob.map name k').mpr hk', Option.some.injEq] at hplace
          subst hplace
          exact hfiles
        · rw [hreply] at htype
          cases htype
    · intro name hcompleted
      rcases (hreduce name).mp hcompleted with hold | ⟨htype, rfl⟩
      · exact hall (h.reduced name hold)
      · -- a reduce task is handed out only when all map tasks are completed
        rcases hsound.of_finished hfinished with ⟨k, name, -, hreply, -⟩ | ⟨p, -, -, hmaps, -⟩
        · rw [hreply] at htype
          cases htype
        · exact hall hmaps
    · intro p hp hwritten
      have hold : job.Written (toString p) := by
        rcases hwritten with hcompleted | hbegun
        · rcases (hreduce _).mp hcompleted with hold | ⟨htype, hname⟩
          · exact .inl hold
          · rcases hsound.of_finished hfinished with
              ⟨k, name, -, hreply, -⟩ | ⟨q, -, hreply, -, hbegun⟩
            · rw [hreply] at htype
              cases htype
            · rw [hreply] at hname
              rw [hname]
              exact .inr ⟨ex, hmem, hbegun⟩
        · exact .inr hbegun
      exact (h.output p hp hold).mono rfl fun o ho => .inl ho
  refine hreported.drop hi fun hhalfway => ?_
  rw [halfway_of_finished hfinished] at hhalfway
  cases hhalfway

/-! ### Steps of an execution -/

theorem mem_set {l : List Execution} {i : ℕ} {ex other : Execution} (hi : l[i]? = some ex)
    (ex' : Execution) (hother : other ∈ l) : other = ex ∨ other ∈ l.set i ex' := by
  obtain ⟨k, hk⟩ := List.mem_iff_getElem?.mp hother
  by_cases hki : k = i
  · subst hki
    rw [hi, Option.some.injEq] at hk
    exact .inl hk.symm
  · refine .inr (List.mem_iff_getElem?.mpr ⟨k, ?_⟩)
    rw [List.getElem?_set_ne (Ne.symm hki), hk]

theorem mem_set_self {l : List Execution} {i : ℕ} {ex : Execution} (hi : l[i]? = some ex)
    (ex' : Execution) : ex' ∈ l.set i ex' :=
  List.mem_set (List.getElem?_eq_some_iff.mp hi).1 ex'

section Work

variable {i : ℕ} {ex : Execution} {dir : Directory} {stage : Stage}

/-- A step of an execution that keeps the intermediate files and treats the output right. -/
theorem Inv.goes (h : Inv env files n job)
    (hsound : Execution.Sound env files n job.system.coordinator.mapTasks dir
      ⟨ex.worker, ex.reply, stage⟩)
    (hkeeps : KeepsMaps env files n job.dir dir)
    (hknown : Prepared env files n job.dir → Prepared env files n dir)
    (houtput : ∀ p < n, (job.apply i ex (.goes dir stage)).Written (toString p) →
      (job.Written (toString p) → job.OutputOk env files n p) →
        (job.apply i ex (.goes dir stage)).OutputOk env files n p) :
    Inv env files n (job.apply i ex (.goes dir stage)) where
  system := h.system
  ofJob := h.ofJob
  running := by
    intro other hother
    rcases List.mem_or_eq_of_mem_set hother with hother | rfl
    · exact (h.running other hother).mono id hkeeps
    · exact hsound
  known := hknown h.known
  read := h.read
  mapped := fun k name hk hcompleted j hne =>
    hkeeps k name j hk (h.mapped k name hk hcompleted j hne)
  reduced := h.reduced
  output := fun p hp hwritten => houtput p hp hwritten (h.output p hp)

/-- A step without an output file. -/
theorem Inv.quiet (h : Inv env files n job) (hi : job.running[i]? = some ex)
    (hsound : Execution.Sound env files n job.system.coordinator.mapTasks dir
      ⟨ex.worker, ex.reply, stage⟩)
    (hkeeps : KeepsMaps env files n job.dir dir)
    (hknown : Prepared env files n job.dir → Prepared env files n dir)
    (hdir : ∀ p, dir.lookup (outputName p) = job.dir.lookup (outputName p))
    (hbefore : ∀ offset lines, ex.stage ≠ .writing offset lines)
    (hafter : ∀ offset lines, stage ≠ .writing offset lines) :
    Inv env files n (job.apply i ex (.goes dir stage)) := by
  refine h.goes hsound hkeeps hknown fun p hp hwritten hold => ?_
  -- the step neither begins nor ends the writing of a file
  have hwritten' : job.Written (toString p) := by
    refine hwritten.imp_right ?_
    rintro ⟨other, hother, hname, offset, lines, hstage⟩
    rcases List.mem_or_eq_of_mem_set hother with hother | rfl
    · exact ⟨other, hother, hname, offset, lines, hstage⟩
    · exact absurd hstage (hafter offset lines)
  refine (hold hwritten').mono (hdir p) fun o ho => .inl ?_
  obtain ⟨other, hother, hname, lines, hstage⟩ := ho
  rcases mem_set hi ⟨ex.worker, ex.reply, stage⟩ hother with rfl | hother
  · exact absurd hstage (hbefore o lines)
  · exact ⟨other, hother, hname, lines, hstage⟩

/-- `os.Create` of an output file. -/
theorem Inv.opens (h : Inv env files n job) {worker : ℕ} {lines : List GoString}
    (hi : job.running[i]? = some ⟨worker, reduceReply p, .sorted lines⟩) (hp : p < n)
    (hmaps : AllCompleted job.system.coordinator.mapTasks)
    (hlines : lines.flatten = env.outputContent (inputs files) n p) :
    Inv env files n (job.apply i ⟨worker, reduceReply p, .sorted lines⟩
      (.goes (AList.insert (outputName p) [] job.dir) (.writing 0 lines))) := by
  refine h.goes (.writing hp hmaps (Nat.zero_le _) hlines.symm) (keepsMaps_insert_output _ p [])
    (fun hknown => hknown.insert_output hp []) fun q hq hwritten hold => ?_
  -- its own file is empty now, and it is about to write all of it
  by_cases hqp : q = p
  · subst hqp
    refine ⟨[], AList.lookup_insert _, mends_nil ?_⟩
    exact ⟨_, mem_set_self hi _, rfl, lines, rfl⟩
  · have hname : toString q ≠ toString p := fun heq => hqp (toString_injective heq)
    have hwritten' : job.Written (toString q) := by
      refine hwritten.imp_right ?_
      rintro ⟨other, hother, hbegun⟩
      rcases List.mem_or_eq_of_mem_set hother with hother | rfl
      · exact ⟨other, hother, hbegun⟩
      · exact absurd hbegun.1.symm hname
    refine (hold hwritten').mono (AList.lookup_insert_ne fun heq => hqp (outputName_injective heq))
      fun o ho => .inl ?_
    obtain ⟨other, hother, hname', lines', hstage⟩ := ho
    rcases mem_set hi ⟨worker, reduceReply p, .writing 0 lines⟩ hother with rfl | hother
    · cases hstage
    · exact ⟨other, hother, hname', lines', hstage⟩

/-- `fmt.Fprintf` of a line. -/
theorem Inv.writes (h : Inv env files n job) {worker offset : ℕ} {line : GoString}
    {lines : List GoString}
    (hi : job.running[i]? = some ⟨worker, reduceReply p, .writing offset (line :: lines)⟩)
    (hp : p < n) (hmaps : AllCompleted job.system.coordinator.mapTasks)
    (hoffset : offset ≤ (env.outputContent (inputs files) n p).length)
    (hlines : (env.outputContent (inputs files) n p).drop offset = (line :: lines).flatten) :
    Inv env files n (job.apply i ⟨worker, reduceReply p, .writing offset (line :: lines)⟩
      (.goes (job.dir.modify (outputName p) (writeAt 0 offset line))
        (.writing (offset + line.length) lines))) := by
  rw [List.flatten_cons] at hlines
  have hlength := congrArg List.length hlines
  rw [List.length_drop, List.length_append] at hlength
  have hrest : (env.outputContent (inputs files) n p).drop (offset + line.length) =
      lines.flatten := by
    rw [← List.drop_drop, hlines, List.drop_left]
  -- the writers are as before, but for this one, which is further on
  have hothers : ∀ q o, o ∈ job.writers (toString q) → q = p ∧ o = offset ∨
      o ∈ (job.apply i ⟨worker, reduceReply p, .writing offset (line :: lines)⟩
        (.goes (job.dir.modify (outputName p) (writeAt 0 offset line))
          (.writing (offset + line.length) lines))).writers (toString q) := by
    rintro q o ⟨other, hother, hname, lines', hstage⟩
    rcases mem_set hi ⟨worker, reduceReply p, .writing (offset + line.length) lines⟩ hother with
      rfl | hother
    · cases hstage
      exact .inl ⟨(toString_injective hname).symm, rfl⟩
    · exact .inr ⟨other, hother, hname, lines', hstage⟩
  refine h.goes (.writing hp hmaps (by omega) hrest) (keepsMaps_modify_output _ p _)
    (fun hknown => hknown.modify_output hp _) fun q hq hwritten hold => ?_
  have hwritten' : job.Written (toString q) := by
    refine hwritten.imp_right ?_
    rintro ⟨other, hother, hname, offset', lines', hstage⟩
    rcases List.mem_or_eq_of_mem_set hother with hother | rfl
    · exact ⟨other, hother, hname, offset', lines', hstage⟩
    · exact ⟨_, List.mem_of_getElem? hi, hname, offset, line :: lines, rfl⟩
  -- its own file, where it writes what belongs there, or a file that it leaves alone
  by_cases hqp : q = p
  · subst hqp
    obtain ⟨content, hcontent, hmends⟩ := hold hwritten'
    refine ⟨writeAt 0 offset line content, ?_, hmends.writeAt hoffset hlines (fun o ho => ?_) ?_⟩
    · show (job.dir.modify (outputName q) (writeAt 0 offset line)).lookup (outputName q) = _
      rw [Table.lookup_modify_self, hcontent]
      rfl
    · exact (hothers q o ho).imp_left And.right
    · exact ⟨_, mem_set_self hi _, rfl, lines, rfl⟩
  · refine (hold hwritten').mono ?_ fun o ho => .inl ?_
    · exact Table.lookup_modify_ne (fun heq => hqp (outputName_injective heq)) _ _
    · rcases hothers q o ho with ⟨heq, -⟩ | ho
      · exact absurd heq hqp
      · exact ho

/-- A map task has read its input, and its temporary files are there. -/
theorem sound_placing {worker k : ℕ} {name : String} {content : GoString} {maps : Tasks Unit}
    (hk : files[k]? = some name) (hread : env.readFile (utf8 name) = some content) :
    Execution.Sound env files n maps dir ⟨worker, mapReply name k n,
      .placing ((env.mapf (utf8 name) content).foldl (writePair n) ∅)⟩ := by
  have hout : env.mapf (utf8 name) content = env.mapOutput (utf8 name) := by rw [mapOutput, hread]
  rw [hout]
  refine .placing hk ⟨content, hread⟩ (fun j f hf => ?_) fun j hne hnone => ?_
  · rw [lookup_foldl_writePair] at hf
    split at hf
    · cases hf
    · next hne => exact ⟨hne, (Option.some.inj hf).symm⟩
  · rw [lookup_foldl_writePair, if_neg hne] at hnone
    cases hnone

/-- A rename of a map task. -/
theorem sound_placed {worker k pick : ℕ} {name : String} {mp : Table ℕ GoString}
    {maps : Tasks Unit} (hk : files[k]? = some name)
    (hread : ∃ content, env.readFile (utf8 name) = some content)
    (hmp : ∀ j f, mp.lookup j = some f →
      bucket n j (env.mapOutput (utf8 name)) ≠ [] ∧ f = mapFile env n j name)
    (hdir : ∀ j, bucket n j (env.mapOutput (utf8 name)) ≠ [] → mp.lookup j = none →
      dir.lookup (intermediateName k j) = some (mapFile env n j name)) :
    Execution.Sound env files n maps
      (AList.insert (intermediateName k pick) (mapFile env n pick name) dir)
      ⟨worker, mapReply name k n, .placing (mp.erase pick)⟩ := by
  refine .placing hk hread (fun j f hf => ?_) fun j hne hnone => ?_
  · -- the renamed file no longer waits, and is in its place
    by_cases hj : j = pick
    · subst hj
      rw [AList.lookup_erase] at hf
      cases hf
    · rw [AList.lookup_erase_ne hj] at hf
      exact hmp j f hf
  · by_cases hj : j = pick
    · subst hj
      exact AList.lookup_insert _
    · rw [AList.lookup_erase_ne hj] at hnone
      rw [AList.lookup_insert_ne fun heq => hj (intermediateName_inj heq).2]
      exact hdir j hne hnone

/-- A reduce task has looked for its files. -/
theorem sound_reading {worker : ℕ} {maps : Tasks Unit} (hp : p < n) (hmaps : AllCompleted maps)
    (hmapped : env.Mapped (inputs files) n dir) :
    Execution.Sound env files n maps dir ⟨worker, reduceReply p, .reading (walkDir dir p) []⟩ := by
  obtain ⟨tasks, htasks, hperm⟩ :=
    (congrFun₂ (List.eq_map_comp_perm _) _ _).mpr hmapped.walkDir_perm
  rw [htasks]
  refine .reading hp hmaps (fun task htask => hperm.subset htask) ?_
  rw [List.nil_append, ← flatMap_senders]
  exact hperm.flatMap_right _

/-- The next file of a reduce task is there and is read. -/
theorem read_sender (hjson : env.JsonOk (inputs files)) (hmapped : env.Mapped (inputs files) n dir)
    {task : GoString × ℕ} (htask : task ∈ env.senders (inputs files) n p) :
    ((dir.lookup (intermediateName task.2 p)).bind fun content =>
      env.readLines (content.splitOn newline)) = some (bucket n p (env.mapOutput task.1)) := by
  obtain ⟨filename, k⟩ := task
  obtain ⟨hmem, hne⟩ := List.mem_filter.mp htask
  have hk := List.mem_zipIdx_iff_getElem?.mp hmem
  rw [hmapped.tasks k filename p hk (by simpa using hne), Option.bind_some]
  refine readLines_encode fun kv hkv => hjson kv ?_
  exact List.mem_flatMap.mpr ⟨filename, List.mem_of_getElem? hk, List.mem_of_mem_filter hkv⟩

/-- **A step of an execution.** -/
theorem Inv.work (h : Inv env files n job) (hjson : env.JsonOk (inputs files))
    (hreduce : env.ReduceComm) (hi : job.running[i]? = some ex) {pick : ℕ} {effect : Effect}
    (hnext : ex.next env pick job.dir = some effect) : Inv env files n (job.apply i ex effect) := by
  have hsound := h.running ex (List.mem_of_getElem? hi)
  cases hsound with
  | @handed worker reply hreply hmaps =>
    cases hreply with
    | @map k name hk =>
      cases hread : env.readFile (utf8 name) with
      | none =>
        simp only [Execution.next, mapReply, hread, if_true, Option.some.injEq] at hnext
        subst hnext
        -- the input cannot be read, and the worker gives up before it has written anything
        exact h.drop hi fun hhalfway => by cases hhalfway
      | some content =>
        simp only [Execution.next, mapReply, hread, if_true, Option.some.injEq] at hnext
        subst hnext
        exact h.quiet hi (sound_placing hk hread) (.refl _) id (fun _ => rfl)
          (fun _ _ hstage => by cases hstage) fun _ _ hstage => by cases hstage
    | @reduce q hq =>
      have hall := hmaps rfl
      simp only [Execution.next, reduceReply, reduceCtorEq, if_false, Option.some.injEq] at hnext
      subst hnext
      exact h.quiet hi (sound_reading hq hall (h.toMapped hall)) (.refl _) id (fun _ => rfl)
        (fun _ _ hstage => by cases hstage) fun _ _ hstage => by cases hstage
  | @placing worker k name mp hk hread hmp hdir =>
    obtain ⟨f, hf, rfl⟩ := Option.map_eq_some_iff.mp hnext
    obtain ⟨hne, rfl⟩ := hmp pick f hf
    exact h.quiet hi (sound_placed hk hread hmp hdir) (keepsMaps_insert_map _ hk pick)
      (fun hknown => hknown.insert_map hk hne)
      (fun q => AList.lookup_insert_ne (intermediateName_ne_outputName k pick q).symm)
      (fun _ _ hstage => by cases hstage) fun _ _ hstage => by cases hstage
  | @reading worker q tasks data hq hmaps htasks hdata =>
    cases tasks with
    | nil =>
      simp only [Execution.next, List.map_nil, Option.some.injEq] at hnext
      subst hnext
      rw [List.flatMap_nil, List.append_nil] at hdata
      exact h.quiet hi (.sorted hq hmaps (reduceRuns_bucket hreduce hdata)) (.refl _) id
        (fun _ => rfl) (fun _ _ hstage => by cases hstage) fun _ _ hstage => by cases hstage
    | cons task tasks =>
      obtain ⟨htask, htasks⟩ := List.forall_mem_cons.mp htasks
      have hread := read_sender hjson (h.toMapped hmaps) htask
      simp only [Execution.next, List.map_cons, hread, Option.some.injEq] at hnext
      subst hnext
      rw [List.flatMap_cons, ← List.append_assoc] at hdata
      exact h.quiet hi (.reading hq hmaps htasks hdata) (.refl _) id (fun _ => rfl)
        (fun _ _ hstage => by cases hstage) fun _ _ hstage => by cases hstage
  | @sorted worker q lines hq hmaps hlines =>
    simp only [Execution.next, Option.some.injEq] at hnext
    subst hnext
    exact h.opens hi hq hmaps hlines
  | @writing worker q offset lines hq hmaps hoffset hlines =>
    cases lines with
    | nil => cases hnext
    | cons line lines =>
      simp only [Execution.next, Option.some.injEq] at hnext
      subst hnext
      exact h.writes hi hq hmaps hoffset hlines

end Work

/-- **The step lemma.** -/
theorem Inv.of_step (h : Inv env files n job) (hjson : env.JsonOk (inputs files))
    (hreduce : env.ReduceComm) {a : Action} (hok : job.Orderly a) {job' : Job}
    (hstep : job.step env a = some job') : Inv env files n job' := by
  cases a with
  | coordinator e =>
    cases e with
    | report handout => cases hstep
    | tick | getTask | resume | reschedule =>
      simp only [step, Option.map_eq_some_iff] at hstep
      obtain ⟨s, hs, rfl⟩ := hstep
      exact h.coordinator (fun handout heq => by cases heq) hs
  | work i pick =>
    obtain ⟨ex, hi, hstep⟩ := Option.bind_eq_some_iff.mp hstep
    obtain ⟨effect, hnext, rfl⟩ := Option.map_eq_some_iff.mp hstep
    exact h.work hjson hreduce hi hnext
  | report i =>
    obtain ⟨ex, hi, hstep⟩ := Option.bind_eq_some_iff.mp hstep
    split at hstep
    · next hfinished =>
      obtain ⟨s, hs, rfl⟩ := Option.map_eq_some_iff.mp hstep
      exact h.report hi hfinished (hok ex hi) hs
    · cases hstep
  | crash i =>
    dsimp only [step] at hstep
    split at hstep
    · next hlt =>
      cases hstep
      have hi := List.getElem?_eq_getElem hlt
      exact h.drop hi (hok _ hi)
    · cases hstep

theorem inv_of_reach (hfiles : files.Nodup) (hjson : env.JsonOk (inputs files))
    (hreduce : env.ReduceComm) {dir : Directory} (hdir : Prepared env files n dir)
    (h : ReachWhile (step env) Orderly (make files n dir) job) : Inv env files n job :=
  h.invariant (inv_make hfiles hdir) fun _ _ _ hinv hok hstep =>
    hinv.of_step hjson hreduce hok hstep

/-- When all reduce tasks are completed and nobody is writing, the output files are right. -/
theorem Inv.output_eq (h : Inv env files n job)
    (hreduced : AllCompleted job.system.coordinator.reduceTasks)
    (hidle : ∀ ex ∈ job.running, ex.halfway = false) (hp : p < n) :
    job.dir.lookup (outputName p) = some (env.outputContent (inputs files) n p) := by
  have hcompleted : Completed job.system.coordinator.reduceTasks (toString p) :=
    (allCompleted_iff h.ofJob.reduce).mp hreduced p _ (getElem?_reduceNames.mpr ⟨hp, rfl⟩)
  obtain ⟨content, hcontent, hmends⟩ := h.output p hp (.inl hcompleted)
  rw [hcontent, hmends.eq]
  rintro o ⟨ex, hex, hname, lines, hstage⟩
  -- whoever still has the file open is through with it
  cases lines with
  | nil => exact (h.running ex hex).through hname hstage
  | cons line lines =>
    have hhalfway := hidle ex hex
    rw [Execution.halfway, hstage] at hhalfway
    cases hhalfway

end Job

/-! ### The output -/

/-- With the right files for all partitions, the output is that of the sequential program. -/
theorem writesSame_of_output {inputs : List GoString} {dir : Directory} (hn : 1 ≤ n)
    (h : env.Mapped inputs n dir)
    (hall : ∀ p < n, dir.lookup (outputName p) = some (env.outputContent inputs n p)) :
    env.WritesSame inputs n dir
      ((keys KeyValue.key (env.emitted inputs)).map (env.line inputs)).flatten := by
  have hready : env.Ready inputs n dir := by
    refine ⟨fun name content hname => ?_, h.tasks⟩
    refine (h.known name content hname).imp_right ?_
    rintro ⟨p, hp, rfl⟩
    rw [hall p hp, Option.some.injEq] at hname
    exact ⟨p, hp, rfl, hname.symm⟩
  refine ⟨?_, rfl, nodup_keys _ _, hall⟩
  -- the partitions share out the keys, and each file has the lines of its keys
  have hlines := (hready.outputFiles_perm hall).flatMap_right linesOf
  have hkeys := flatMap_filter_perm hn (nodup_keys KeyValue.key (env.emitted inputs))
  have hseq := linesOf_flatten (fun k => k ++ [blank] ++
    env.reducef k (valuesOf k (env.emitted inputs))) (keys KeyValue.key (env.emitted inputs))
  have hparts : ((List.range n).map (env.outputContent inputs n)).flatMap linesOf =
      ((List.range n).flatMap fun p => (keys KeyValue.key (env.emitted inputs)).filter fun k =>
        ihash k % n = p).flatMap fun k => linesOf (env.line inputs k) := by
    rw [List.flatMap_map, List.flatMap_assoc]
    exact List.flatMap_congr fun p _ => linesOf_flatten _ _
  exact (hlines.trans (List.Perm.of_eq hparts)).trans
    ((hkeys.flatMap_right _).trans (List.Perm.of_eq hseq.symm))

/-- When the job is done, every input file can be read. -/
theorem Job.Inv.readable {job : Job} (h : Job.Inv env files n job) (hn : 1 ≤ n)
    (hdone : job.system.coordinator.done = true) :
    AllCompleted job.system.coordinator.mapTasks ∧
      ∀ filename ∈ inputs files, ∃ content, env.readFile filename = some content := by
  have hreduced : AllCompleted job.system.coordinator.reduceTasks := h.system.phaseSafe.2 hdone
  -- there is a reduce task, and it was handed out after the map phase
  have hmaps : AllCompleted job.system.coordinator.mapTasks := by
    refine h.reduced (toString 0) ?_
    exact (allCompleted_iff h.ofJob.reduce).mp hreduced 0 _ (getElem?_reduceNames.mpr ⟨hn, rfl⟩)
  refine ⟨hmaps, fun filename hmem => ?_⟩
  obtain ⟨name, hname, rfl⟩ := List.mem_map.mp hmem
  obtain ⟨i, hi⟩ := List.mem_iff_getElem?.mp hname
  exact h.read name ((allCompleted_iff h.ofJob.map).mp hmaps i name hi)

/-- When the job is done and no worker is in the middle of an output file, the output is there. -/
theorem Job.Inv.writesSame {job : Job} (h : Job.Inv env files n job) (hn : 1 ≤ n)
    (hdone : job.system.coordinator.done = true)
    (hidle : ∀ ex ∈ job.running, ex.halfway = false) :
    env.WritesSame (inputs files) n job.dir
      ((keys KeyValue.key (env.emitted (inputs files))).map (env.line (inputs files))).flatten := by
  have hmaps : AllCompleted job.system.coordinator.mapTasks := (h.readable hn hdone).1
  exact writesSame_of_output hn (h.toMapped hmaps) fun p hp =>
    h.output_eq (h.system.phaseSafe.2 hdone) hidle hp

end ExchangeLabs.MapReduce.Local
