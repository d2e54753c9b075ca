import ExchangeLabs.MapReduce.Intermediate

/-!
# The tasks and the sequential program

Map tasks executed in any order, and more than once, followed by a reduce task for
each partition, write what the sequential program writes: the same line for each key,
in the output file of the partition of the key.

Between the phases the working directory holds, of every map task, exactly the files
that are not empty; this is what a reduce task needs, and what it keeps.

## Main definitions

* `emitted`, `line` — all the pairs of a job, and the output line of a key.
* `outputContent` — the lines of the keys of a partition.
* `JobFiles`, `Ready` — a directory with files of the job only, and with all of them.

## Main results

* `reduceRuns_sort` — sorting and grouping yield one line for each key.
* `Ready.executeReduceTask` — a reduce task writes the lines of its partition.
* `output_eq_sequential` — **the tasks write what the sequential program writes.**
-/

namespace ExchangeLabs.MapReduce.Worker.Env

variable {env : Env} {files : List GoString} {n : ℕ}

/-! ### One line for each key -/

/-- The values of a key. -/
def valuesOf (k : GoString) (kvs : List KeyValue) : List GoString :=
  (kvs.filter fun kv => kv.key = k).map KeyValue.value

/-- The result of the reduce function depends on the key and the multiset of values. -/
def ReduceComm (env : Env) : Prop :=
  ∀ (k : GoString) (vs vs' : List GoString), vs.Perm vs' → env.reducef k vs = env.reducef k vs'

/-- **Sorting and grouping yield one line for each key**, whatever the order of the data. -/
theorem reduceRuns_sort (hreduce : env.ReduceComm) {data kvs : List KeyValue} (h : data.Perm kvs) :
    env.reduceRuns (env.sort data) =
      (keys KeyValue.key kvs).map fun k => env.outputLine k (valuesOf k kvs) := by
  have hperm : (env.sort data).Perm kvs := (env.sort_perm data).trans h
  rw [reduceRuns, runs_eq (env.sort_sorted data), keys_eq_of_perm hperm, List.map_map]
  refine List.map_congr_left fun k _ => ?_
  unfold outputLine
  simp only [Function.comp_apply]
  rw [hreduce k _ _ ((hperm.filter _).map KeyValue.value)]
  rfl

/-- All the pairs of the job. -/
def emitted (env : Env) (files : List GoString) : List KeyValue := files.flatMap env.mapOutput

/-- The output line of a key. -/
def line (env : Env) (files : List GoString) (k : GoString) : GoString :=
  env.outputLine k (valuesOf k (env.emitted files))

theorem readInputs_eq (h : ∀ filename ∈ files, ∃ content, env.readFile filename = some content) :
    env.readInputs files = some (env.emitted files) := by
  induction files with
  | nil => rfl
  | cons filename rest ih =>
    obtain ⟨content, hread⟩ := h filename List.mem_cons_self
    rw [readInputs, hread, Option.bind_some, ih fun f hf => h f (List.mem_cons_of_mem _ hf),
      Option.map_some, emitted, emitted, List.flatMap_cons, mapOutput, hread]

/-- What the sequential program writes. -/
theorem mrsequential_eq (hreduce : env.ReduceComm)
    (h : ∀ filename ∈ files, ∃ content, env.readFile filename = some content) :
    env.mrsequential files =
      some ((keys KeyValue.key (env.emitted files)).map (env.line files)).flatten := by
  rw [mrsequential, readInputs_eq h, Option.map_some, reduceRuns_sort hreduce (List.Perm.refl _)]
  rfl

/-- The lines of the keys of partition `p`. -/
def outputContent (env : Env) (files : List GoString) (n p : ℕ) : GoString :=
  (((keys KeyValue.key (env.emitted files)).filter fun k => ihash k % n = p).map
    (env.line files)).flatten

/-- The lines of a partition are those of its bucket. -/
theorem reduceRuns_bucket (hreduce : env.ReduceComm) {p : ℕ} {data : List KeyValue}
    (h : data.Perm (bucket n p (env.emitted files))) :
    (env.reduceRuns (env.sort data)).flatten = env.outputContent files n p := by
  rw [reduceRuns_sort hreduce h, outputContent, bucket,
    keys_filter fun k => decide (ihash k % n = p)]
  congr 1
  refine List.map_congr_left fun k hk => ?_
  have hp : ihash k % n = p := by simpa using (List.mem_filter.mp hk).2
  have hvalues : valuesOf k ((env.emitted files).filter fun kv => ihash kv.key % n = p) =
      valuesOf k (env.emitted files) := by
    unfold valuesOf
    rw [List.filter_filter]
    congr 1
    refine List.filter_congr fun kv _ => ?_
    by_cases hkv : kv.key = k <;> simp [hkv, hp]
  rw [hvalues, line]

/-! ### The map phase -/

/-- A file that map task `i` leaves for partition `j`. -/
def IsMapFile (env : Env) (files : List GoString) (n : ℕ) (name : String) (content : GoString) :
    Prop :=
  ∃ i filename j, files[i]? = some filename ∧ name = intermediateName i j ∧
    bucket n j (env.mapOutput filename) ≠ [] ∧
    content = encode (bucket n j (env.mapOutput filename))

/-- The directory holds only intermediate files of the job. -/
def JobFiles (env : Env) (files : List GoString) (n : ℕ) (dir : Directory) : Prop :=
  ∀ name content, dir.lookup name = some content → env.IsMapFile files n name content

/-- The directory holds all the files of map task `i`. -/
def HasTask (env : Env) (files : List GoString) (n : ℕ) (dir : Directory) (i : ℕ) : Prop :=
  ∀ filename j, files[i]? = some filename → bucket n j (env.mapOutput filename) ≠ [] →
    dir.lookup (intermediateName i j) = some (encode (bucket n j (env.mapOutput filename)))

/-- One execution of a map task. -/
theorem JobFiles.executeMapTask {dir dir' : Directory} {i : ℕ} {filename : GoString}
    (h : env.JobFiles files n dir) (hi : files[i]? = some filename)
    (hrun : env.executeMapTask filename i n dir = some dir') :
    env.JobFiles files n dir' ∧ env.HasTask files n dir' i ∧
      ∀ i', env.HasTask files n dir i' → env.HasTask files n dir' i' := by
  have hself : env.HasTask files n dir' i := by
    intro filename' j hfile hne
    rw [hi, Option.some.injEq] at hfile
    subst hfile
    exact lookup_executeMapTask hrun hne
  refine ⟨fun name content hname => ?_, hself, fun i' hi' => ?_⟩
  · rcases lookup_executeMapTask_cases hrun hname with ⟨j, hj, hne, hcontent⟩ | hold
    · exact ⟨i, filename, j, hi, hj, hne, hcontent⟩
    · exact h name content hold
  · by_cases heq : i' = i
    · exact heq ▸ hself
    · intro filename' j hfile hne
      rw [lookup_executeMapTask_of_ne hrun fun j' hj' => heq (intermediateName_inj hj').1]
      exact hi' filename' j hfile hne

/-- The whole map phase: the tasks that are executed leave their files. -/
theorem JobFiles.runMapTasks {maps : List ℕ} {dir dir' : Directory} (h : env.JobFiles files n dir)
    (hrun : env.runMapTasks files n maps dir = some dir') :
    env.JobFiles files n dir' ∧
      (∀ i, i ∈ maps ∨ env.HasTask files n dir i → env.HasTask files n dir' i) ∧
      ∀ i ∈ maps, ∀ filename, files[i]? = some filename →
        ∃ content, env.readFile filename = some content := by
  induction maps generalizing dir with
  | nil =>
    cases hrun
    refine ⟨h, fun i hi => ?_, fun i hi => by cases hi⟩
    rcases hi with hi | hi
    · cases hi
    · exact hi
  | cons i maps ih =>
    obtain ⟨filename, hi, hrun⟩ := Option.bind_eq_some_iff.mp hrun
    obtain ⟨dir₁, hexec, hrun⟩ := Option.bind_eq_some_iff.mp hrun
    obtain ⟨h₁, hself, hkeep⟩ := h.executeMapTask hi hexec
    obtain ⟨h', hdone, hread⟩ := ih h₁ hrun
    refine ⟨h', fun i' hi' => ?_, fun i' hi' filename' hfile => ?_⟩
    · -- the task of the first step, one of the later steps, or one from before
      rcases hi' with hi' | hi'
      · rcases List.mem_cons.mp hi' with rfl | hi'
        · exact hdone i' (.inr hself)
        · exact hdone i' (.inl hi')
      · exact hdone i' (.inr (hkeep i' hi'))
    · rcases List.mem_cons.mp hi' with rfl | hi'
      · rw [hi, Option.some.injEq] at hfile
        exact hfile ▸ readFile_of_executeMapTask hexec
      · exact hread i' hi' filename' hfile

/-! ### The reduce phase -/

/-- The directory holds the files of all map tasks, and besides only output files. -/
structure Ready (env : Env) (files : List GoString) (n : ℕ) (dir : Directory) : Prop where
  known : ∀ name content, dir.lookup name = some content →
    env.IsMapFile files n name content ∨
      ∃ p < n, name = outputName p ∧ content = env.outputContent files n p
  tasks : ∀ i, env.HasTask files n dir i

/-- The map tasks that have something for partition `p`. -/
def senders (env : Env) (files : List GoString) (n p : ℕ) : List (GoString × ℕ) :=
  files.zipIdx.filter fun task => bucket n p (env.mapOutput task.1) ≠ []

theorem flatMap_senders (env : Env) (files : List GoString) (n p : ℕ) :
    ((env.senders files n p).flatMap fun task => bucket n p (env.mapOutput task.1)) =
      bucket n p (env.emitted files) := by
  have hdrop : ∀ tasks : List (GoString × ℕ),
      ((tasks.filter fun task => bucket n p (env.mapOutput task.1) ≠ []).flatMap
        fun task => bucket n p (env.mapOutput task.1)) =
      tasks.flatMap fun task => bucket n p (env.mapOutput task.1) := by
    intro tasks
    induction tasks with
    | nil => rfl
    | cons task tasks ih =>
      by_cases hnil : bucket n p (env.mapOutput task.1) = [] <;>
        simp_all [List.flatMap_cons]
  rw [senders, hdrop, bucket, emitted, List.filter_flatMap]
  conv_rhs => rw [← List.zipIdx_map_fst 0 files, List.flatMap_map]
  rfl

variable {dir : Directory} {p : ℕ}

/-- The directory holds the files of all map tasks, and besides only output files, which may be
unfinished. -/
structure Mapped (env : Env) (files : List GoString) (n : ℕ) (dir : Directory) : Prop where
  known : ∀ name content, dir.lookup name = some content →
    env.IsMapFile files n name content ∨ ∃ p < n, name = outputName p
  tasks : ∀ i, env.HasTask files n dir i

theorem Ready.mapped (h : env.Ready files n dir) : env.Mapped files n dir where
  known := fun name content hname =>
    (h.known name content hname).imp_right fun ⟨p, hp, heq, _⟩ => ⟨p, hp, heq⟩
  tasks := h.tasks

/-- A reduce task finds the files of its partition. -/
theorem Mapped.walkDir_perm (h : env.Mapped files n dir) :
    (walkDir dir p).Perm ((env.senders files n p).map fun task => intermediateName task.2 p) := by
  have hsorted := List.perm_insertionSort (· ≤ ·) dir.keys
  refine (List.perm_ext_iff_of_nodup ?_ ?_).mpr fun name => ?_
  · exact (hsorted.nodup_iff.mpr dir.keys_nodup).filter _
  · have hnodup : ((env.senders files n p).map Prod.snd).Nodup :=
      (List.nodup_zipIdx_map_snd files).sublist (List.filter_sublist.map _)
    have hinj : Function.Injective fun i => intermediateName i p :=
      fun i j hij => (intermediateName_inj hij).1
    have := hnodup.map hinj
    rwa [List.map_map] at this
  · rw [walkDir, List.mem_filter, hsorted.mem_iff, ← AList.mem_keys, ← AList.lookup_isSome,
      Option.isSome_iff_exists, List.mem_map]
    constructor
    · rintro ⟨⟨content, hcontent⟩, hmatch⟩
      rcases h.known name content hcontent with ⟨i, filename, j, hi, rfl, hne, -⟩ | ⟨q, -, rfl⟩
      · rw [isIntermediate_intermediateName, decide_eq_true_iff] at hmatch
        subst hmatch
        refine ⟨(filename, i), List.mem_filter.mpr ⟨?_, by simpa using hne⟩, rfl⟩
        exact List.mem_zipIdx_iff_getElem?.mpr hi
      · rw [isIntermediate_outputName] at hmatch
        cases hmatch
    · rintro ⟨⟨filename, i⟩, hmem, rfl⟩
      obtain ⟨hi, hne⟩ := List.mem_filter.mp hmem
      have htask := h.tasks i filename p (List.mem_zipIdx_iff_getElem?.mp hi) (by simpa using hne)
      exact ⟨⟨_, htask⟩, by simp [isIntermediate_intermediateName]⟩

theorem Ready.walkDir_perm (h : env.Ready files n dir) :
    (walkDir dir p).Perm ((env.senders files n p).map fun task => intermediateName task.2 p) :=
  h.mapped.walkDir_perm

/-- The pairs in a file. -/
def contents (env : Env) (dir : Directory) (name : String) : List KeyValue :=
  ((dir.lookup name).bind fun content => env.readLines (content.splitOn newline)).getD []

theorem readFiles_eq {names : List String}
    (h : ∀ name ∈ names, ∃ content kvs, dir.lookup name = some content ∧
      env.readLines (content.splitOn newline) = some kvs) :
    env.readFiles dir names = some (names.flatMap (env.contents dir)) := by
  induction names with
  | nil => rfl
  | cons name names ih =>
    obtain ⟨content, kvs, hlookup, hread⟩ := h name List.mem_cons_self
    have hcontents : env.contents dir name = kvs := by
      rw [contents, hlookup, Option.bind_some, hread, Option.getD_some]
    rw [readFiles, hlookup, Option.bind_some, hread, Option.bind_some,
      ih fun name hname => h name (List.mem_cons_of_mem _ hname), Option.map_some,
      List.flatMap_cons, hcontents]

/-- Every pair of the job can be written as JSON. -/
def JsonOk (env : Env) (files : List GoString) : Prop :=
  ∀ kv ∈ env.emitted files, env.RoundTrips kv

/-- A reduce task reads the pairs of its partition. -/
theorem Ready.readFiles (h : env.Ready files n dir) (hjson : env.JsonOk files) :
    ∃ data, env.readFiles dir (walkDir dir p) = some data ∧
      data.Perm (bucket n p (env.emitted files)) := by
  -- what is in the file of a sender
  have hfile : ∀ task ∈ env.senders files n p,
      dir.lookup (intermediateName task.2 p) =
          some (encode (bucket n p (env.mapOutput task.1))) ∧
        env.readLines ((encode (bucket n p (env.mapOutput task.1))).splitOn newline) =
          some (bucket n p (env.mapOutput task.1)) := by
    rintro ⟨filename, i⟩ hmem
    obtain ⟨hmem, hne⟩ := List.mem_filter.mp hmem
    have hi := List.mem_zipIdx_iff_getElem?.mp hmem
    refine ⟨h.tasks i filename p hi (by simpa using hne),
      readLines_encode fun kv hkv => hjson kv ?_⟩
    exact List.mem_flatMap.mpr ⟨filename, List.mem_of_getElem? hi, List.mem_of_mem_filter hkv⟩
  refine ⟨_, readFiles_eq fun name hname => ?_, ?_⟩
  · obtain ⟨task, htask, rfl⟩ := List.mem_map.mp (h.walkDir_perm.mem_iff.mp hname)
    exact ⟨_, _, (hfile task htask).1, (hfile task htask).2⟩
  · refine (h.walkDir_perm.flatMap_right _).trans ?_
    rw [List.flatMap_map, ← flatMap_senders]
    refine List.Perm.of_eq (List.flatMap_congr fun task htask => ?_)
    rw [contents, (hfile task htask).1, Option.bind_some, (hfile task htask).2, Option.getD_some]

/-- **A reduce task writes the lines of its partition**, and the directory stays ready. -/
theorem Ready.executeReduceTask (h : env.Ready files n dir) (hjson : env.JsonOk files)
    (hreduce : env.ReduceComm) (hp : p < n) :
    env.executeReduceTask p dir =
        some (AList.insert (outputName p) (env.outputContent files n p) dir) ∧
      env.Ready files n (AList.insert (outputName p) (env.outputContent files n p) dir) := by
  obtain ⟨data, hread, hperm⟩ := h.readFiles (p := p) hjson
  refine ⟨?_, fun name content hname => ?_, fun i filename j hi hne => ?_⟩
  · rw [Env.executeReduceTask, hread, Option.map_some, reduceRuns_bucket hreduce hperm]
  · by_cases hnew : name = outputName p
    · subst hnew
      rw [AList.lookup_insert, Option.some.injEq] at hname
      exact .inr ⟨p, hp, rfl, hname.symm⟩
    · rw [AList.lookup_insert_ne hnew] at hname
      exact h.known name content hname
  · rw [AList.lookup_insert_ne (intermediateName_ne_outputName i j p)]
    exact h.tasks i filename j hi hne

/-- The whole reduce phase. -/
theorem Ready.runReduceTasks {reduces : List ℕ} (h : env.Ready files n dir)
    (hjson : env.JsonOk files) (hreduce : env.ReduceComm) (hp : ∀ p ∈ reduces, p < n) :
    ∃ dir', env.runReduceTasks reduces dir = some dir' ∧ env.Ready files n dir' ∧
      (∀ p, p ∈ reduces ∨ dir.lookup (outputName p) = some (env.outputContent files n p) →
        dir'.lookup (outputName p) = some (env.outputContent files n p)) := by
  induction reduces generalizing dir with
  | nil =>
    refine ⟨dir, rfl, h, fun p hp => ?_⟩
    rcases hp with hp | hp
    · cases hp
    · exact hp
  | cons q reduces ih =>
    obtain ⟨hexec, hready⟩ := h.executeReduceTask hjson hreduce (hp q List.mem_cons_self)
    obtain ⟨dir', hrun, hready', hkeep⟩ :=
      ih hready fun p hmem => hp p (List.mem_cons_of_mem _ hmem)
    have hruns : env.runReduceTasks (q :: reduces) dir = some dir' := by
      rw [Env.runReduceTasks, hexec, Option.bind_some, hrun]
    refine ⟨dir', hruns, hready', fun p hp' => ?_⟩
    refine hkeep p ?_
    by_cases hpq : p = q
    · rw [hpq]
      exact .inr (AList.lookup_insert _)
    · refine hp'.imp (fun hmem => (List.mem_cons.mp hmem).resolve_left hpq) fun hold => ?_
      rwa [AList.lookup_insert_ne fun heq => hpq (outputName_injective heq)]

/-! ### All the output -/

/-- The lines of a file of lines. -/
theorem linesOf_flatten {ι : Type} (f : ι → GoString) (l : List ι) :
    linesOf (l.map fun k => f k ++ [newline]).flatten =
      l.flatMap fun k => linesOf (f k ++ [newline]) := by
  have happend : ∀ a b : GoString,
      linesOf (a ++ [newline] ++ b) = linesOf (a ++ [newline]) ++ linesOf b := by
    intro a b
    unfold linesOf
    rw [List.append_assoc, List.singleton_append, List.splitOn_append_cons_self,
      List.splitOn_append_cons_self, List.dropLast_append_of_ne_nil (List.splitOn_ne_nil _ _),
      List.dropLast_append_of_ne_nil (List.splitOn_ne_nil _ _)]
    simp
  induction l with
  | nil => rfl
  | cons k l ih => rw [List.map_cons, List.flatten_cons, happend, ih, List.flatMap_cons]

/-- The keys of all partitions are all the keys. -/
theorem flatMap_filter_perm (hn : 1 ≤ n) {ks : List GoString} (hks : ks.Nodup) :
    ((List.range n).flatMap fun p => ks.filter fun k => ihash k % n = p).Perm ks := by
  refine (List.perm_ext_iff_of_nodup ?_ hks).mpr fun k => ?_
  · refine List.nodup_flatMap.mpr ⟨fun p _ => hks.filter _, ?_⟩
    refine List.nodup_range.imp fun hpq k hp hq => hpq ?_
    simp only [List.mem_filter, decide_eq_true_iff] at hp hq
    exact hp.2.symm.trans hq.2
  · simp only [List.mem_flatMap, List.mem_range, List.mem_filter, decide_eq_true_iff]
    constructor
    · rintro ⟨p, -, hk, -⟩
      exact hk
    · intro hk
      exact ⟨ihash k % n, Nat.mod_lt _ hn, hk, rfl⟩

theorem Ready.outputFiles_perm (h : env.Ready files n dir)
    (hall : ∀ p < n, dir.lookup (outputName p) = some (env.outputContent files n p)) :
    (outputFiles dir).Perm ((List.range n).map (env.outputContent files n)) := by
  have hentries : (dir.entries.filter fun f => "mr-out-".toList.isPrefixOf f.1.toList).Perm
      ((List.range n).map fun p => ⟨outputName p, env.outputContent files n p⟩) := by
    refine (List.perm_ext_iff_of_nodup (dir.nodupKeys.nodup.filter _) ?_).mpr fun f => ?_
    · refine List.nodup_range.map fun p q hpq => ?_
      exact outputName_injective (congrArg Sigma.fst hpq)
    · rw [List.mem_filter, Table.mem_entries, List.mem_map]
      constructor
      · rintro ⟨hlookup, hmatch⟩
        obtain ⟨name, content⟩ := f
        rcases h.known name content hlookup with ⟨i, filename, j, -, rfl, -⟩ | ⟨p, hp, rfl, rfl⟩
        · rw [isPrefixOf_intermediateName] at hmatch
          cases hmatch
        · exact ⟨p, List.mem_range.mpr hp, rfl⟩
      · rintro ⟨p, hp, rfl⟩
        exact ⟨hall p (List.mem_range.mp hp), isPrefixOf_outputName p⟩
  have := hentries.map Sigma.snd
  rw [List.map_map] at this
  exact this

/-- The tasks have written to the output files of the directory what the sequential
program writes to `out`: the same lines, one for each key, and that in the file of the
partition of the key. -/
structure WritesSame (env : Env) (files : List GoString) (n : ℕ) (dir : Directory)
    (out : GoString) : Prop where
  lines : ((outputFiles dir).flatMap linesOf).Perm (linesOf out)
  sequential : out = ((keys KeyValue.key (env.emitted files)).map (env.line files)).flatten
  nodup : (keys KeyValue.key (env.emitted files)).Nodup
  partition : ∀ p < n, dir.lookup (outputName p) =
    some (((keys KeyValue.key (env.emitted files)).filter fun k => ihash k % n = p).map
      (env.line files)).flatten

/-- **The tasks write what the sequential program writes**: if every map task has been
executed, in any order and any number of times, in a directory with only files of the
job, the reduce tasks of all partitions succeed, and so does the sequential program. -/
theorem output_eq_sequential (hn : 1 ≤ n) (hreduce : env.ReduceComm) (hjson : env.JsonOk files)
    {dir₀ dir : Directory} (hdir : env.JobFiles files n dir₀) {maps reduces : List ℕ}
    (hmaps : ∀ i < files.length, i ∈ maps)
    (hrun : env.runMapTasks files n maps dir₀ = some dir)
    (hreduces : ∀ p, p ∈ reduces ↔ p < n) :
    ∃ dir' out, env.runReduceTasks reduces dir = some dir' ∧ env.mrsequential files = some out ∧
      env.WritesSame files n dir' out := by
  obtain ⟨hfiles, htasks, hread⟩ := hdir.runMapTasks hrun
  have hlt : ∀ {i : ℕ} {filename : GoString}, files[i]? = some filename → i ∈ maps :=
    fun hi => hmaps _ (List.getElem?_eq_some_iff.mp hi).1
  have hready : env.Ready files n dir := by
    refine ⟨fun name content hname => .inl (hfiles name content hname), fun i filename j hi => ?_⟩
    exact htasks i (.inl (hlt hi)) filename j hi
  obtain ⟨dir', hrun', hready', hout⟩ :=
    hready.runReduceTasks hjson hreduce fun p hp => (hreduces p).mp hp
  have hall : ∀ p < n, dir'.lookup (outputName p) = some (env.outputContent files n p) :=
    fun p hp => hout p (.inl ((hreduces p).mpr hp))
  have hreadable : ∀ filename ∈ files, ∃ content, env.readFile filename = some content := by
    intro filename hmem
    obtain ⟨i, hi⟩ := List.mem_iff_getElem?.mp hmem
    exact hread i (hlt hi) filename hi
  refine ⟨dir', _, hrun', mrsequential_eq hreduce hreadable, ?_, rfl, nodup_keys _ _, hall⟩
  -- line by line
  have hlines := (hready'.outputFiles_perm hall).flatMap_right linesOf
  refine hlines.trans ?_
  have hkeys := flatMap_filter_perm hn (nodup_keys KeyValue.key (env.emitted files))
  have hseq := linesOf_flatten (fun k => k ++ [blank] ++
    env.reducef k (valuesOf k (env.emitted files))) (keys KeyValue.key (env.emitted files))
  refine (List.Perm.of_eq ?_).trans ((hkeys.flatMap_right fun k => linesOf (env.line files k)).trans
    (List.Perm.of_eq hseq.symm))
  rw [List.flatMap_map, List.flatMap_assoc]
  exact List.flatMap_congr fun p _ => linesOf_flatten _ _

/-! ### Letters counted -/

def bytes (s : String) : GoString := s.toList.map fun c => Fin.ofNat 256 c.toNat

/-- The letters of the two files `a` and `b` are counted.  The JSON is that of pairs of
letters and digits, which need no escapes. -/
def letterCount : Env where
  readFile filename :=
    if filename = bytes "a" then some (bytes "xyx")
    else if filename = bytes "b" then some (bytes "zx")
    else none
  mapf _ content := content.map fun b => { key := [b], value := bytes "1" }
  reducef _ values := bytes (toString values.length)
  unmarshal s :=
    let key := (s.drop 8).takeWhile (· ≠ 34)
    let value := (s.drop (8 + key.length + 11)).takeWhile (· ≠ 34)
    if s = bytes "\x7b\"Key\":\"" ++ key ++ bytes "\",\"Value\":\"" ++ value ++ bytes "\"\x7d" then
      some { key := key, value := value }
    else none
  sort data := data.insertionSort fun a b => a.key ≤ b.key
  sort_perm data := List.perm_insertionSort _ data
  sort_sorted data :=
    have : Std.Total fun a b : KeyValue => a.key ≤ b.key := ⟨fun a b => le_total a.key b.key⟩
    have : IsTrans KeyValue fun a b => a.key ≤ b.key := ⟨fun _ _ _ hab hbc => hab.trans hbc⟩
    List.pairwise_insertionSort _ data

theorem output_eq_sequential_letterCount : ∃ dir dir' out,
    letterCount.runMapTasks [bytes "a", bytes "b"] 2 [1, 0, 1] ∅ = some dir ∧
      letterCount.runReduceTasks [1, 0] dir = some dir' ∧
      letterCount.mrsequential [bytes "a", bytes "b"] = some out ∧
      out = bytes "x 3\ny 1\nz 1\n" ∧ letterCount.WritesSame [bytes "a", bytes "b"] 2 dir' out := by
  have hok : (letterCount.runMapTasks [bytes "a", bytes "b"] 2 [1, 0, 1] ∅).isSome = true := by
    decide +kernel
  obtain ⟨dir, hrun⟩ := Option.isSome_iff_exists.mp hok
  have hjson : letterCount.JsonOk [bytes "a", bytes "b"] := by
    show ∀ kv ∈ letterCount.emitted _, letterCount.unmarshal (marshal kv) = some kv
    decide +kernel
  have hreduces : ∀ p, p ∈ [1, 0] ↔ p < 2 := by
    intro p
    simp only [List.mem_cons, List.not_mem_nil, or_false]
    omega
  obtain ⟨dir', out, hreduce, hout, hsame⟩ := output_eq_sequential (by decide)
    (fun k vs vs' h => by simp only [letterCount, h.length_eq]) hjson
    (fun name content hname => by cases hname) (by decide) hrun hreduces
  refine ⟨dir, dir', out, hrun, hreduce, hout, ?_, hsame⟩
  have hval : letterCount.mrsequential [bytes "a", bytes "b"] = some (bytes "x 3\ny 1\nz 1\n") := by
    decide +kernel
  rw [hval, Option.some.injEq] at hout
  exact hout.symm

end ExchangeLabs.MapReduce.Worker.Env
