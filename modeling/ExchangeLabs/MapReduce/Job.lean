import ExchangeLabs.Lib.Overwrite
import ExchangeLabs.MapReduce.Assigned
import ExchangeLabs.MapReduce.Sequential

/-!
# A job on one machine

The coordinator with its workers at work, who share a directory.  Every answer of `GetTask`
with a task begins an execution, which goes on in steps that may be interleaved with
everything else: a rename of an intermediate file, a file that is read, a line that is
written.  `WalkDir` is one step, and so is what is computed without a look at the directory.

The same task may be executed by several workers at once, when it has timed out.  The files
of a map task are renamed when they are complete.  A reduce task writes its output in place:
`os.Create` empties the file, also for another worker that is writing it, and every worker
has an offset of its own.  A worker may crash at any time.

## Main definitions

* `Execution`, `Execution.next` — a task as it is executed.
* `Job`, `Job.step` — the coordinator, the directory, and the executions.
* `Job.Orderly` — no second report, and no crash that leaves a hole in an output file.
-/

namespace ExchangeLabs.MapReduce.Local

open Worker Overwrite

/-! ### Executions -/

/-- The bytes of a string. -/
def utf8 (s : String) : GoString :=
  s.toList.flatMap fun c => (String.utf8EncodeChar c).map fun b => Fin.ofNat 256 b.toNat

/-- How far an execution is. -/
inductive Stage
  | handed
  /-- The temporary files `mp` of a map task are to be renamed. -/
  | placing (mp : Table ℕ GoString)
  /-- A reduce task has found these files, and the pairs that it has read. -/
  | reading (filenames : List String) (data : List KeyValue)
  /-- The lines are there, and the output file is not open. -/
  | sorted (lines : List GoString)
  /-- The lines are to be written from the offset on. -/
  | writing (offset : ℕ) (lines : List GoString)

/-- A worker with the task that it executes. -/
structure Execution where
  worker : ℕ
  reply : GetTaskReply
  stage : Stage

/-- What a step of an execution comes to. -/
inductive Effect
  | goes (dir : Directory) (stage : Stage)
  /-- `log.Fatalf` -/
  | dies

namespace Execution

def handout (ex : Execution) : Handout := .ofReply ex.worker ex.reply

/-- The next step of `ExecuteMapTask` or `ExecuteReduceTask`; the renames are made in any
order, and `pick` is the next one. -/
def next (env : Env) (pick : ℕ) (dir : Directory) (ex : Execution) : Option Effect :=
  match ex.stage with
  | .handed =>
    if ex.reply.type = .map then
      match env.readFile (utf8 ex.reply.name) with
      | some content =>
        let initVal := env.mapf (utf8 ex.reply.name) content
        some (.goes dir (.placing (initVal.foldl (writePair ex.reply.partitionNumber) ∅)))
      | none => some .dies
    else some (.goes dir (.reading (walkDir dir ex.reply.number.toNat) []))
  | .placing mp =>
    (mp.lookup pick).map fun f =>
      .goes (AList.insert (intermediateName ex.reply.number.toNat pick) f dir)
        (.placing (mp.erase pick))
  | .reading [] data => some (.goes dir (.sorted (env.reduceRuns (env.sort data))))
  | .reading (filename :: rest) data =>
    match (dir.lookup filename).bind fun content => env.readLines (content.splitOn newline) with
    | some kvs => some (.goes dir (.reading rest (data ++ kvs)))
    | none => some .dies
  | .sorted lines =>
    some (.goes (AList.insert (outputName ex.reply.number.toNat) [] dir) (.writing 0 lines))
  | .writing offset (line :: lines) =>
    some (.goes (dir.modify (outputName ex.reply.number.toNat) (writeAt 0 offset line))
      (.writing (offset + line.length) lines))
  | .writing _ [] => none

/-- The function has returned. -/
def finished (ex : Execution) : Bool :=
  match ex.stage with
  | .placing mp => mp.entries.isEmpty
  | .writing _ [] => true
  | _ => false

/-- The execution has emptied the output file of the reduce task `name`. -/
def Begun (ex : Execution) (name : String) : Prop :=
  ex.reply.name = name ∧ ∃ offset lines, ex.stage = .writing offset lines

/-- The output file is open, and there are lines left. -/
def halfway (ex : Execution) : Bool :=
  match ex.stage with
  | .writing _ (_ :: _) => true
  | _ => false

instance (ex : Execution) (name : String) : Decidable (ex.Begun name) :=
  match hstage : ex.stage with
  | .writing offset lines =>
    decidable_of_iff (ex.reply.name = name) ⟨fun h => ⟨h, offset, lines, hstage⟩, fun h => h.1⟩
  | .handed | .placing _ | .reading _ _ | .sorted _ =>
    isFalse fun ⟨_, _, _, h⟩ => by
      rw [hstage] at h
      cases h

end Execution

/-! ### Jobs -/

structure Job where
  system : System
  dir : Directory
  running : List Execution

/-- What can happen next. -/
inductive Action
  /-- A step of the coordinator that is no report. -/
  | coordinator (e : Event)
  /-- The `i`-th execution goes on. -/
  | work (i pick : ℕ)
  /-- The `i`-th execution is over, and the worker reports it. -/
  | report (i : ℕ)
  /-- The worker of the `i`-th execution crashes. -/
  | crash (i : ℕ)

namespace Job

def make (files : List String) (nReduce : ℕ) (dir : Directory) : Job where
  system := .make files nReduce
  dir := dir
  running := []

/-- After a step of the coordinator, the worker that has been answered begins. -/
def begin (job : Job) (s : System) : Job :=
  { job with
    system := s
    running := match s.answer with
      | some (worker, .ok reply) =>
        job.running ++ [{ worker := worker, reply := reply, stage := .handed }]
      | _ => job.running }

/-- The worker of the `i`-th execution is not at work any more. -/
def drop (job : Job) (i : ℕ) : Job := { job with running := job.running.eraseIdx i }

/-- The `i`-th execution has made a step. -/
def apply (job : Job) (i : ℕ) (ex : Execution) : Effect → Job
  | .goes dir stage =>
    { job with dir := dir, running := job.running.set i { ex with stage := stage } }
  | .dies => job.drop i

def step (env : Env) (job : Job) : Action → Option Job
  | .coordinator (.report _) => none
  | .coordinator e => (job.system.step e).map job.begin
  | .work i pick =>
    job.running[i]?.bind fun ex => (ex.next env pick job.dir).map (job.apply i ex)
  | .report i =>
    job.running[i]?.bind fun ex =>
      if ex.finished then
        (job.system.step (.report ex.handout)).map fun s => { job with system := s }.drop i
      else none
  | .crash i => if i < job.running.length then some (job.drop i) else none

/-- No report is a second one, and a worker that crashes with half of an output file written
leaves no hole: nobody else has the file open, and the task is not completed. -/
def Orderly (job : Job) : Action → Prop
  | .report i => ∀ ex ∈ job.running[i]?, job.system.FirstReport (.report ex.handout)
  | .crash i => ∀ ex ∈ job.running[i]?, ex.halfway = true →
      ¬ Completed job.system.coordinator.reduceTasks ex.reply.name ∧
        ∀ other ∈ job.running.eraseIdx i, ¬ other.Begun ex.reply.name
  | _ => True

instance (job : Job) : (a : Action) → Decidable (job.Orderly a)
  | .report i => inferInstanceAs (Decidable (∀ ex ∈ job.running[i]?, _))
  | .crash i => inferInstanceAs (Decidable (∀ ex ∈ job.running[i]?, _ → _))
  | .coordinator _ | .work .. => inferInstanceAs (Decidable True)

end Job

end ExchangeLabs.MapReduce.Local
