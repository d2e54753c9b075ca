import ExchangeLabs.Lib.Buffer
import ExchangeLabs.Lib.Run
import ExchangeLabs.Shell.Pipeline
import Mathlib.Data.Fintype.EquivFin
import Mathlib.Data.List.Nodup
import Mathlib.Data.List.Perm.Basic

/-!
# The background jobs of the shell

`main` goes through the programs of a command one statement at a time, and the handler of
`SIGCHLD` may run between any two of them.  It reaps the children that have exited and takes
their entries out of `background_jobs`; `main` writes a new entry behind the last one and
counts it afterwards.  Statements that touch neither the children nor the table are passed
over.

A child can exit and be reaped before `main` has recorded it, the handler can move the
entries down between the two statements that add one, and the test for room lets one more
entry in than there is room for.

## Main definitions

* `Phase`, `State` — the next statement of `main`, the table and the children.
* `childHandler` — the handler.
* `Event`, `step` — a statement, an exit, or a run of the handler.
* `State.TableRight` — the table has the jobs that run, in the order of their launch.
* `State.KeepsJobs` — the steps that spoil nothing.

## Main results

* `reaped_childHandler` — what a run of the handler does.
* `tableRight_of_reach` — **in runs of such steps the table is right.**
* `tableRight_broken` — every other step leads to a state in which it is not.
* `reach_filled` — the table can be filled, and then one job more is written behind it.
* `tableRight_not_of_reach` — a job that exits at once stays in the table.
-/

namespace ExchangeLabs.Shell.Jobs

open Buffer

abbrev Pid := ℕ

/-- `MAX_LEN` -/
def maxLen : ℕ := 256

/-- The next statement of `main`.  The current program is the first of the list. -/
inductive Phase
  /-- `readline` -/
  | prompt
  /-- `while (p != NULL)` -/
  | loop (background : Bool) (p : List Pgm)
  /-- `fork` has returned; the test for room, if in the background -/
  | forked (background : Bool) (pid : Pid) (p : List Pgm)
  /-- `background_jobs[background_jobs_count] = current_background` -/
  | store (pid : Pid) (p : List Pgm)
  /-- `background_jobs_count += 1` -/
  | increment (pid : Pid) (p : List Pgm)
  /-- `p = p->next` -/
  | recorded (p : List Pgm)
  /-- `waitpid`, in the foreground -/
  | waiting (pid : Pid) (p : List Pgm)
  | exited
  /-- An access outside of the table. -/
  | undefined
  deriving DecidableEq

structure State where
  /-- `background_jobs` -/
  jobs : List Pid
  /-- `background_jobs_count` -/
  count : ℕ
  phase : Phase
  /-- The children that have not exited. -/
  running : List Pid
  /-- The children that have exited and have not been reaped. -/
  zombies : List Pid
  /-- The children launched in the background that have not been reaped, in the order of their
  launch. -/
  live : List Pid
  /-- A turn of the loop has ended with the program that it began with. -/
  stalled : Bool

def State.init : State := ⟨List.replicate maxLen 0, 0, .prompt, [], [], [], false⟩

/-! ### The handler -/

/-- The search in `child_handler`, and the loop that closes the gap; `none` for an access outside
of the table. -/
def removeJob (jobs : List Pid) (count : ℕ) (pid : Pid) : Option (List Pid × ℕ) :=
  match (jobs.take count).idxOf? pid with
  | some i => (shiftDown jobs i (count - 1)).map fun jobs => (jobs, count - 1)
  | none => if count ≤ jobs.length then some (jobs, count) else none

/-- `waitpid` returns this child. -/
def State.reap (s : State) (pid : Pid) : State :=
  { s with zombies := s.zombies.erase pid, live := s.live.erase pid }

/-- One turn of the loop in `child_handler`. -/
def State.handleChild (s : State) (pid : Pid) : State :=
  match removeJob s.jobs s.count pid with
  | some (jobs, count) => { s.reap pid with jobs := jobs, count := count }
  | none => { s.reap pid with phase := .undefined }

/-- The handler reaps the children in this order. -/
def childHandler (order : List Pid) (s : State) : State := order.foldl State.handleChild s

/-! ### Steps -/

/-- The jobs to which `kill_bg_jobs` sends `SIGTERM`; `none` for an access outside of the table. -/
def killBgJobs (jobs : List Pid) (count : ℕ) : Option (List Pid) :=
  if count ≤ jobs.length then some (jobs.take count) else none

/-- `exit_builtin` -/
def State.exitBuiltin (s : State) : State :=
  match killBgJobs s.jobs s.count with
  | some _ => { s with phase := .exited }
  | none => { s with phase := .undefined }

inductive Event
  /-- A line has been parsed. -/
  | read (cmd : Command)
  /-- The end of the input, which ends the shell. -/
  | eof
  /-- The next statement of `main`; `fork` returns this pid. -/
  | main (pid : Pid)
  | forkFails
  /-- A child exits. -/
  | exit (pid : Pid)
  /-- `child_handler` runs. -/
  | handler (order : List Pid)

/-- The next statement of `main`. -/
def State.main (s : State) (pid : Pid) : Option State :=
  match s.phase with
  | .prompt | .exited | .undefined => none
  | .loop _ [] => some { s with phase := .prompt }
  | .loop background (pgmlist :: rest) =>
    if isExit pgmlist then some s.exitBuiltin
    else if isCd pgmlist then some { s with phase := .loop background rest }
    else if pid = 0 ∨ pid ∈ s.running ++ s.zombies then none
    else
      some { s with
        running := s.running ++ [pid]
        live := if background then s.live ++ [pid] else s.live
        phase := .forked background pid (pgmlist :: rest) }
  | .forked true child p =>
    if s.count > maxLen then some { s with phase := .loop true p, stalled := true }
    else some { s with phase := .store child p }
  | .forked false child p => some { s with phase := .waiting child p }
  | .store child p =>
    match put s.jobs s.count child with
    | some jobs => some { s with jobs := jobs, phase := .increment child p }
    | none => some { s with phase := .undefined }
  | .increment _ p => some { s with count := s.count + 1, phase := .recorded p }
  | .recorded p => some { s with phase := .loop true p.tail }
  | .waiting child p =>
    if child ∈ s.zombies then some { s.reap child with phase := .loop false p.tail }
    else if child ∈ s.running then none
    else some { s with phase := .loop false p.tail }

def step (s : State) : Event → Option State
  | .read cmd =>
    if s.phase = .prompt then some { s with phase := .loop cmd.background cmd.pgm } else none
  | .eof => if s.phase = .prompt then some s.exitBuiltin else none
  | .main pid => s.main pid
  | .forkFails =>
    match s.phase with
    | .loop _ (pgmlist :: _) =>
      if isExit pgmlist ∨ isCd pgmlist then none else some { s with phase := .prompt }
    | _ => none
  | .exit pid =>
    if pid ∈ s.running then
      some { s with running := s.running.erase pid, zombies := s.zombies ++ [pid] }
    else none
  | .handler order =>
    if s.phase = .exited ∨ s.phase = .undefined then none
    else if order.Perm s.zombies then some (childHandler order s)
    else none

/-! ### The table -/

/-- The job that is being recorded: it has been launched, and is not counted yet. -/
def Phase.pending : Phase → List Pid
  | .forked true pid _ | .store pid _ | .increment pid _ => [pid]
  | .forked false _ _ | .prompt | .loop _ _ | .recorded _ | .waiting _ _ | .exited
  | .undefined => []

/-- `if (background_jobs_count > MAX_LEN)` comes next. -/
def Phase.testsRoom : Phase → Bool
  | .forked true _ _ => true
  | .forked false _ _ | .prompt | .loop _ _ | .store _ _ | .increment _ _ | .recorded _
  | .waiting _ _ | .exited | .undefined => false

/-- `background_jobs_count += 1` comes next. -/
def Phase.counts : Phase → Bool
  | .increment _ _ => true
  | .prompt | .loop _ _ | .forked _ _ _ | .store _ _ | .recorded _ | .waiting _ _ | .exited
  | .undefined => false

/-- Outside of the recording of a job the table has the jobs that have not been reaped, in the
order of their launch; no access is outside of it; and the loop goes on to the next program. -/
structure State.TableRight (s : State) : Prop where
  exactly : s.phase.pending = [] → s.jobs.take s.count = s.live
  bounded : s.phase ≠ .undefined
  advances : s.stalled = false

/-- There is room for a job that is to be recorded; and the handler reaps no job while it is being
recorded, and none of the table between the two statements that add one. -/
def State.KeepsJobs (s : State) : Event → Prop
  | .main _ => s.phase.testsRoom → s.count < maxLen
  | .handler order =>
    (∀ pid ∈ s.phase.pending, pid ∉ order) ∧
      (s.phase.counts → ∀ pid ∈ s.jobs.take s.count, pid ∉ order)
  | .read _ | .eof | .forkFails | .exit _ => True

instance (s : State) (e : Event) : Decidable (s.KeepsJobs e) :=
  match e with
  | .main _ => inferInstanceAs (Decidable (s.phase.testsRoom → s.count < maxLen))
  | .handler order =>
    inferInstanceAs (Decidable ((∀ pid ∈ s.phase.pending, pid ∉ order) ∧
      (s.phase.counts → ∀ pid ∈ s.jobs.take s.count, pid ∉ order)))
  | .read _ | .eof | .forkFails | .exit _ => inferInstanceAs (Decidable True)

/-! ### The invariant -/

/-- The job that is being recorded comes behind those of the table. -/
structure State.Kept (s : State) : Prop where
  size : s.jobs.length = maxLen
  le : s.count ≤ maxLen
  nodup : (s.running ++ s.zombies).Nodup
  live_nodup : s.live.Nodup
  child : ∀ pid ∈ s.live, pid ∈ s.running ++ s.zombies
  table : s.live = s.jobs.take s.count ++ s.phase.pending
  room : ∀ pid p, s.phase = .store pid p ∨ s.phase = .increment pid p → s.count < maxLen
  written : ∀ pid p, s.phase = .increment pid p → s.jobs[s.count]? = some pid
  foreground : ∀ pid p, s.phase = .forked false pid p ∨ s.phase = .waiting pid p → pid ∉ s.live
  bounded : s.phase ≠ .undefined
  advances : s.stalled = false

theorem State.Kept.tableRight {s : State} (h : s.Kept) : s.TableRight := by
  refine ⟨fun hpending => ?_, h.bounded, h.advances⟩
  rw [h.table, hpending, List.append_nil]

theorem State.Kept.count_le {s : State} (h : s.Kept) : s.count ≤ s.jobs.length := by
  rw [h.size]
  exact h.le

theorem kept_init : State.init.Kept where
  size := List.length_replicate
  le := Nat.zero_le _
  nodup := List.nodup_nil
  live_nodup := List.nodup_nil
  child _ h := by cases h
  table := rfl
  room _ _ h := by rcases h with h | h <;> cases h
  written _ _ h := by cases h
  foreground _ _ h := by rcases h with h | h <;> cases h
  bounded h := by cases h
  advances := rfl

/-! ### The handler -/

/-- A job of the table is taken out, and the others keep their order. -/
theorem removeJob_of_mem {jobs : List Pid} {count : ℕ} {pid : Pid} (hcount : count ≤ jobs.length)
    (h : pid ∈ jobs.take count) :
    ∃ jobs', removeJob jobs count pid = some (jobs', count - 1) ∧ jobs'.length = jobs.length ∧
      jobs'.take (count - 1) = (jobs.take count).erase pid ∧
      ∀ n, count ≤ n → jobs'.take n ⊆ jobs.take n := by
  unfold removeJob
  rw [List.erase_eq_eraseIdx]
  cases hi : (jobs.take count).idxOf? pid with
  | none => exact absurd h (List.idxOf?_eq_none_iff.mp hi)
  | some i =>
    obtain ⟨hlt, -⟩ := List.idxOf?_eq_some_iff.mp hi
    rw [List.length_take] at hlt
    obtain ⟨jobs', hshift, hlength, htake⟩ :=
      @shiftDown_eq _ jobs i (count - 1) (by omega) (by omega)
    rw [Nat.sub_add_cancel (by omega)] at htake
    refine ⟨jobs', ?_, hlength, htake, fun n hn => shiftDown_subset hshift (by omega)⟩
    dsimp only
    rw [hshift]
    rfl

theorem removeJob_of_notMem {jobs : List Pid} {count : ℕ} {pid : Pid} (hcount : count ≤ jobs.length)
    (h : pid ∉ jobs.take count) : removeJob jobs count pid = some (jobs, count) := by
  unfold removeJob
  rw [List.idxOf?_eq_none_iff.mpr h]
  exact if_pos hcount

/-- What the handler does when it reaps the children of `order`. -/
structure Reaped (order : List Pid) (s t : State) : Prop where
  phase : t.phase = s.phase
  running : t.running = s.running
  stalled : t.stalled = s.stalled
  zombies : t.zombies = s.zombies.diff order
  live : t.live = s.live.diff order
  length : t.jobs.length = s.jobs.length
  count : t.count ≤ s.count
  table : t.jobs.take t.count = (s.jobs.take s.count).diff order
  cells : ∀ n, s.count ≤ n → t.jobs.take n ⊆ s.jobs.take n
  same : (∀ pid ∈ s.jobs.take s.count, pid ∉ order) → t.jobs = s.jobs ∧ t.count = s.count

theorem reaped_handleChild {s : State} (hcount : s.count ≤ s.jobs.length) (pid : Pid) :
    Reaped [pid] s (s.handleChild pid) := by
  unfold State.handleChild
  by_cases hmem : pid ∈ s.jobs.take s.count
  · obtain ⟨jobs, hremove, hlength, htake, hcells⟩ := removeJob_of_mem hcount hmem
    rw [hremove]
    exact {
      phase := rfl
      running := rfl
      stalled := rfl
      zombies := by simp [State.reap]
      live := by simp [State.reap]
      length := hlength
      count := Nat.sub_le _ _
      table := by simpa using htake
      cells := hcells
      same := fun hout => absurd (List.mem_singleton_self pid) (hout pid hmem) }
  · rw [removeJob_of_notMem hcount hmem]
    exact {
      phase := rfl
      running := rfl
      stalled := rfl
      zombies := by simp [State.reap]
      live := by simp [State.reap]
      length := rfl
      count := Nat.le_refl _
      table := by simp [List.erase_of_not_mem hmem]
      cells := fun _ _ => List.Subset.refl _
      same := fun _ => ⟨rfl, rfl⟩ }

/-- **The handler takes the jobs that it reaps out of the table**, and nothing else. -/
theorem reaped_childHandler (order : List Pid) :
    ∀ {s : State}, s.count ≤ s.jobs.length → Reaped order s (childHandler order s) := by
  induction order with
  | nil =>
    intro s _
    exact ⟨rfl, rfl, rfl, rfl, rfl, rfl, Nat.le_refl _, rfl, fun _ _ => List.Subset.refl _,
      fun _ => ⟨rfl, rfl⟩⟩
  | cons pid order ih =>
    intro s hcount
    have hfirst := reaped_handleChild hcount pid
    have hrest := ih (s := s.handleChild pid)
      (hfirst.count.trans (hcount.trans_eq hfirst.length.symm))
    have hdiff (l : List Pid) : (l.diff [pid]).diff order = l.diff (pid :: order) := by simp
    exact {
      phase := hrest.phase.trans hfirst.phase
      running := hrest.running.trans hfirst.running
      stalled := hrest.stalled.trans hfirst.stalled
      zombies := by rw [← hdiff, ← hfirst.zombies]; exact hrest.zombies
      live := by rw [← hdiff, ← hfirst.live]; exact hrest.live
      length := hrest.length.trans hfirst.length
      count := hrest.count.trans hfirst.count
      table := by rw [← hdiff, ← hfirst.table]; exact hrest.table
      cells := fun n hn =>
        List.Subset.trans (hrest.cells n (hfirst.count.trans hn)) (hfirst.cells n hn)
      same := by
        intro hout
        obtain ⟨hjobs, hlast⟩ := hfirst.same fun child hchild hmem =>
          hout child hchild (List.mem_singleton.mp hmem ▸ List.mem_cons_self)
        rw [← hjobs, ← hlast] at hout ⊢
        exact hrest.same fun child hchild hmem => hout child hchild (List.mem_cons_of_mem _ hmem) }

/-- What is not reaped stays, in its order. -/
theorem diff_append_of_disjoint {jobs pending order : List Pid} (h : (jobs ++ pending).Nodup)
    (hpending : ∀ pid ∈ pending, pid ∉ order) :
    (jobs ++ pending).diff order = jobs.diff order ++ pending := by
  rw [h.sdiff_eq_filter, List.filter_append, (List.nodup_append.mp h).1.sdiff_eq_filter]
  congr 1
  exact List.filter_eq_self.mpr fun pid hpid => decide_eq_true (hpending pid hpid)

theorem State.Kept.childHandler {s : State} (h : s.Kept) {order : List Pid}
    (hpending : ∀ pid ∈ s.phase.pending, pid ∉ order)
    (hwindow : ∀ pid p, s.phase = .increment pid p →
      ∀ child ∈ s.jobs.take s.count, child ∉ order) :
    (Jobs.childHandler order s).Kept := by
  have hr := reaped_childHandler order h.count_le
  have hlive := h.live_nodup
  rw [h.table] at hlive
  exact {
    size := hr.length.trans h.size
    le := hr.count.trans h.le
    nodup := by
      rw [hr.running, hr.zombies]
      exact h.nodup.sublist ((List.Sublist.refl _).append (List.diff_sublist _ _))
    live_nodup := by
      rw [hr.live]
      exact h.live_nodup.sublist (List.diff_sublist _ _)
    child := by
      intro pid hmem
      rw [hr.live, h.live_nodup.mem_sdiff_iff] at hmem
      rw [hr.running, hr.zombies, List.mem_append]
      exact (List.mem_append.mp (h.child pid hmem.1)).imp_right fun hzombie =>
        List.mem_diff_of_mem hzombie hmem.2
    table := by
      rw [hr.live, hr.phase, hr.table, h.table]
      exact diff_append_of_disjoint hlive hpending
    room := by
      intro pid p hphase
      rw [hr.phase] at hphase
      exact hr.count.trans_lt (h.room pid p hphase)
    written := by
      intro pid p hphase
      rw [hr.phase] at hphase
      obtain ⟨hjobs, hcount⟩ := hr.same (hwindow pid p hphase)
      rw [hjobs, hcount]
      exact h.written pid p hphase
    foreground := by
      intro pid p hphase hmem
      rw [hr.phase] at hphase
      rw [hr.live, h.live_nodup.mem_sdiff_iff] at hmem
      exact h.foreground pid p hphase hmem.1
    bounded := hr.phase ▸ h.bounded
    advances := hr.stalled.trans h.advances }

/-! ### Every step -/

/-- `main` goes on, and what is being recorded stays the same. -/
theorem State.Kept.goto {s : State} (h : s.Kept) {phase : Phase}
    (hpending : phase.pending = s.phase.pending)
    (hroom : ∀ pid p, phase = .store pid p → s.count < maxLen)
    (hincrement : ∀ pid p, phase ≠ .increment pid p)
    (hforeground : ∀ pid p, phase = .forked false pid p ∨ phase = .waiting pid p → pid ∉ s.live)
    (hbounded : phase ≠ .undefined) : State.Kept { s with phase := phase } where
  size := h.size
  le := h.le
  nodup := h.nodup
  live_nodup := h.live_nodup
  child := h.child
  table := h.table.trans (by rw [hpending])
  room pid p hphase := hphase.elim (hroom pid p) fun hinc => absurd hinc (hincrement pid p)
  written pid p hphase := absurd hphase (hincrement pid p)
  foreground := hforeground
  bounded := hbounded
  advances := h.advances

/-- `main` is at the head of the loop, in front of it, or at the end. -/
theorem State.Kept.rest {s : State} (h : s.Kept) {phase : Phase} (hpending : s.phase.pending = [])
    (hphase : phase = .prompt ∨ phase = .exited ∨ ∃ background p, phase = .loop background p) :
    State.Kept { s with phase := phase } := by
  rcases hphase with rfl | rfl | ⟨background, p, rfl⟩
  all_goals
    refine h.goto hpending.symm ?_ ?_ ?_ ?_ <;> simp

/-- `kill_bg_jobs` reaches the jobs that have not been reaped, and no others. -/
theorem State.Kept.killBgJobs {s : State} (h : s.Kept) (hpending : s.phase.pending = []) :
    Jobs.killBgJobs s.jobs s.count = some s.live := by
  rw [h.table, hpending, List.append_nil]
  exact if_pos h.count_le

theorem State.Kept.exitBuiltin {s : State} (h : s.Kept) (hpending : s.phase.pending = []) :
    s.exitBuiltin.Kept := by
  unfold State.exitBuiltin
  rw [h.killBgJobs hpending]
  exact h.rest hpending (.inr (.inl rfl))

/-- **A child is launched.** -/
theorem State.Kept.fork {s : State} (h : s.Kept) (hpending : s.phase.pending = []) {pid : Pid}
    (hnew : pid ∉ s.running ++ s.zombies) (background : Bool) (p : List Pgm) :
    State.Kept { s with
      running := s.running ++ [pid]
      live := if background then s.live ++ [pid] else s.live
      phase := .forked background pid p } := by
  have hlive : pid ∉ s.live := fun hmem => hnew (h.child pid hmem)
  have hnodup : ((s.running ++ [pid]) ++ s.zombies).Nodup := by
    rw [List.append_assoc, List.singleton_append, List.nodup_middle]
    exact List.nodup_cons.mpr ⟨hnew, h.nodup⟩
  have hchild : ∀ child ∈ s.live, child ∈ (s.running ++ [pid]) ++ s.zombies := by
    intro child hmem
    have hold := h.child child hmem
    simp only [List.mem_append] at hold ⊢
    exact hold.imp_left .inl
  have htable := h.table
  rw [hpending, List.append_nil] at htable
  -- a job is recorded later, so it is pending; a foreground child is on no table
  cases background with
  | true =>
    exact {
      size := h.size
      le := h.le
      nodup := hnodup
      live_nodup := by
        have hnew := List.nodup_cons.mpr ⟨hlive, h.live_nodup⟩
        exact List.nodup_append_comm.mp hnew
      child := by
        intro child hmem
        rcases List.mem_append.mp hmem with hmem | hmem
        · exact hchild child hmem
        · simp [List.mem_singleton.mp hmem]
      table := congrArg (· ++ [pid]) htable
      room := by simp
      written := by simp
      foreground := by simp
      bounded := by simp
      advances := h.advances }
  | false =>
    exact {
      size := h.size
      le := h.le
      nodup := hnodup
      live_nodup := h.live_nodup
      child := hchild
      table := htable.trans (List.append_nil _).symm
      room := by simp
      written := by simp
      foreground := by
        intro child q hphase
        simp only [Phase.forked.injEq, true_and, reduceCtorEq, or_false] at hphase
        rw [← hphase.1]
        exact hlive
      bounded := by simp
      advances := h.advances }

/-- **The new entry is written** behind those of the table. -/
theorem State.Kept.store {s : State} (h : s.Kept) {pid : Pid} {p : List Pgm}
    (hphase : s.phase = .store pid p) :
    put s.jobs s.count pid = some (s.jobs.set s.count pid) ∧
      State.Kept { s with jobs := s.jobs.set s.count pid, phase := .increment pid p } := by
  have hroom : s.count < s.jobs.length := by
    rw [h.size]
    exact h.room pid p (.inl hphase)
  refine ⟨put_of_lt hroom pid, ?_⟩
  exact {
    size := (List.length_set).trans h.size
    le := h.le
    nodup := h.nodup
    live_nodup := h.live_nodup
    child := h.child
    table := by
      -- the new entry is behind the counted ones, which it leaves alone
      have htable := h.table
      rw [hphase] at htable
      rw [htable, List.take_set_of_le (Nat.le_refl _)]
      rfl
    room := fun _ _ _ => h.room pid p (.inl hphase)
    written := by
      intro child q hinc
      cases hinc
      exact List.getElem?_set_self hroom
    foreground := by simp
    bounded := by simp
    advances := h.advances }

/-- **The new entry is counted.** -/
theorem State.Kept.increment {s : State} (h : s.Kept) {pid : Pid} {p : List Pgm}
    (hphase : s.phase = .increment pid p) :
    State.Kept { s with count := s.count + 1, phase := .recorded p } where
  size := h.size
  le := h.room pid p (.inr hphase)
  nodup := h.nodup
  live_nodup := h.live_nodup
  child := h.child
  table := by
    -- what was pending is the entry that is counted now
    have htable := h.table
    rw [hphase] at htable
    rw [htable, List.take_add_one, h.written pid p hphase]
    simp [Phase.pending]
  room := by simp
  written := by simp
  foreground := by simp
  bounded := by simp
  advances := h.advances

/-- A child of the foreground is reaped. -/
theorem State.Kept.reap {s : State} (h : s.Kept) {pid : Pid} (hlive : pid ∉ s.live) :
    (s.reap pid).Kept where
  size := h.size
  le := h.le
  nodup := h.nodup.sublist ((List.Sublist.refl _).append List.erase_sublist)
  live_nodup := h.live_nodup.erase pid
  child := by
    intro child hmem
    have hmem := List.mem_of_mem_erase hmem
    have hne : child ≠ pid := fun heq => hlive (heq ▸ hmem)
    have hold := h.child child hmem
    simp only [State.reap, List.mem_append, List.mem_erase_of_ne hne] at hold ⊢
    exact hold
  table := (List.erase_of_not_mem hlive).trans h.table
  room := h.room
  written := h.written
  foreground := fun child p hphase hmem => h.foreground child p hphase (List.mem_of_mem_erase hmem)
  bounded := h.bounded
  advances := h.advances

theorem State.Kept.main {s t : State} (h : s.Kept) {pid : Pid} (hok : s.KeepsJobs (.main pid))
    (hstep : s.main pid = some t) : t.Kept := by
  unfold State.main at hstep
  split at hstep
  · -- no statement is left at the prompt, after the exit or after undefined behaviour
    cases hstep
  · cases hstep
  · cases hstep
  · next background hphase =>
    cases hstep
    exact h.rest (by rw [hphase]; rfl) (.inl rfl)
  · next background pgmlist rest hphase =>
    have hpending : s.phase.pending = [] := by
      rw [hphase]
      rfl
    split at hstep
    · cases hstep
      exact h.exitBuiltin hpending
    split at hstep
    · cases hstep
      exact h.rest hpending (.inr (.inr ⟨_, _, rfl⟩))
    split at hstep
    · cases hstep
    · next hpid =>
      cases hstep
      exact h.fork hpending (not_or.mp hpid).2 background _
  · next child p hphase =>
    -- the test for room lets one job too many pass, which the condition excludes
    have hroom : s.count < maxLen := hok (by rw [hphase]; rfl)
    rw [if_neg (by omega)] at hstep
    cases hstep
    apply h.goto (by rw [hphase]; rfl) (fun _ _ _ => hroom) <;> simp
  · next child p hphase =>
    cases hstep
    refine h.goto (by rw [hphase]; rfl) (by simp) (by simp) ?_ (by simp)
    intro child' q hwaiting
    -- only a child of the foreground is waited for
    rcases hwaiting with hwaiting | hwaiting
    · cases hwaiting
    · cases hwaiting
      exact h.foreground child p (.inl hphase)
  · next child p hphase =>
    obtain ⟨hput, hkept⟩ := h.store hphase
    rw [hput] at hstep
    cases hstep
    exact hkept
  · next child p hphase =>
    cases hstep
    exact h.increment hphase
  · next p hphase =>
    cases hstep
    exact h.rest (by rw [hphase]; rfl) (.inr (.inr ⟨_, _, rfl⟩))
  · next child p hphase =>
    have hpending : s.phase.pending = [] := by
      rw [hphase]
      rfl
    split at hstep
    · cases hstep
      have hlive := h.foreground child p (.inr hphase)
      exact (h.reap hlive).rest hpending (.inr (.inr ⟨_, _, rfl⟩))
    split at hstep
    · cases hstep
    · cases hstep
      exact h.rest hpending (.inr (.inr ⟨_, _, rfl⟩))

/-- A child exits, and waits to be reaped. -/
theorem State.Kept.exit {s : State} (h : s.Kept) {pid : Pid} (hpid : pid ∈ s.running) :
    State.Kept { s with running := s.running.erase pid, zombies := s.zombies ++ [pid] } := by
  have hperm : (s.running.erase pid ++ (s.zombies ++ [pid])).Perm (s.running ++ s.zombies) := by
    rw [← List.append_assoc]
    -- the child goes from those that run to the zombies
    refine List.perm_append_singleton _ _ |>.trans ?_
    exact (List.perm_cons_erase hpid).symm.append_right _
  exact {
    size := h.size
    le := h.le
    nodup := hperm.nodup_iff.mpr h.nodup
    live_nodup := h.live_nodup
    child := fun child hmem => hperm.mem_iff.mpr (h.child child hmem)
    table := h.table
    room := h.room
    written := h.written
    foreground := h.foreground
    bounded := h.bounded
    advances := h.advances }

/-- **Every step** that meets the condition keeps the invariant. -/
theorem State.Kept.step {s t : State} (h : s.Kept) {e : Event} (hok : s.KeepsJobs e)
    (hstep : step s e = some t) : t.Kept := by
  unfold Jobs.step at hstep
  cases e with
  | read cmd =>
    dsimp only at hstep
    split at hstep
    · next hphase =>
      cases hstep
      exact h.rest (by rw [hphase]; rfl) (.inr (.inr ⟨_, _, rfl⟩))
    · cases hstep
  | eof =>
    dsimp only at hstep
    split at hstep
    · next hphase =>
      cases hstep
      exact h.exitBuiltin (by rw [hphase]; rfl)
    · cases hstep
  | main pid => exact h.main hok hstep
  | forkFails =>
    dsimp only at hstep
    split at hstep
    · next background pgmlist rest hphase =>
      split at hstep
      · cases hstep
      · cases hstep
        exact h.rest (by rw [hphase]; rfl) (.inl rfl)
    · cases hstep
  | exit pid =>
    dsimp only at hstep
    split at hstep
    · next hpid =>
      cases hstep
      exact h.exit hpid
    · cases hstep
  | handler order =>
    dsimp only at hstep
    split at hstep
    · cases hstep
    split at hstep
    · cases hstep
      -- the handler may come between any two statements of `main`
      obtain ⟨hpending, hwindow⟩ := hok
      exact h.childHandler hpending fun child p hphase => hwindow (by rw [hphase]; rfl)
    · cases hstep

theorem kept_of_reach {s : State} (hs : ReachWhile step State.KeepsJobs State.init s) : s.Kept :=
  hs.invariant (P := State.Kept) kept_init fun _ _ _ h hok hstep => h.step hok hstep

/-- **The table is right** in runs in which no job is reaped while it is being recorded, none of
the table is reaped between the statements that add one, and there is room for every job. -/
theorem tableRight_of_reach {s : State} (hs : ReachWhile step State.KeepsJobs State.init s) :
    s.TableRight := (kept_of_reach hs).tableRight

/-- `sleep 1 &` -/
def sleep : Command := ⟨[["sleep".toList, "1".toList]], none, none, true⟩

/-- One job is recorded and reaped, and a program is waited for. -/
def sleepThenLs : List Event :=
  [.read sleep, .main 100, .main 0, .main 0, .main 0, .main 0, .main 0,
    .read ⟨[["ls".toList]], none, none, false⟩, .main 101, .main 0, .exit 100, .handler [100],
    .exit 101, .main 0, .main 0, .eof]

theorem tableRight_sleepThenLs :
    ∃ s, run (restrict step State.KeepsJobs) State.init sleepThenLs = some s ∧ s.TableRight := by
  have hrun : (run (restrict step State.KeepsJobs) State.init sleepThenLs).isSome := by
    decide +kernel
  obtain ⟨s, hs⟩ := Option.isSome_iff_exists.mp hrun
  exact ⟨s, hs, tableRight_of_reach (reachWhile_of_run _ _ _ hs)⟩

/-! ### A step that spoils the table -/

section Broken

variable {s t : State} {pid : Pid} {p : List Pgm}

theorem reach_main {u : State} (pid : Pid) (hmain : s.main pid = some t) (ht : Reach step t u) :
    Reach step s u := (ReachWhile.tail (.main pid) .refl trivial hmain).trans ht

theorem Phase.pending_cases {phase : Phase} (h : pid ∈ phase.pending) :
    (∃ p, phase = .forked true pid p) ∨ (∃ p, phase = .store pid p) ∨
      ∃ p, phase = .increment pid p := by
  cases phase with
  | forked background child p => cases background <;> simp_all [Phase.pending]
  | store child p => simp_all [Phase.pending]
  | increment child p => simp_all [Phase.pending]
  | prompt | loop | recorded | waiting | exited | undefined => cases h

theorem Phase.testsRoom_iff {phase : Phase} :
    phase.testsRoom ↔ ∃ pid p, phase = .forked true pid p := by
  cases phase with
  | forked background child p => cases background <;> simp [Phase.testsRoom]
  | prompt | loop | store | increment | recorded | waiting | exited | undefined =>
    simp [Phase.testsRoom]

theorem Phase.counts_iff {phase : Phase} : phase.counts ↔ ∃ pid p, phase = .increment pid p := by
  cases phase <;> simp [Phase.counts]

/-- An entry is counted that is not the next job. -/
theorem broken_of_increment (hphase : s.phase = .increment pid p)
    (htable : s.jobs.take (s.count + 1) ≠ s.live) : ∃ t, Reach step s t ∧ ¬ t.TableRight := by
  refine ⟨{ s with count := s.count + 1, phase := .recorded p }, reach_main 0 ?_ .refl, ?_⟩
  · simp only [State.main, hphase]
  · intro hright
    exact htable (hright.exactly rfl)

/-- The job is counted that has been reaped. -/
theorem broken_of_gone (hphase : s.phase = .increment pid p) (hroom : s.count < s.jobs.length)
    (hgone : s.live = s.jobs.take s.count) : ∃ t, Reach step s t ∧ ¬ t.TableRight := by
  refine broken_of_increment hphase fun htable => ?_
  have hlength := congrArg List.length (htable.trans hgone)
  simp only [List.length_take] at hlength
  omega

/-- There is no room for the job, or it has been reaped. -/
theorem broken_of_store (hphase : s.phase = .store pid p)
    (hgone : s.count < s.jobs.length → s.live = s.jobs.take s.count) :
    ∃ t, Reach step s t ∧ ¬ t.TableRight := by
  by_cases hroom : s.count < s.jobs.length
  · have hput := put_of_lt hroom pid
    obtain ⟨t, ht, hbroken⟩ := @broken_of_gone
      { s with jobs := s.jobs.set s.count pid, phase := .increment pid p } pid p rfl
      (by simpa using hroom) (by simpa [List.take_set_of_le] using hgone hroom)
    refine ⟨t, reach_main 0 ?_ ht, hbroken⟩
    simp only [State.main, hphase, hput]
  · refine ⟨{ s with phase := .undefined }, reach_main 0 ?_ .refl, fun hright => hright.bounded rfl⟩
    simp only [State.main, hphase, put_of_length_le (Nat.not_lt.mp hroom)]

theorem broken_of_forked (hphase : s.phase = .forked true pid p) (hcount : s.count ≤ maxLen)
    (hgone : s.count < s.jobs.length → s.live = s.jobs.take s.count) :
    ∃ t, Reach step s t ∧ ¬ t.TableRight := by
  obtain ⟨t, ht, hbroken⟩ := @broken_of_store { s with phase := .store pid p } pid p rfl hgone
  refine ⟨t, reach_main 0 ?_ ht, hbroken⟩
  simp only [State.main, hphase, if_neg (Nat.not_lt.mpr hcount)]

/-- **The job that is being recorded is reaped**, and stays in the table. -/
theorem broken_of_reaped {order : List Pid} (h : s.Kept) (hr : Reaped order s t)
    (hpid : pid ∈ s.phase.pending) (horder : pid ∈ order) :
    ∃ u, Reach step t u ∧ ¬ u.TableRight := by
  have hcount : t.count ≤ maxLen := hr.count.trans h.le
  have hpending : s.phase.pending = [pid] := by
    rcases Phase.pending_cases hpid with ⟨p, hphase⟩ | ⟨p, hphase⟩ | ⟨p, hphase⟩ <;>
      simp [hphase, Phase.pending]
  have hgone : t.live = t.jobs.take t.count := by
    have htable := h.table
    have hlive := h.live_nodup
    rw [hpending] at htable
    rw [htable] at hlive
    rw [hr.live, hr.table, htable, hlive.sdiff_eq_filter, List.filter_append,
      (List.nodup_append.mp hlive).1.sdiff_eq_filter]
    simp [horder]
  rcases Phase.pending_cases hpid with ⟨p, hphase⟩ | ⟨p, hphase⟩ | ⟨p, hphase⟩
  · exact broken_of_forked (hr.phase.trans hphase) hcount fun _ => hgone
  · exact broken_of_store (hr.phase.trans hphase) fun _ => hgone
  · refine broken_of_gone (hr.phase.trans hphase) ?_ hgone
    rw [hr.length, h.size]
    exact hr.count.trans_lt (h.room pid p (.inr hphase))

/-- **A job of the table is reaped** between the two statements: the entry that is counted is an
old one. -/
theorem broken_of_window {order : List Pid} (h : s.Kept) (hr : Reaped order s t)
    (hphase : s.phase = .increment pid p) (hpid : pid ∉ order) {child : Pid}
    (hchild : child ∈ s.jobs.take s.count) (horder : child ∈ order) :
    ∃ u, Reach step t u ∧ ¬ u.TableRight := by
  have hlive := h.live_nodup
  have htable := h.table
  rw [hphase, Phase.pending] at htable
  rw [htable] at hlive
  obtain ⟨hjobs, -, hout⟩ := List.nodup_append.mp hlive
  have hfewer : t.count < s.count := by
    have hlength := congrArg List.length hr.table
    have hfilter :
        ((s.jobs.take s.count).filter (· ∉ order)).length < (s.jobs.take s.count).length :=
      List.length_filter_lt_length_iff_exists.mpr ⟨child, hchild, by simpa using horder⟩
    have := hr.count
    have := hr.length
    rw [hjobs.sdiff_eq_filter] at hlength
    simp only [List.length_take] at hlength hfilter
    have := h.le
    have := h.size
    omega
  refine broken_of_increment (hr.phase.trans hphase) fun hcounted => ?_
  rw [hr.live, htable, diff_append_of_disjoint hlive (by simpa using hpid), ← hr.table,
    List.take_add_one, List.append_cancel_left_eq] at hcounted
  have hentry : pid ∈ t.jobs.take s.count := by
    have hread : t.jobs[t.count]? = some pid := by
      cases hread : t.jobs[t.count]? with
      | none => simp [hread] at hcounted
      | some other => simpa [hread] using hcounted
    rw [← List.getElem?_take_of_lt hfewer] at hread
    exact List.mem_of_getElem? hread
  exact hout pid (hr.cells _ (Nat.le_refl _) hentry) pid (List.mem_singleton_self _) rfl

/-- **The condition is exact**: every step that does not meet it leads to a state in which the
table is not right. -/
theorem tableRight_broken {e : Event} (hs : ReachWhile step State.KeepsJobs State.init s)
    (hstep : step s e = some t) (hspoils : ¬ s.KeepsJobs e) :
    ∃ u, Reach step t u ∧ ¬ u.TableRight := by
  have h := kept_of_reach hs
  cases e with
  | read | eof | forkFails | exit => exact absurd trivial hspoils
  | main child =>
    obtain ⟨htests, hfull⟩ := Classical.not_imp.mp hspoils
    obtain ⟨pid, p, hphase⟩ := Phase.testsRoom_iff.mp htests
    simp only [step, State.main, hphase, if_neg (Nat.not_lt.mpr h.le)] at hstep
    cases hstep
    refine broken_of_store rfl fun hroom => absurd ?_ hfull
    rwa [h.size] at hroom
  | handler order =>
    have hr := reaped_childHandler order h.count_le
    simp only [step] at hstep
    split at hstep
    · cases hstep
    split at hstep
    · cases hstep
      by_cases hpending : ∀ pid ∈ s.phase.pending, pid ∉ order
      · obtain ⟨hcounts, hwindow⟩ := Classical.not_imp.mp (not_and.mp hspoils hpending)
        obtain ⟨pid, p, hphase⟩ := Phase.counts_iff.mp hcounts
        simp only [not_forall, not_not] at hwindow
        obtain ⟨child, hchild, horder⟩ := hwindow
        have hpid : pid ∉ order := hpending pid (by simp [hphase, Phase.pending])
        exact broken_of_window h hr hphase hpid hchild horder
      · simp only [not_forall, not_not] at hpending
        obtain ⟨pid, hpid, horder⟩ := hpending
        exact broken_of_reaped h hr hpid horder
    · cases hstep

end Broken

/-! ### The table is filled -/

theorem reach_forked {s : State} (hprompt : s.phase = .prompt) :
    ∃ pid, ReachWhile step State.KeepsJobs s { s with
      running := s.running ++ [pid]
      live := s.live ++ [pid]
      phase := .forked true pid sleep.pgm } := by
  obtain ⟨pid, hpid⟩ := Infinite.exists_notMem_finset (0 :: (s.running ++ s.zombies)).toFinset
  rw [List.mem_toFinset, List.mem_cons] at hpid
  have hread : ReachWhile step State.KeepsJobs s { s with phase := .loop true sleep.pgm } :=
    .tail (.read sleep) .refl trivial (if_pos hprompt)
  exact ⟨pid, hread.tail (.main pid) (by simp [State.KeepsJobs, Phase.testsRoom]) (if_neg hpid)⟩

/-- A job is launched and recorded, from one prompt to the next. -/
theorem reach_recorded {s : State} (h : s.Kept) (hprompt : s.phase = .prompt)
    (hroom : s.count < maxLen) :
    ∃ t, ReachWhile step State.KeepsJobs s t ∧ t.phase = .prompt ∧ t.count = s.count + 1 := by
  obtain ⟨pid, hfork⟩ := reach_forked hprompt
  have hput := put_of_lt (hroom.trans_eq h.size.symm) pid
  have htest := hfork.tail (Event.main 0) (fun _ => hroom) (if_neg (Nat.not_lt.mpr h.le))
  have hstore := htest.tail (Event.main 0) (by simp [State.KeepsJobs, Phase.testsRoom])
    (by simp only [step, State.main, hput]; rfl)
  have hcount := hstore.tail (Event.main 0) (by simp [State.KeepsJobs, Phase.testsRoom]) rfl
  have hnext := hcount.tail (Event.main 0) (by simp [State.KeepsJobs, Phase.testsRoom]) rfl
  have hend := hnext.tail (Event.main 0) (by simp [State.KeepsJobs, Phase.testsRoom]) rfl
  exact ⟨_, hend, rfl, rfl⟩

/-- The table can be filled, a job at a time. -/
theorem reach_filled : ∀ n ≤ maxLen,
    ∃ s, ReachWhile step State.KeepsJobs State.init s ∧ s.phase = .prompt ∧ s.count = n := by
  intro n
  induction n with
  | zero => exact fun _ => ⟨State.init, .refl, rfl, rfl⟩
  | succ n ih =>
    intro hn
    obtain ⟨s, hs, hprompt, rfl⟩ := ih (Nat.le_of_succ_le hn)
    obtain ⟨t, ht, hprompt, hcount⟩ := reach_recorded (kept_of_reach hs) hprompt hn
    exact ⟨t, hs.trans ht, hprompt, hcount⟩

/-- **One job more than there is room for** is written behind the table. -/
theorem undefined_of_filled {s : State} (h : s.Kept) (hprompt : s.phase = .prompt)
    (hfull : s.count = maxLen) : ∃ t, Reach step s t ∧ t.phase = .undefined := by
  obtain ⟨pid, hfork⟩ := reach_forked hprompt
  have hput : put s.jobs s.count pid = none := put_of_length_le (by rw [h.size, hfull]) pid
  have hlaunch : Reach step s _ := hfork.mono fun _ _ _ => trivial
  have htest := hlaunch.tail (Event.main 0) trivial (if_neg (Nat.not_lt.mpr h.le))
  have hstore := htest.tail (Event.main 0) trivial (by simp only [step, State.main, hput]; rfl)
  exact ⟨_, hstore, rfl⟩

/-- A job exits and is reaped before it is recorded. -/
def exitsAtOnce : List Event :=
  [.read sleep, .main 100, .exit 100, .handler [100], .main 0, .main 0, .main 0]

/-- The first job exits and is reaped when the second one has been written and is not counted. -/
def exitsInBetween : List Event :=
  [.read sleep, .main 100, .main 0, .main 0, .main 0, .main 0, .main 0, .read sleep, .main 101,
    .main 0, .main 0, .exit 100, .handler [100], .main 0]

/-- **A dead job stays in the table**, and in the second run the one that runs is not there; and
the end of the table is passed. -/
theorem tableRight_not_of_reach :
    (∃ s, Reach step State.init s ∧ ¬ s.TableRight ∧ s.jobs.take s.count = [100] ∧ s.live = []) ∧
    (∃ s, Reach step State.init s ∧ ¬ s.TableRight ∧ s.jobs.take s.count = [100] ∧
      s.live = [101]) ∧
    ∃ s, Reach step State.init s ∧ s.phase = .undefined := by
  have hatOnce : ∃ s ∈ run step State.init exitsAtOnce,
      s.phase.pending = [] ∧ s.jobs.take s.count = [100] ∧ s.live = [] := by
    decide +kernel
  have hbetween : ∃ s ∈ run step State.init exitsInBetween,
      s.phase.pending = [] ∧ s.jobs.take s.count = [100] ∧ s.live = [101] := by
    decide +kernel
  obtain ⟨s, hs, hpending, htable, hlive⟩ := hatOnce
  obtain ⟨t, ht, hpending', htable', hlive'⟩ := hbetween
  refine ⟨⟨s, reach_of_run _ _ _ hs, fun h => ?_, htable, hlive⟩,
    ⟨t, reach_of_run _ _ _ ht, fun h => ?_, htable', hlive'⟩, ?_⟩
  · have hsame := h.exactly hpending
    rw [htable, hlive] at hsame
    cases hsame
  · have hsame := h.exactly hpending'
    rw [htable', hlive'] at hsame
    cases hsame
  · obtain ⟨u, hu, hprompt, hfull⟩ := reach_filled maxLen (Nat.le_refl _)
    obtain ⟨v, hv, hphase⟩ := undefined_of_filled (kept_of_reach hu) hprompt hfull
    exact ⟨v, (hu.mono fun _ _ _ => trivial).trans hv, hphase⟩

end ExchangeLabs.Shell.Jobs
