import ExchangeLabs.Lib.Descriptors
import ExchangeLabs.Shell.Parse

/-!
# The pipelines of the shell

How the loop of `main` connects the programs of a command.  It walks the list of programs,
the last one first, and forks a child for each.  The system calls succeed, and the parent
waits for a child before it goes on.

Both the parent and the child call `pipe`, after `fork`: each has a pipe of its own.  The
child writes to its pipe, from which nobody reads, and the parent keeps the read end of the
other one, to which nobody writes, for the next child.  Standard output is redirected when
`command_number` is `0`, which it is not before the end of the loop, and standard input in
every child of a pipeline.

## Main definitions

* `Handle` — what a descriptor can stand for.
* `childFds` — the table of a child when it calls `execvp`.
* `Main`, `turn`, `processLoop` — the loop over the programs.
* `Wired` — the programs are connected as the line says.

## Main results

* `processLoop_launched` — what the programs are connected to.
* `wired_iff` — that is right for a single program without redirections only.
-/

namespace ExchangeLabs.Shell

/-- An open file. -/
inductive Handle
  /-- The standard files of the shell. -/
  | stdin
  | stdout
  | stderr
  /-- A file that has been opened for reading, or for writing. -/
  | input (name : List Char)
  | output (name : List Char)
  | readEnd (pipe : ℕ)
  | writeEnd (pipe : ℕ)
  deriving DecidableEq

/-- A child that calls `execvp`. -/
structure Process where
  pgmlist : Pgm
  stdin : Option Handle
  stdout : Option Handle
  deriving DecidableEq

def stdinFileno : ℕ := 0

def stdoutFileno : ℕ := 1

def isExit (pgmlist : Pgm) : Bool := pgmlist.head? = some "exit".toList

def isCd (pgmlist : Pgm) : Bool := pgmlist.head? = some "cd".toList

/-! ### The loop -/

/-- `pipe(pipefds)`, which is called if there is another program. -/
def pipeIf (next : Bool) (pipe : ℕ) (fds : Fds Handle) : (ℕ × ℕ) × Fds Handle :=
  if next then fds.pipe (.readEnd pipe) (.writeEnd pipe) else ((0, 0), fds)

/-- `open`, `dup2` to a standard descriptor and `close`. -/
def redirect (file : Handle) (fd : ℕ) (fds : Fds Handle) : Fds Handle :=
  let opened := fds.openFd file
  (opened.2.dup2 opened.1 fd).close opened.1

/-- The child, from `fork` to `execvp`: `next` if there is another program behind it in the list,
and `pipe` names the pipe that it makes. -/
def childFds (cmd : Command) (next : Bool) (commandNumber : ℤ) (fdIn pipe : ℕ) (fds : Fds Handle) :
    Fds Handle :=
  let (pipefds, fds) := pipeIf next pipe fds
  let fds := if fdIn ≠ stdinFileno then (fds.dup2 fdIn stdinFileno).close fdIn else fds
  let fds :=
    match cmd.rstdout with
    | some name => if commandNumber = 0 then redirect (.output name) stdoutFileno fds else fds
    | none => fds
  let fds :=
    if next then ((fds.close pipefds.1).dup2 pipefds.2 stdoutFileno).close pipefds.2 else fds
  match cmd.rstdin with
  | some name => if cmd.pgm.tail ≠ [] then redirect (.input name) stdinFileno fds else fds
  | none => fds

/-- The variables of `main` in the loop, the pipes that have been made, and the children. -/
structure Main where
  fds : Fds Handle
  fdIn : ℕ
  commandNumber : ℤ
  pipes : ℕ
  launched : List Process

/-- One turn of the loop that forks. -/
def turn (cmd : Command) (pgmlist : Pgm) (next : Bool) (s : Main) : Main :=
  let child := childFds cmd next s.commandNumber s.fdIn (s.pipes + 1) s.fds
  let (pipefds, fds) := pipeIf next s.pipes s.fds
  let fds := if s.fdIn ≠ stdinFileno then fds.close s.fdIn else fds
  { fds := if next then fds.close pipefds.2 else fds
    fdIn := if next then pipefds.1 else s.fdIn
    commandNumber := s.commandNumber - 1
    pipes := s.pipes + 2
    launched := s.launched ++ [⟨pgmlist, child.get stdinFileno, child.get stdoutFileno⟩] }

/-- The loop `while (p != NULL)`.  `exit` ends the shell, and `cd` is left to the shell itself. -/
def processLoop (cmd : Command) : List Pgm → Main → Main
  | [], s => s
  | pgmlist :: rest, s =>
    if isExit pgmlist then s
    else if isCd pgmlist then processLoop cmd rest s
    else processLoop cmd rest (turn cmd pgmlist (!rest.isEmpty) s)

/-- The command is processed by a shell with these open files, after so many pipes. -/
def process (cmd : Command) (fds : Fds Handle) (pipes : ℕ) : Main :=
  processLoop cmd cmd.pgm ⟨fds, stdinFileno, cmd.pgm.length, pipes, []⟩

/-! ### Connections -/

/-- The programs of a command, in the order of the line, are connected as the line says. -/
structure Wired (cmd : Command) (procs : List Process) : Prop where
  launched : procs.map Process.pgmlist = cmd.pgm.reverse
  first : ∀ p ∈ procs.head?, p.stdin = some ((cmd.rstdin.map Handle.input).getD .stdin)
  last : ∀ p ∈ procs.getLast?, p.stdout = some ((cmd.rstdout.map Handle.output).getD .stdout)
  pipes : procs.IsChain fun p q =>
    ∃ pipe, p.stdout = some (.writeEnd pipe) ∧ q.stdin = some (.readEnd pipe)

/-- The standard files of the shell are open, whatever else is. -/
structure Std (fds : Fds Handle) : Prop where
  stdin : fds.get stdinFileno = some .stdin
  stdout : fds.get stdoutFileno = some .stdout

theorem get_redirect {fds : Fds Handle} {fd : ℕ} {old : Handle} (h : fds.get fd = some old)
    (file : Handle) (fd' : ℕ) :
    (redirect file fd fds).get fd' = if fd' = fd then some file else fds.get fd' := by
  have hfree : fd ≠ (fds.openFd file).1 := Fds.free_ne h
  have hnew : (fds.openFd file).2.get (fds.openFd file).1 = some file := by
    rw [Fds.get_openFd, if_pos rfl]
  have hold : (fds.openFd file).2.get fd = some old := by
    rw [Fds.get_openFd, if_neg hfree, h]
  unfold redirect
  dsimp only
  rw [Fds.get_dup2_close hnew hold, Fds.get_openFd]
  by_cases heq : fd' = fd
  · rw [heq, if_neg hfree, if_pos rfl, if_pos rfl]
  · rw [if_neg heq, if_neg heq]
    by_cases hopened : fd' = (fds.openFd file).1
    · rw [if_pos hopened, hopened]
      exact (Fds.get_free fds).symm
    · rw [if_neg hopened, if_neg hopened]

/-! ### One turn -/

section Turn

variable {fds : Fds Handle} {fdIn : ℕ} {commandNumber : ℤ} {file file' : Handle}

/-- What the child reads, if that is not redirected, is at `fdIn`. -/
structure Ready (fds : Fds Handle) (fdIn : ℕ) : Prop extends Std fds where
  source : fdIn = stdinFileno ∨ ∃ pipe, fds.get fdIn = some (.readEnd pipe)

theorem Ready.ne_stdout (h : Ready fds fdIn) : fdIn ≠ stdoutFileno := by
  rintro rfl
  rcases h.source with heq | ⟨pipe, hpipe⟩
  · cases heq
  · rw [h.stdout] at hpipe
    cases hpipe

/-- What is left of the descriptor after it has been moved to standard input. -/
theorem Ready.moved (h : Ready fds fdIn) :
    let fds' := if fdIn ≠ stdinFileno then (fds.dup2 fdIn stdinFileno).close fdIn else fds
    fds'.get stdinFileno = fds.get fdIn ∧
      ∀ fd ≠ fdIn, fd ≠ stdinFileno → fds'.get fd = fds.get fd := by
  dsimp only
  by_cases hzero : fdIn = stdinFileno
  · rw [if_neg (not_not.mpr hzero), hzero]
    exact ⟨rfl, fun _ _ _ => rfl⟩
  · obtain ⟨pipe, hpipe⟩ := h.source.resolve_left hzero
    rw [if_pos hzero]
    refine ⟨?_, fun fd hne hstdin => ?_⟩
    · rw [Fds.get_dup2_close hpipe h.stdin, if_neg (Ne.symm hzero), if_pos rfl, hpipe]
    · rw [Fds.get_dup2_close hpipe h.stdin, if_neg hne, if_neg hstdin]

theorem Ready.exists_source (h : Ready fds fdIn) : ∃ file, fds.get fdIn = some file := by
  rcases h.source with rfl | ⟨pipe, hpipe⟩
  · exact ⟨_, h.stdin⟩
  · exact ⟨_, hpipe⟩

/-- A pipe is made of descriptors that were not in use. -/
theorem get_pipeIf (h : fds.get fdIn = some file) (next : Bool) (pipe : ℕ) :
    (pipeIf next pipe fds).2.get fdIn = some file := by
  cases next with
  | false => exact h
  | true =>
    obtain ⟨hread, hwrite⟩ := Fds.ne_pipe h (.readEnd pipe) (.writeEnd pipe)
    show (fds.pipe _ _).2.get fdIn = some file
    rw [Fds.get_pipe, if_neg hwrite, if_neg hread, h]

theorem Ready.pipeIf (h : Ready fds fdIn) (next : Bool) (pipe : ℕ) :
    Ready (pipeIf next pipe fds).2 fdIn where
  stdin := get_pipeIf h.stdin next pipe
  stdout := get_pipeIf h.stdout next pipe
  source := h.source.imp_right fun ⟨pipe', hpipe⟩ => ⟨pipe', get_pipeIf hpipe next pipe⟩

/-- Standard output becomes the write end of the pipe that the child has made. -/
theorem get_output {pipefds : ℕ × ℕ} (hwrite : fds.get pipefds.2 = some file)
    (hstdout : fds.get stdoutFileno = some file') (hne : pipefds.1 ≠ pipefds.2)
    (hread : stdoutFileno ≠ pipefds.1) (fd : ℕ) (hfd : fd ≠ pipefds.1 ∧ fd ≠ pipefds.2) :
    (((fds.close pipefds.1).dup2 pipefds.2 stdoutFileno).close pipefds.2).get fd =
      if fd = stdoutFileno then some file else fds.get fd := by
  have hwrite' : (fds.close pipefds.1).get pipefds.2 = some file := by
    rw [Fds.get_close, if_neg (Ne.symm hne), hwrite]
  have hstdout' : (fds.close pipefds.1).get stdoutFileno = some file' := by
    rw [Fds.get_close, if_neg hread, hstdout]
  rw [Fds.get_dup2_close hwrite' hstdout', if_neg hfd.2, Fds.get_close, if_neg hfd.1]

/-- Standard input is redirected in every child of a pipeline. -/
theorem get_input (hstdin : fds.get stdinFileno = some file) (cmd : Command) :
    let fds' := match cmd.rstdin with
      | some name => if cmd.pgm.tail ≠ [] then redirect (.input name) stdinFileno fds else fds
      | none => fds
    fds'.get stdinFileno = some (if cmd.pgm.tail ≠ [] then (cmd.rstdin.map Handle.input).getD file
      else file) ∧ fds'.get stdoutFileno = fds.get stdoutFileno := by
  dsimp only
  cases cmd.rstdin with
  | none => simp [hstdin]
  | some name =>
    dsimp only
    by_cases htail : cmd.pgm.tail ≠ []
    · rw [if_pos htail, if_pos htail, get_redirect hstdin, get_redirect hstdin]
      exact ⟨rfl, rfl⟩
    · rw [if_neg htail, if_neg htail]
      exact ⟨hstdin, rfl⟩

/-- **What a child is connected to** when it calls `execvp`. -/
theorem childFds_get (h : Ready fds fdIn) (hsource : fds.get fdIn = some file)
    (hnumber : commandNumber ≠ 0) (cmd : Command) (next : Bool) (pipe : ℕ) :
    (childFds cmd next commandNumber fdIn pipe fds).get stdinFileno =
        some (if cmd.pgm.tail ≠ [] then (cmd.rstdin.map Handle.input).getD file else file) ∧
      (childFds cmd next commandNumber fdIn pipe fds).get stdoutFileno =
        some (if next then .writeEnd pipe else .stdout) := by
  have hready := h.pipeIf next pipe
  obtain ⟨hstdin, hkeep⟩ := hready.moved
  rw [get_pipeIf hsource] at hstdin
  -- the output is redirected in the child with the number 0 only, which none has
  have hout (fds : Fds Handle) : (match cmd.rstdout with
      | some name => if commandNumber = 0 then redirect (.output name) stdoutFileno fds else fds
      | none => fds) = fds := by
    cases cmd.rstdout with
    | none => rfl
    | some name => exact if_neg hnumber
  unfold childFds
  dsimp only
  rw [hout]
  have hstdout := (hkeep _ (Ne.symm hready.ne_stdout) (by decide)).trans hready.stdout
  cases next with
  | false =>
    simp only [Bool.false_eq_true, if_false]
    have hinput := get_input hstdin cmd
    rw [hstdout] at hinput
    exact hinput
  | true =>
    simp only [if_true]
    have hpipe : ∀ {fd : ℕ} {file : Handle}, fds.get fd = some file →
        fd ≠ (pipeIf true pipe fds).1.1 ∧ fd ≠ (pipeIf true pipe fds).1.2 :=
      fun h => Fds.ne_pipe h _ _
    -- the pipe has new descriptors, and the first ones stay as they are
    have hwrite : (pipeIf true pipe fds).2.get (pipeIf true pipe fds).1.2 =
        some (.writeEnd pipe) := by
      show (fds.pipe _ _).2.get (fds.pipe _ _).1.2 = _
      rw [Fds.get_pipe, if_pos rfl]
    rw [← hkeep _ (hpipe hsource).2.symm (hpipe h.stdin).2.symm] at hwrite
    have hread := Fds.pipe_ne fds (.readEnd pipe) (.writeEnd pipe)
    have houtput := get_output hwrite hstdout hread (hpipe h.stdout).1
    have hinput :=
      get_input (((houtput _ (hpipe h.stdin)).trans (if_neg (by decide))).trans hstdin) cmd
    rw [houtput _ (hpipe h.stdout), if_pos rfl] at hinput
    exact hinput

end Turn

/-- The parent keeps the read end of its pipe for the next child. -/
theorem turn_ready (cmd : Command) (pgmlist : Pgm) {s : Main} (h : Ready s.fds s.fdIn) :
    Ready (turn cmd pgmlist true s).fds (turn cmd pgmlist true s).fdIn ∧
      (turn cmd pgmlist true s).fds.get (turn cmd pgmlist true s).fdIn =
        some (.readEnd s.pipes) := by
  have hpipe : ∀ {fd : ℕ} {file : Handle}, s.fds.get fd = some file →
      fd ≠ (pipeIf true s.pipes s.fds).1.1 ∧ fd ≠ (pipeIf true s.pipes s.fds).1.2 :=
    fun h => Fds.ne_pipe h _ _
  have hne := Fds.pipe_ne s.fds (.readEnd s.pipes) (.writeEnd s.pipes)
  -- the old read end and the write end are closed
  have hkeep : ∀ fd, (fd = s.fdIn → fd = stdinFileno) → fd ≠ (pipeIf true s.pipes s.fds).1.2 →
      (turn cmd pgmlist true s).fds.get fd = (pipeIf true s.pipes s.fds).2.get fd := by
    intro fd hold hwrite
    unfold turn
    simp only [if_true]
    rw [Fds.get_close, if_neg hwrite]
    by_cases hzero : s.fdIn = stdinFileno
    · rw [if_neg (not_not.mpr hzero)]
    · rw [if_pos hzero, Fds.get_close, if_neg fun heq => hzero (heq.symm.trans (hold heq))]
  have hread : (pipeIf true s.pipes s.fds).2.get (pipeIf true s.pipes s.fds).1.1 =
      some (.readEnd s.pipes) := by
    show (s.fds.pipe _ _).2.get (s.fds.pipe _ _).1.1 = _
    rw [Fds.get_pipe, if_neg hne, if_pos rfl]
  obtain ⟨file, hsource⟩ := h.exists_source
  have hnext : (turn cmd pgmlist true s).fds.get (turn cmd pgmlist true s).fdIn =
      some (.readEnd s.pipes) := by
    rw [← hread]
    exact hkeep _ (fun heq => absurd heq.symm (hpipe hsource).1) hne
  refine ⟨⟨⟨?_, ?_⟩, .inr ⟨_, hnext⟩⟩, hnext⟩
  · rw [hkeep _ (fun _ => rfl) (hpipe h.stdin).2]
    exact get_pipeIf h.stdin true s.pipes
  · rw [hkeep _ (fun heq => absurd heq.symm h.ne_stdout) (hpipe h.stdout).2]
    exact get_pipeIf h.stdout true s.pipes

/-! ### The whole loop -/

/-- What the loop connects the programs to that are left: the next child reads from `source`,
and so many pipes have been made. -/
def connections (cmd : Command) : List Pgm → Handle → ℕ → List Process
  | [], _, _ => []
  | pgmlist :: rest, source, pipes =>
    ⟨pgmlist,
      some (if cmd.pgm.tail ≠ [] then (cmd.rstdin.map Handle.input).getD source else source),
        some (if rest.isEmpty then .stdout else .writeEnd (pipes + 1))⟩ ::
      connections cmd rest (.readEnd pipes) (pipes + 2)

/-- **What the programs are connected to.** -/
theorem processLoop_launched (cmd : Command) (pgm : List Pgm) : ∀ (s : Main) (source : Handle),
    Ready s.fds s.fdIn → s.fds.get s.fdIn = some source → (pgm.length : ℤ) ≤ s.commandNumber →
    (∀ pgmlist ∈ pgm, isExit pgmlist = false ∧ isCd pgmlist = false) →
    (processLoop cmd pgm s).launched = s.launched ++ connections cmd pgm source s.pipes := by
  induction pgm with
  | nil =>
    intro s source _ _ _ _
    simp [processLoop, connections]
  | cons pgmlist rest ih =>
    intro s source hready hsource hnumber hbuiltin
    obtain ⟨⟨hexit, hcd⟩, hrest⟩ := List.forall_mem_cons.mp hbuiltin
    rw [List.length_cons] at hnumber
    have hchild := childFds_get hready hsource (show s.commandNumber ≠ 0 by omega) cmd
      (!rest.isEmpty) (s.pipes + 1)
    rw [processLoop, hexit, hcd, if_neg Bool.false_ne_true, if_neg Bool.false_ne_true, connections]
    -- the last program writes to the standard output, the others to a pipe
    cases rest with
    | nil =>
      rw [processLoop, connections, turn]
      dsimp only
      rw [hchild.1, hchild.2]
      rfl
    | cons next rest =>
      obtain ⟨hready', hsource'⟩ := turn_ready cmd pgmlist hready
      have hnumber' : (((next :: rest).length : ℕ) : ℤ) ≤
          (turn cmd pgmlist true s).commandNumber := by
        show _ ≤ s.commandNumber - 1
        omega
      have hlaunched :=
        ih (turn cmd pgmlist true s) (.readEnd s.pipes) hready' hsource' hnumber' hrest
      show (processLoop cmd (next :: rest) (turn cmd pgmlist true s)).launched = _
      rw [hlaunched]
      show (s.launched ++ [⟨pgmlist, (childFds cmd true _ _ _ _).get _,
        (childFds cmd true _ _ _ _).get _⟩]) ++ connections cmd (next :: rest) _ (s.pipes + 2) = _
      have hchild' := hchild
      rw [show (!(next :: rest).isEmpty) = true from rfl] at hchild'
      rw [hchild'.1, hchild'.2, List.append_assoc]
      rfl

theorem process_launched {cmd : Command} {fds : Fds Handle} (hstd : Std fds)
    (hbuiltin : ∀ pgmlist ∈ cmd.pgm, isExit pgmlist = false ∧ isCd pgmlist = false) (pipes : ℕ) :
    (process cmd fds pipes).launched = connections cmd cmd.pgm .stdin pipes :=
  processLoop_launched cmd cmd.pgm ⟨fds, stdinFileno, cmd.pgm.length, pipes, []⟩ .stdin
    { stdin := hstd.stdin, stdout := hstd.stdout, source := .inl rfl } hstd.stdin
    (Int.le_refl _) hbuiltin

example : (process ⟨[["wc".toList], ["ls".toList]], none, none, false⟩
      [some .stdin, some .stdout, some .stderr] 0).launched =
    [⟨["wc".toList], some .stdin, some (.writeEnd 1)⟩,
      ⟨["ls".toList], some (.readEnd 0), some .stdout⟩] := by
  decide

/-- The first program of the line, which the loop comes to last, writes to the standard output of
the shell. -/
theorem connections_getLast (cmd : Command) {pgm : List Pgm} {source : Handle} {pipes : ℕ} :
    ∀ p ∈ (connections cmd pgm source pipes).getLast?, p.stdout = some .stdout := by
  induction pgm generalizing source pipes with
  | nil =>
    intro p hp
    cases hp
  | cons pgmlist rest ih =>
    intro p hp
    cases rest with
    | nil =>
      cases hp
      rfl
    | cons next rest =>
      rw [connections, connections, List.getLast?_cons_cons] at hp
      exact ih p hp

theorem length_connections (cmd : Command) (pgm : List Pgm) (source : Handle) (pipes : ℕ) :
    (connections cmd pgm source pipes).length = pgm.length := by
  induction pgm generalizing source pipes with
  | nil => rfl
  | cons pgmlist rest ih => rw [connections, List.length_cons, ih, List.length_cons]

/-- A single program has the standard input and output of the shell, whatever the line says. -/
theorem wired_single {cmd : Command} {pgmlist : Pgm} (hcmd : cmd.pgm = [pgmlist]) (pipes : ℕ) :
    Wired cmd (connections cmd cmd.pgm .stdin pipes).reverse ↔
      cmd.rstdin = none ∧ cmd.rstdout = none := by
  have htail : ¬ cmd.pgm.tail ≠ [] := by simp [hcmd]
  rw [hcmd, connections, connections, if_neg htail, List.reverse_singleton]
  constructor
  · intro h
    have hfirst := h.first _ rfl
    have hlast := h.last _ rfl
    constructor
    · cases hstdin : cmd.rstdin with
      | none => rfl
      | some name =>
        rw [hstdin] at hfirst
        cases hfirst
    · cases hstdout : cmd.rstdout with
      | none => rfl
      | some name =>
        rw [hstdout] at hlast
        cases hlast
  · rintro ⟨hstdin, hstdout⟩
    refine ⟨by rw [hcmd]; rfl, ?_, ?_, .singleton _⟩
    · rintro p ⟨⟩
      rw [hstdin]
      rfl
    · rintro p ⟨⟩
      rw [hstdout]
      rfl

/-- The first of several programs does not write to a pipe. -/
theorem not_wired_connections {cmd : Command} {pgmlist next : Pgm} {rest : List Pgm}
    (hcmd : cmd.pgm = pgmlist :: next :: rest) (pipes : ℕ) :
    ¬ Wired cmd (connections cmd cmd.pgm .stdin pipes).reverse := by
  intro h
  have hlength : (connections cmd cmd.pgm .stdin pipes).reverse.length = rest.length + 2 := by
    rw [List.length_reverse, length_connections, hcmd]
    rfl
  match hprocs : (connections cmd cmd.pgm .stdin pipes).reverse with
  | [] => simp [hprocs] at hlength
  | [_] => simp [hprocs] at hlength
  | p :: q :: procs =>
    have hpipes := h.pipes
    rw [hprocs] at hpipes
    obtain ⟨pipe, hpipe, -⟩ := (List.isChain_cons_cons.mp hpipes).1
    have hlast : p ∈ (connections cmd cmd.pgm .stdin pipes).getLast? := by
      rw [← List.head?_reverse, hprocs]
      rfl
    rw [connections_getLast cmd p hlast] at hpipe
    cases hpipe

/-- **Which commands are connected as the line says**: single programs without redirections. -/
theorem wired_iff {stale : ℕ → List Char} {line : List Char} {cmd : Command}
    (hparse : parse stale line = .ok cmd) (_ : cmd.background = false)
    (hbuiltin : ∀ pgmlist ∈ cmd.pgm, isExit pgmlist = false ∧ isCd pgmlist = false)
    {fds : Fds Handle} (hstd : Std fds) (pipes : ℕ) :
    Wired cmd (process cmd fds pipes).launched.reverse ↔
      cmd.pgm.length = 1 ∧ cmd.rstdin = none ∧ cmd.rstdout = none := by
  rw [process_launched hstd hbuiltin]
  obtain ⟨pgmlist, rest, hcmd⟩ := List.exists_cons_of_ne_nil (parse_pgm hparse).1
  cases rest with
  | nil =>
    rw [wired_single hcmd pipes, hcmd]
    simp
  | cons next rest =>
    have hlength : cmd.pgm.length ≠ 1 := by simp [hcmd]
    constructor
    · intro h
      exact absurd h (not_wired_connections hcmd pipes)
    · intro h
      exact absurd h.1 hlength

theorem wired_iff_ls :
    Wired ⟨[["ls".toList]], none, none, false⟩
      (process ⟨[["ls".toList]], none, none, false⟩ [some .stdin, some .stdout, some .stderr]
        0).launched.reverse := by
  have hparse : parse (fun _ => []) "ls".toList = .ok ⟨[["ls".toList]], none, none, false⟩ := by
    decide
  exact (wired_iff hparse rfl (by decide) ⟨rfl, rfl⟩ 0).mpr ⟨rfl, rfl, rfl⟩

/-- **Two programs and a pipe**: `ls` writes to the standard output of the shell, and `wc` writes to
a pipe; and a single program is not redirected. -/
theorem not_wired :
    (∃ cmd, parse (fun _ => []) "ls | wc".toList = .ok cmd ∧
      ¬ Wired cmd
        (process cmd [some .stdin, some .stdout, some .stderr] 0).launched.reverse) ∧
    ∃ cmd, parse (fun _ => []) "ls > out".toList = .ok cmd ∧
      ¬ Wired cmd
        (process cmd [some .stdin, some .stdout, some .stderr] 0).launched.reverse := by
  refine ⟨⟨⟨[["wc".toList], ["ls".toList]], none, none, false⟩, by decide, fun h => ?_⟩,
    ⟨⟨[["ls".toList]], none, some "out".toList, false⟩, by decide, fun h => ?_⟩⟩
  · have hlast := h.last ⟨["wc".toList], some .stdin, some (.writeEnd 1)⟩ rfl
    cases hlast
  · have hlast := h.last ⟨["ls".toList], some .stdin, some .stdout⟩ rfl
    cases hlast

end ExchangeLabs.Shell
