import ExchangeLabs.Lib.Census
import ExchangeLabs.MapReduce.Ready

/-!
# The workers of the distributed version

The coordinator with its workers as processes: a worker is started once under an address
of its own, calls `GetTask` again and again, works on what it is handed in between, sends
health checks all the time, and may crash.  A call of `GetTask` that waits goes on in the
coordinator even when its caller has crashed.

## Main definitions

* `Control`, `Fleet` — what each worker is doing, beside the coordinator.
* `Fleet.step` — one step of a worker, of the coordinator or of time.
* `Fleet.Continues f e` — the step is not of a worker that starts or crashes.
* `Fleet.Orderly f` — the invariant: what the calls that wait can rely on.

## Main results

* `Fleet.orderly_of_reach` — **the invariant holds** in runs in which no report finds its task
  completed and no map task is opened again while a worker waits for a reduce task.
-/

namespace ExchangeLabs.MapReduce.Distributed

/-! ### The workers -/

/-- What a worker is doing. -/
inductive Control
  /-- It has not been started. -/
  | absent
  /-- Its next call is `GetTask`. -/
  | calling
  /-- Its call of `GetTask` waits. -/
  | waiting
  | working (handout : Handout)
  | crashed
  deriving DecidableEq

/-- The task that the worker is working on. -/
def Control.handout : Control → Option Handout
  | .working handout => some handout
  | _ => none

/-- How many calls of a worker that does this can wait. -/
def Control.Awaits : Control → ℕ → Prop
  | .waiting, n => n = 1
  | .crashed, n => n ≤ 1
  | .absent, n | .calling, n | .working _, n => n = 0

/-- The coordinator with its clients, and what the worker at each address is doing. -/
structure Fleet where
  system : System
  control : String → Control

namespace Fleet

inductive Event
  /-- A worker is started. -/
  | start (worker : String)
  | crash (worker : String)
  | tick (d : ℕ)
  | getTask (worker : String) (picks : Picks)
  | resume (i : ℕ) (picks : Picks)
  /-- A worker has done its task and reports it. -/
  | report (worker : String)
  /-- A worker could not fetch the input of its reduce task, and leaves it. -/
  | giveUp (worker : String)
  | healthCheck (worker : String)
  /-- A worker has found another one unreachable. -/
  | reportFailure (worker failedWorker : String)
  | reschedule (delay : String → ℕ)
  | monitor (delay : String → ℕ)
  | done

def make (files : List String) (nReduce : ℕ) : Fleet where
  system := System.make files nReduce
  control := fun _ => .absent

/-- The worker has been started and has not crashed. -/
def Live (f : Fleet) (worker : String) : Prop :=
  f.control worker ≠ .absent ∧ f.control worker ≠ .crashed

instance (f : Fleet) (worker : String) : Decidable (f.Live worker) :=
  inferInstanceAs (Decidable (_ ∧ _))

/-- What the caller of `GetTask` does after a step in which its call has run. -/
def controlAfter (worker : String) (s : System) : Control :=
  match s.answer with
  | some (_, .ok reply) => .working (.ofReply worker reply)
  | some (_, .error _) => .calling
  | none => .waiting

/-- A step of the coordinator that concerns no worker. -/
def coordinate (f : Fleet) (e : Distributed.Event) : Option Fleet :=
  (f.system.step e).map fun s => { f with system := s }

/-- A step in which the call of a worker runs. -/
def serve (f : Fleet) (worker : String) (e : Distributed.Event) : Option Fleet :=
  (f.system.step e).map fun s =>
    { system := s, control := Function.update f.control worker (controlAfter worker s) }

def step (f : Fleet) : Event → Option Fleet
  | .start worker =>
    -- a worker without an address returns at once
    if f.control worker = .absent ∧ worker ≠ "" then
      some { f with control := Function.update f.control worker .calling }
    else none
  | .crash worker =>
    if f.Live worker then some { f with control := Function.update f.control worker .crashed }
    else none
  | .tick d => f.coordinate (.tick d)
  | .getTask worker picks =>
    if f.control worker = .calling then f.serve worker (.getTask worker picks) else none
  | .resume i picks => do
    let call ← f.system.waiting[i]?
    if f.control call.workerAddress = .waiting then f.serve call.workerAddress (.resume i picks)
    else f.coordinate (.resume i picks)
  | .report worker =>
    match f.control worker with
    | .working handout =>
      (f.system.step (.report handout)).map fun s =>
        { system := s, control := Function.update f.control worker .calling }
    | _ => none
  | .giveUp worker =>
    match f.control worker with
    | .working handout =>
      if handout.type = .map then none
      else some { f with control := Function.update f.control worker .calling }
    | _ => none
  | .healthCheck worker => if f.Live worker then f.coordinate (.healthCheck worker) else none
  | .reportFailure worker failedWorker =>
    -- `FetchData` skips an empty address
    if f.Live worker ∧ failedWorker ≠ "" then f.coordinate (.reportFailure failedWorker) else none
  | .reschedule delay => f.coordinate (.reschedule delay)
  | .monitor delay => f.coordinate (.monitor delay)
  | .done => f.coordinate .done

/-- The step is one of time, of `Rescheduler`, of `HealthMonitor` or of a live worker. -/
def Continues (f : Fleet) : Event → Prop
  | .start _ | .crash _ | .done => False
  | .resume i _ => ∀ call ∈ f.system.waiting[i]?, f.Live call.workerAddress
  | _ => True

/-- The worker waits for an answer of `GetTask`, or `GetTask` is what it calls next. -/
def Seeking (f : Fleet) (worker : String) : Prop :=
  f.control worker = .calling ∨ f.control worker = .waiting

/-- The worker has been handed a map or a reduce task. -/
def Handed (f : Fleet) (worker : String) : Prop :=
  ∃ handout, f.control worker = .working handout ∧ handout.type ≠ .wait

/-- **Nobody is stuck**: while `Done` is false, a worker that seeks a task can still be handed one,
without another worker being started. -/
def NotStuck (f : Fleet) : Prop :=
  f.system.coordinator.done.1 = false → ∀ worker, f.Seeking worker →
    ∃ f', ReachWhile step Continues f f' ∧ f'.Handed worker

/-! ### What the calls that wait can rely on -/

/-- How many calls of the worker wait. -/
def callsOf (worker : String) (waiting : List Call) : ℕ :=
  census (fun call => if call.workerAddress = worker then 1 else 0) waiting

theorem callsOf_broadcast (worker : String) (waiting : List Call) :
    callsOf worker (System.broadcast waiting) = callsOf worker waiting := by
  unfold callsOf census System.broadcast
  rw [List.map_map]
  rfl

/-- A live worker waits for a reduce task. -/
def AwaitsReduce (f : Fleet) : Prop :=
  ∃ call ∈ f.system.waiting, call.loop = .reduce ∧ f.control call.workerAddress = .waiting

instance (f : Fleet) : Decidable f.AwaitsReduce :=
  inferInstanceAs (Decidable (∃ call ∈ f.system.waiting, _))

/-- **The invariant**: the coordinator's part, one call for each worker that waits, and no live
worker that waits for a reduce task while a map task remains. -/
structure Orderly (f : Fleet) : Prop where
  ready : f.system.Ready
  calls : ∀ worker, (f.control worker).Awaits (callsOf worker f.system.waiting)
  reduce : f.AwaitsReduce → f.system.coordinator.mapRemaining = 0

/-- The step is of neither kind that goes wrong: a report that finds its task completed, and one
that takes a completed map task back while a live worker waits for a reduce task. -/
def InOrder (f : Fleet) : Event → Prop
  | .report worker =>
    ∀ handout ∈ (f.control worker).handout, f.system.coordinator.FirstReport handout.args
  | .reportFailure _ failedWorker => f.AwaitsReduce →
    ¬ f.system.Reopens (.reportFailure failedWorker)
  | .monitor delay => f.AwaitsReduce → ¬ f.system.Reopens (.monitor delay)
  | _ => True

instance (f : Fleet) : (e : Event) → Decidable (InOrder f e)
  | .report _ => inferInstanceAs (Decidable (∀ handout ∈ _, _))
  | .reportFailure .. | .monitor _ => inferInstanceAs (Decidable (_ → _))
  | .start _ | .crash _ | .tick _ | .getTask .. | .resume .. | .giveUp _ | .healthCheck _
  | .reschedule _ | .done => inferInstanceAs (Decidable True)

variable {f f' : Fleet}

theorem orderly_make {files : List String} (hfiles : files.Nodup) (hnames : "" ∉ files)
    (nReduce : ℕ) : Orderly (make files nReduce) where
  ready := System.ready_make hfiles hnames nReduce
  calls := fun _ => rfl
  reduce := by
    rintro ⟨call, hcall, -⟩
    cases hcall

/-- The worker that waits has a call. -/
theorem Orderly.exists_call (h : Orderly f) {worker : String} (hw : f.control worker = .waiting) :
    ∃ (i : ℕ) (call : Call), f.system.waiting[i]? = some call ∧ call.workerAddress = worker := by
  have hcalls := h.calls worker
  rw [hw] at hcalls
  obtain ⟨i, call, hi, hpos⟩ := exists_of_census_pos (hcalls.symm ▸ Nat.one_pos)
  refine ⟨i, call, hi, ?_⟩
  by_contra hne
  rw [if_neg hne] at hpos
  cases hpos

/-- The caller of a call that waits does wait, or has crashed. -/
theorem Orderly.caller (h : Orderly f) {i : ℕ} {call : Call}
    (hi : f.system.waiting[i]? = some call) :
    f.control call.workerAddress = .waiting ∨ f.control call.workerAddress = .crashed := by
  have hpos := le_census (fun c : Call => if c.workerAddress = call.workerAddress then 1 else 0) hi
  have hcalls := h.calls call.workerAddress
  rw [if_pos rfl] at hpos
  unfold callsOf at hcalls
  cases hcontrol : f.control call.workerAddress with
  | waiting => exact .inl rfl
  | crashed => exact .inr rfl
  | absent | calling | working =>
    rw [hcontrol] at hcalls
    dsimp only [Control.Awaits] at hcalls
    omega

/-- A step of the coordinator in which no call returns. -/
theorem Orderly.coordinate (h : Orderly f) {e : Distributed.Event} {t : System}
    (hstep : f.system.step e = some t) (ht : t.Ready)
    (hget : ∀ worker picks, e ≠ .getTask worker picks) (hresume : ∀ i picks, e ≠ .resume i picks)
    (hno : f.AwaitsReduce → ¬ f.system.Reopens e) : Orderly { f with system := t } where
  ready := ht
  calls := by
    intro worker
    rcases System.waiting_of_step hget hresume hstep with heq | heq <;> dsimp only <;> rw [heq]
    · exact h.calls worker
    · rw [callsOf_broadcast]
      exact h.calls worker
  reduce := by
    rintro ⟨call, hcall, hloop, hcontrol⟩
    have hawaits : f.AwaitsReduce := by
      rcases System.waiting_of_step hget hresume hstep with heq | heq <;> dsimp only at hcall <;>
        rw [heq] at hcall
      · exact ⟨call, hcall, hloop, hcontrol⟩
      · obtain ⟨old, hold, rfl⟩ := List.mem_map.mp hcall
        exact ⟨old, hold, hloop, hcontrol⟩
    have hle := System.mapRemaining_of_step (hno hawaits) hstep
    rw [h.reduce hawaits] at hle
    exact Int.le_antisymm hle ht.map.nonneg

/-- A worker turns to something else, and no call returns or begins to wait. -/
theorem Orderly.turn (h : Orderly f) {worker : String} {control : Control}
    (hcalls : control.Awaits (callsOf worker f.system.waiting)) (hne : control ≠ .waiting) :
    Orderly { f with control := Function.update f.control worker control } where
  ready := h.ready
  calls := by
    intro other
    dsimp only
    by_cases heq : other = worker
    · subst heq
      rwa [Function.update_self]
    · rw [Function.update_of_ne heq]
      exact h.calls other
  reduce := by
    rintro ⟨call, hcall, hloop, hcontrol⟩
    dsimp only at hcontrol
    by_cases heq : call.workerAddress = worker
    · rw [heq, Function.update_self] at hcontrol
      exact absurd hcontrol hne
    · rw [Function.update_of_ne heq] at hcontrol
      exact h.reduce ⟨call, hcall, hloop, hcontrol⟩

section Settle

variable {s : System} {worker other : String} {locations : List String} {c : Coordinator}
  {p : Progress}

theorem callsOf_settle_of_ne (h : worker ≠ other) :
    callsOf other (s.settle worker locations (c, p)).waiting = callsOf other s.waiting := by
  cases p with
  | answered reply => rfl
  | blocked loop =>
    refine (census_concat ..).trans ?_
    rw [if_neg h]
    rfl

theorem callsOf_settle_blocked (loop : Loop) :
    callsOf worker (s.settle worker locations (c, .blocked loop)).waiting =
      callsOf worker s.waiting + 1 := by
  refine (census_concat ..).trans ?_
  rw [if_pos rfl]
  rfl

/-- A call that waits is an old one, or the one that has run. -/
theorem mem_settle {call : Call} (h : call ∈ (s.settle worker locations (c, p)).waiting) :
    call ∈ s.waiting ∨ (call.workerAddress = worker ∧ p = .blocked call.loop) := by
  cases p with
  | answered reply => exact .inl h
  | blocked loop =>
    rcases List.mem_append.mp h with hold | hnew
    · exact .inl hold
    · rw [List.mem_singleton.mp hnew]
      exact .inr ⟨rfl, rfl⟩

/-- A call of the worker has run, beside the calls of the others: it has returned, or waits. -/
theorem orderly_settle {control : String → Control}
    (hready : (s.settle worker locations (c, p)).Ready)
    (hcalls : ∀ other, worker ≠ other → (control other).Awaits (callsOf other s.waiting))
    (hown : callsOf worker s.waiting = 0)
    (hreduce : ∀ call ∈ s.waiting, call.loop = .reduce → control call.workerAddress = .waiting →
      c.mapRemaining = 0)
    (hp : p.Reduces → c.mapRemaining = 0) :
    Orderly { system := s.settle worker locations (c, p),
              control := Function.update control worker
                (controlAfter worker (s.settle worker locations (c, p))) } where
  ready := hready
  calls := by
    intro other
    dsimp only
    by_cases heq : worker = other
    · subst heq
      rw [Function.update_self]
      rcases p with (message | reply) | loop
      · exact hown
      · exact hown
      · rw [callsOf_settle_blocked, hown]
        rfl
    · rw [Function.update_of_ne (Ne.symm heq), callsOf_settle_of_ne heq]
      exact hcalls other heq
  reduce := by
    rintro ⟨call, hcall, hloop, hcontrol⟩
    dsimp only at hcontrol ⊢
    rw [System.coordinator_settle]
    rcases mem_settle hcall with hold | ⟨-, hblocked⟩
    · -- none of the old calls is of this worker
      have hne : call.workerAddress ≠ worker := by
        intro heq
        obtain ⟨i, hi⟩ := List.mem_iff_getElem?.mp hold
        have hle := le_census (fun c : Call => if c.workerAddress = worker then 1 else 0) hi
        rw [if_pos heq, show census _ s.waiting = 0 from hown] at hle
        cases hle
      rw [Function.update_of_ne hne] at hcontrol
      exact hreduce call hold hloop hcontrol
    · exact hp (hblocked.symm ▸ hloop)

/-- A call goes on that waits. -/
theorem callsOf_eraseIdx {waiting : List Call} {i : ℕ} {call : Call} (hi : waiting[i]? = some call)
    (other : String) :
    callsOf other (waiting.eraseIdx i) + (if call.workerAddress = other then 1 else 0) =
      callsOf other waiting :=
  census_eraseIdx (fun c : Call => if c.workerAddress = other then 1 else 0) hi

/-- The call of a worker that has crashed goes on. -/
theorem Orderly.settle_crashed (h : Orderly f) {i : ℕ} {call : Call}
    (hi : f.system.waiting[i]? = some call) (hcrashed : f.control call.workerAddress = .crashed)
    (hs : s = { f.system with waiting := f.system.waiting.eraseIdx i })
    (hready : (s.settle call.workerAddress locations (c, p)).Ready)
    (hremaining : c.mapRemaining = f.system.coordinator.mapRemaining) :
    Orderly { f with system := s.settle call.workerAddress locations (c, p) } where
  ready := hready
  calls := by
    intro other
    have hold := h.calls other
    have herase := callsOf_eraseIdx hi other
    rw [show f.system.waiting.eraseIdx i = s.waiting by rw [hs]] at herase
    dsimp only
    by_cases heq : call.workerAddress = other
    · subst heq
      rw [if_pos rfl] at herase
      rw [hcrashed] at hold ⊢
      change _ ≤ 1 at hold ⊢
      cases p with
      | answered reply =>
        change callsOf _ s.waiting ≤ 1
        omega
      | blocked loop =>
        rw [callsOf_settle_blocked]
        omega
    · rw [if_neg heq, Nat.add_zero] at herase
      rw [callsOf_settle_of_ne heq, herase]
      exact hold
  reduce := by
    rintro ⟨call', hcall', hloop, hcontrol⟩
    dsimp only at hcontrol ⊢
    rw [System.coordinator_settle, hremaining]
    rcases mem_settle hcall' with hold | ⟨heq, -⟩
    · subst hs
      exact h.reduce ⟨call', (List.eraseIdx_sublist ..).mem hold, hloop, hcontrol⟩
    · rw [heq, hcrashed] at hcontrol
      cases hcontrol

end Settle

/-! ### The step lemma -/

/-- A call of `GetTask` by a worker that was not waiting. -/
theorem Orderly.getTask (h : Orderly f) {worker : String} {picks : Picks}
    (hw : f.control worker = .calling)
    (hstep : f.serve worker (.getTask worker picks) = some f') : Orderly f' := by
  obtain ⟨t, ht, rfl⟩ := Option.map_eq_some_iff.mp hstep
  have hready := h.ready.of_step ht trivial
  obtain ⟨⟨c, p⟩, hget, rfl⟩ := Option.map_eq_some_iff.mp ht
  obtain ⟨-, hremaining, -, hzero⟩ := Coordinator.getTask_spec hget
  have hown := h.calls worker
  rw [hw] at hown
  refine orderly_settle hready (fun other _ => h.calls other) hown
    (fun call hcall hloop hcontrol => ?_) fun hp => ?_
  · exact hremaining.trans (h.reduce ⟨call, hcall, hloop, hcontrol⟩)
  · exact hremaining.trans (hzero hp)

/-- A call that waited goes on. -/
theorem Orderly.resume (h : Orderly f) {i : ℕ} {picks : Picks} {call : Call}
    (hi : f.system.waiting[i]? = some call)
    (hstep : (if f.control call.workerAddress = .waiting then
      f.serve call.workerAddress (.resume i picks) else f.coordinate (.resume i picks)) = some f') :
    Orderly f' := by
  have hsystem : ∃ t, f.system.step (.resume i picks) = some t ∧
      f' = { system := t,
             control := if f.control call.workerAddress = .waiting then
               Function.update f.control call.workerAddress (controlAfter call.workerAddress t)
               else f.control } := by
    split at hstep
    · next hw =>
      obtain ⟨t, ht, rfl⟩ := Option.map_eq_some_iff.mp hstep
      exact ⟨t, ht, by rw [if_pos hw]⟩
    · next hw =>
      obtain ⟨t, ht, rfl⟩ := Option.map_eq_some_iff.mp hstep
      exact ⟨t, ht, by rw [if_neg hw]⟩
  obtain ⟨t, ht, rfl⟩ := hsystem
  have hready := h.ready.of_step ht trivial
  obtain ⟨call', c, p, hi', hresume, rfl⟩ := System.resume_cases ht
  rw [hi] at hi'
  cases hi'
  obtain ⟨-, hremaining, -, hzero⟩ := Coordinator.resume_spec hresume
  rcases h.caller hi with hw | hw
  · rw [if_pos hw]
    have hown := h.calls call.workerAddress
    rw [hw] at hown
    have herase := callsOf_eraseIdx hi call.workerAddress
    rw [if_pos rfl] at herase
    refine orderly_settle hready (fun other hne => ?_) ?_
      (fun call' hcall' hloop hcontrol => ?_) fun hp => ?_
    · have hother := callsOf_eraseIdx hi other
      rw [if_neg hne, Nat.add_zero] at hother
      dsimp only
      rw [hother]
      exact h.calls other
    · change callsOf _ f.system.waiting = 1 at hown
      dsimp only
      omega
    · exact hremaining.trans
        (h.reduce ⟨call', (List.eraseIdx_sublist ..).mem hcall', hloop, hcontrol⟩)
    · cases hloop : call.loop with
      | map => exact hremaining.trans (hzero hp hloop)
      | reduce =>
        exact hremaining.trans (h.reduce ⟨call, List.mem_of_getElem? hi, hloop, hw⟩)
  · rw [if_neg (by rw [hw]; decide)]
    exact h.settle_crashed hi hw rfl hready hremaining

/-- **The step lemma.** -/
theorem Orderly.of_step (h : Orderly f) {e : Event} (hstep : f.step e = some f')
    (hok : f.InOrder e) : Orderly f' := by
  -- a step that the coordinator makes by itself
  have hcoordinate : ∀ {e : Distributed.Event}, f.coordinate e = some f' →
      (∀ worker picks, e ≠ .getTask worker picks) → (∀ i picks, e ≠ .resume i picks) →
      System.NoSecondReport f.system e → (f.AwaitsReduce → ¬ f.system.Reopens e) →
      Orderly f' := by
    intro e hstep hget hresume hsecond hno
    obtain ⟨t, ht, rfl⟩ := Option.map_eq_some_iff.mp hstep
    exact h.coordinate ht (h.ready.of_step ht hsecond) hget hresume hno
  cases e with
  | start worker =>
    dsimp only [step] at hstep
    split at hstep
    · next hw =>
      cases hstep
      have hcalls := h.calls worker
      rw [hw.1] at hcalls
      exact h.turn hcalls (by simp)
    · cases hstep
  | crash worker =>
    dsimp only [step] at hstep
    split at hstep
    · cases hstep
      have hcalls := h.calls worker
      refine h.turn ?_ (by simp)
      cases hw : f.control worker <;> rw [hw] at hcalls <;>
        dsimp only [Control.Awaits] at hcalls ⊢ <;> omega
    · cases hstep
  | getTask worker picks =>
    dsimp only [step] at hstep
    split at hstep
    · next hw => exact h.getTask hw hstep
    · cases hstep
  | resume i picks =>
    obtain ⟨call, hi, hrun⟩ := Option.bind_eq_some_iff.mp hstep
    exact h.resume hi hrun
  | report worker =>
    dsimp only [step] at hstep
    split at hstep
    · next handout hw =>
      obtain ⟨t, ht, rfl⟩ := Option.map_eq_some_iff.mp hstep
      have hfirst : f.system.coordinator.FirstReport handout.args :=
        hok handout (by rw [hw]; rfl)
      have hcalls := h.calls worker
      have hmid := h.coordinate ht (h.ready.of_step ht hfirst) (by simp) (by simp) fun _ hno => hno
      have hcalls' := hmid.calls worker
      dsimp only at hcalls'
      rw [hw] at hcalls'
      exact hmid.turn hcalls' (by simp)
    · cases hstep
  | giveUp worker =>
    dsimp only [step] at hstep
    split at hstep
    · next handout hw =>
      split at hstep
      · cases hstep
      · cases hstep
        have hcalls := h.calls worker
        rw [hw] at hcalls
        exact h.turn hcalls (by simp)
    · cases hstep
  | healthCheck worker =>
    dsimp only [step] at hstep
    split at hstep
    · exact hcoordinate hstep (by simp) (by simp) trivial fun _ hno => hno
    · cases hstep
  | reportFailure worker failedWorker =>
    dsimp only [step] at hstep
    split at hstep
    · exact hcoordinate hstep (by simp) (by simp) trivial hok
    · cases hstep
  | monitor delay => exact hcoordinate hstep (by simp) (by simp) trivial hok
  | tick | reschedule | done =>
    exact hcoordinate hstep (by simp) (by simp) trivial fun _ hno => hno

/-- **The invariant holds in every state** that is reached by such steps. -/
theorem orderly_of_reach {files : List String} (hfiles : files.Nodup) (hnames : "" ∉ files)
    {nReduce : ℕ} (h : ReachWhile step InOrder (make files nReduce) f) : Orderly f :=
  h.invariant (orderly_make hfiles hnames nReduce) fun _ _ _ hinv hok hstep =>
    hinv.of_step hstep hok

end Fleet

end ExchangeLabs.MapReduce.Distributed
