import Mathlib.Algebra.GroupWithZero.Nat
import Mathlib.Data.List.Nodup
import Mathlib.Data.Prod.Basic
import Mathlib.Logic.Function.Basic
import ExchangeLabs.Lib.Run

/-!
# Stopping the HTTP server

The goroutines of the HTTP server and of the proxy: one accepts connections and sends
them on an unbuffered channel, `maxConnection` workers receive them there, and `Stop`
closes three things in turn: the channel `shutdown`, the listener, and the channel of
the connections.  A send that meets a closed channel panics, and it does not matter
whether it began before the close or after.

`Stop` does not wait for the accepting goroutine before it closes the channel on which
this goroutine sends.

## Main definitions

* `Acceptor`, `Worker`, `Stop` — where each goroutine is.
* `Server.step` — one operation on a channel or on the listener.
* `Server.Faithful s` — no send has panicked, and every connection has one handler.
* `Server.ClosesIdle s e` — the step closes the channel only while nothing is sent.

## Main results

* `Server.shutdown_faithful` — **in runs of such steps all is well.**
* `Server.not_shutdown_faithful` — a connection that is accepted just before `Stop`.
-/

namespace ExchangeLabs.HttpServer

/-! ### The goroutines -/

/-- `MAX_CONNECTION`. -/
def maxConnection : ℕ := 10

instance neZeroMaxConnection : NeZero maxConnection := ⟨by decide⟩

/-- The goroutine in `acceptConnections`. -/
inductive Acceptor (Conn : Type)
  /-- It is in `Accept`. -/
  | accepting
  /-- `Accept` has returned an error, and it has not looked at `shutdown` yet. -/
  | failed
  /-- It has the connection, and has not yet got rid of it. -/
  | sending (conn : Conn)
  | returned
  /-- It has sent on a closed channel. -/
  | panicked
  deriving DecidableEq

/-- A goroutine in `worker`. -/
inductive Worker (Conn : Type)
  /-- It receives on the channel of the connections. -/
  | receiving
  | handling (conn : Conn)
  | returned
  deriving DecidableEq

/-- How far the call of `Stop` has got. -/
inductive Stop
  | notCalled
  | closedShutdown
  | closedListener
  /-- All is closed, and it waits for the goroutines. -/
  | waiting
  /-- It has returned; `graceful` if it has seen all goroutines return. -/
  | returned (graceful : Bool)
  deriving DecidableEq

variable {Conn : Type}

structure Server (Conn : Type) where
  acceptor : Acceptor Conn
  workers : Fin maxConnection → Worker Conn
  stop : Stop
  /-- The connections that `Accept` has returned. -/
  accepted : List Conn
  /-- The connections that were passed to the handler of a worker. -/
  handled : List (Fin maxConnection × Conn)

inductive Event (Conn : Type)
  /-- `Accept` returns a connection. -/
  | accept (conn : Conn)
  /-- `Accept` returns an error. -/
  | acceptError
  /-- The accepting goroutine looks at `shutdown`. -/
  | select
  /-- The accepting goroutine sends, and this worker receives. -/
  | send (worker : Fin maxConnection)
  /-- The accepting goroutine sends, or is sending, on the closed channel. -/
  | sendClosed
  /-- The handler returns. -/
  | handled (worker : Fin maxConnection)
  /-- The worker finds the channel closed. -/
  | rangeEnd (worker : Fin maxConnection)
  /-- `close(s.shutdown)`, with which `Stop` begins. -/
  | closeShutdown
  | closeListener
  /-- `close(s.connection)`. -/
  | closeConnection
  | waitDone
  | waitTimeout

namespace Stop

/-- What has been closed. -/
def shutdownClosed : Stop → Bool
  | notCalled => false
  | _ => true

def listenerClosed : Stop → Bool
  | notCalled | closedShutdown => false
  | _ => true

def connectionClosed : Stop → Bool
  | notCalled | closedShutdown | closedListener => false
  | _ => true

end Stop

namespace Server

/-- The server as `Start` leaves it. -/
def start : Server Conn where
  acceptor := .accepting
  workers := fun _ => .receiving
  stop := .notCalled
  accepted := []
  handled := []

/-- The connection that has been accepted and not been passed on. -/
def held (s : Server Conn) : Option Conn :=
  match s.acceptor with
  | .sending conn => some conn
  | _ => none

/-- The process runs: no goroutine has panicked, and `Stop` has not returned. -/
def Running (s : Server Conn) : Prop :=
  s.acceptor ≠ .panicked ∧ ∀ graceful, s.stop ≠ .returned graceful

variable [DecidableEq Conn]

instance (s : Server Conn) : Decidable s.Running :=
  inferInstanceAs (Decidable (_ ∧ ∀ _ : Bool, _))

/-- One step of a process that runs. -/
def operate (s : Server Conn) : Event Conn → Option (Server Conn)
  | .accept conn =>
    -- every connection is another one, and a closed listener returns none
    if s.acceptor = .accepting ∧ s.stop.listenerClosed = false ∧ conn ∉ s.accepted then
      some { s with acceptor := .sending conn, accepted := s.accepted ++ [conn] }
    else none
  | .acceptError => if s.acceptor = .accepting then some { s with acceptor := .failed } else none
  | .select =>
    if s.acceptor = .failed then
      some { s with acceptor := if s.stop.shutdownClosed then .returned else .accepting }
    else none
  | .send worker =>
    match s.acceptor with
    | .sending conn =>
      if s.stop.connectionClosed = false ∧ s.workers worker = .receiving then
        some { s with
          acceptor := .accepting
          workers := Function.update s.workers worker (.handling conn)
          handled := s.handled ++ [(worker, conn)] }
      else none
    | _ => none
  | .sendClosed =>
    match s.acceptor with
    | .sending _ => if s.stop.connectionClosed then some { s with acceptor := .panicked } else none
    | _ => none
  | .handled worker =>
    match s.workers worker with
    | .handling _ => some { s with workers := Function.update s.workers worker .receiving }
    | _ => none
  | .rangeEnd worker =>
    if s.workers worker = .receiving ∧ s.stop.connectionClosed then
      some { s with workers := Function.update s.workers worker .returned }
    else none
  | .closeShutdown => if s.stop = .notCalled then some { s with stop := .closedShutdown } else none
  | .closeListener =>
    if s.stop = .closedShutdown then some { s with stop := .closedListener } else none
  | .closeConnection => if s.stop = .closedListener then some { s with stop := .waiting } else none
  | .waitDone =>
    if s.stop = .waiting ∧ s.acceptor = .returned ∧ ∀ worker, s.workers worker = .returned then
      some { s with stop := .returned true }
    else none
  | .waitTimeout => if s.stop = .waiting then some { s with stop := .returned false } else none

def step (s : Server Conn) (e : Event Conn) : Option (Server Conn) :=
  if s.Running then s.operate e else none

/-! ### What should hold -/

/-- How often the connection was passed to a handler. -/
def passes (s : Server Conn) (conn : Conn) : ℕ := s.handled.countP fun pass => pass.2 = conn

/-- The step is one of a worker, or a send. -/
def OfWorker : Server Conn → Event Conn → Prop
  | _, .send _ | _, .handled _ => True
  | _, _ => False

/-- No goroutine has sent on the closed channel, or is about to.  Every connection that was
accepted has been passed to exactly one handler, or to none yet and it will be passed to the
next worker that is free; what else was passed has not been accepted. -/
structure Faithful (s : Server Conn) : Prop where
  no_panic : s.acceptor ≠ .panicked ∧ (s.stop.connectionClosed = true → s.held = none)
  passed : ∀ conn, s.passes conn = if conn ∈ s.accepted ∧ s.held ≠ some conn then 1 else 0
  delivers : ∀ conn, s.held = some conn →
    ∃ t, ReachWhile step OfWorker s t ∧ t.passes conn = 1 ∧ t.held = none

/-- The channel is only closed while the accepting goroutine does not have a connection. -/
def ClosesIdle (s : Server Conn) : Event Conn → Prop
  | .closeConnection => s.held = none
  | _ => True

instance (s : Server Conn) : (e : Event Conn) → Decidable (ClosesIdle s e)
  | .closeConnection => inferInstanceAs (Decidable (_ = _))
  | .accept _ | .acceptError | .select | .send _ | .sendClosed | .handled _ | .rangeEnd _
  | .closeShutdown | .closeListener | .waitDone | .waitTimeout => inferInstanceAs (Decidable True)

/-! ### The invariant -/

variable {s t : Server Conn}

/-- While the channel is open no worker has returned, and nothing is sent once it is closed. -/
structure Inv (s : Server Conn) : Prop where
  acceptor : s.acceptor ≠ .panicked
  closed : s.stop.connectionClosed = true → s.held = none
  passed : ∀ conn, s.passes conn = if conn ∈ s.accepted ∧ s.held ≠ some conn then 1 else 0
  accepted : ∀ conn, s.held = some conn → conn ∈ s.accepted
  workers : s.stop.connectionClosed = false → ∀ worker, s.workers worker ≠ .returned

theorem inv_start : Inv (start : Server Conn) where
  acceptor := by simp [start]
  closed := fun _ => rfl
  passed := by
    intro conn
    simp [start, passes]
  accepted := fun _ hheld => by cases hheld
  workers := fun _ _ => by simp [start]

theorem connectionClosed_of_listenerClosed {stop : Stop} (h : stop.listenerClosed = false) :
    stop.connectionClosed = false := by
  cases stop <;> first | rfl | cases h

/-- `Accept` returns a connection. -/
theorem Inv.accept (h : Inv s) {conn : Conn} (hacceptor : s.acceptor = .accepting)
    (hopen : s.stop.listenerClosed = false) (hnew : conn ∉ s.accepted) :
    Inv { s with acceptor := .sending conn, accepted := s.accepted ++ [conn] } := by
  have hheld : s.held = none := by simp [held, hacceptor]
  refine ⟨by simp, fun hclosed => ?_, fun other => ?_, fun other hother => ?_, h.workers⟩
  · rw [connectionClosed_of_listenerClosed hopen] at hclosed
    cases hclosed
  · have hpassed := h.passed other
    rw [hheld] at hpassed
    change s.passes other = _
    rw [hpassed]
    by_cases heq : other = conn
    · subst heq
      simp [held, hnew]
    · simp [held, heq, Ne.symm heq]
  · cases hother
    exact List.mem_append_right _ (List.mem_singleton_self conn)

/-- A worker takes the connection. -/
theorem Inv.send (h : Inv s) {conn : Conn} (hacceptor : s.acceptor = .sending conn)
    (worker : Fin maxConnection) :
    Inv { s with
      acceptor := .accepting
      workers := Function.update s.workers worker (.handling conn)
      handled := s.handled ++ [(worker, conn)] } := by
  have hheld : s.held = some conn := by simp [held, hacceptor]
  refine ⟨by simp, fun _ => rfl, fun other => ?_, fun _ hother => (by cases hother),
    fun hopen other => ?_⟩
  · have hpassed := h.passed other
    have hadded : List.countP (fun pass : Fin maxConnection × Conn => decide (pass.2 = other))
        (s.handled ++ [(worker, conn)]) = s.passes other + if conn = other then 1 else 0 := by
      rw [List.countP_append, List.countP_singleton]
      simp [passes]
    change List.countP _ (s.handled ++ [(worker, conn)]) = _
    rw [hadded, hpassed, hheld]
    by_cases heq : conn = other
    · subst heq
      simp [held, h.accepted conn hheld]
    · simp [held, heq]
  · dsimp only
    rw [Function.update_apply]
    split
    · simp
    · exact h.workers hopen other

/-- No connection changes hands. -/
theorem Inv.of_same (h : Inv s) (haccepted : t.accepted = s.accepted)
    (hhandled : t.handled = s.handled) (hheld : t.held = s.held)
    (hacceptor : t.acceptor ≠ .panicked)
    (hclosed : t.stop.connectionClosed = true → t.held = none)
    (hworkers : t.stop.connectionClosed = false → ∀ worker, t.workers worker ≠ .returned) :
    Inv t where
  acceptor := hacceptor
  closed := hclosed
  passed := by
    intro conn
    unfold passes
    rw [hhandled, haccepted, hheld]
    exact h.passed conn
  accepted := by
    rw [hheld, haccepted]
    exact h.accepted
  workers := hworkers

/-- `Stop` goes on, and leaves the channel as it is. -/
theorem Inv.advance (h : Inv s) {stop : Stop}
    (hsame : stop.connectionClosed = s.stop.connectionClosed) : Inv { s with stop := stop } := by
  refine h.of_same rfl rfl rfl h.acceptor (fun hclosed => ?_) fun hopen => ?_
  · exact h.closed (hsame.symm.trans hclosed)
  · exact h.workers (hsame.symm.trans hopen)

/-- **The step lemma.** -/
theorem Inv.of_step (h : Inv s) {e : Event Conn} (hok : s.ClosesIdle e)
    (hstep : s.step e = some t) :
    Inv t := by
  unfold step at hstep
  split at hstep
  swap
  · cases hstep
  cases e with
  | accept conn =>
    dsimp only [operate] at hstep
    split at hstep
    · next hguard =>
      cases hstep
      exact h.accept hguard.1 hguard.2.1 hguard.2.2
    · cases hstep
  | acceptError =>
    dsimp only [operate] at hstep
    split at hstep
    · next hguard =>
      cases hstep
      exact h.of_same rfl rfl (by simp [held, hguard]) (by simp) (fun _ => rfl) h.workers
    · cases hstep
  | select =>
    dsimp only [operate] at hstep
    split at hstep
    · next hguard =>
      cases hstep
      have hheld : s.held = none := by simp [held, hguard]
      cases s.stop.shutdownClosed with
      | true => exact h.of_same rfl rfl hheld.symm (by simp) (fun _ => rfl) h.workers
      | false => exact h.of_same rfl rfl hheld.symm (by simp) (fun _ => rfl) h.workers
    · cases hstep
  | send worker =>
    dsimp only [operate] at hstep
    split at hstep
    · next conn hacceptor =>
      split at hstep
      · cases hstep
        exact h.send hacceptor worker
      · cases hstep
    · cases hstep
  | sendClosed =>
    dsimp only [operate] at hstep
    split at hstep
    · next conn hacceptor =>
      split at hstep
      · next hclosed =>
        -- nothing is held once the channel is closed
        have hheld := h.closed hclosed
        simp [held, hacceptor] at hheld
      · cases hstep
    · cases hstep
  | handled worker =>
    dsimp only [operate] at hstep
    split at hstep
    · cases hstep
      refine h.of_same rfl rfl rfl h.acceptor h.closed fun hopen other => ?_
      dsimp only
      rw [Function.update_apply]
      split
      · simp
      · exact h.workers hopen other
    · cases hstep
  | rangeEnd worker =>
    dsimp only [operate] at hstep
    split at hstep
    · next hguard =>
      cases hstep
      refine h.of_same rfl rfl rfl h.acceptor h.closed fun hopen => ?_
      -- a worker leaves its loop only when the channel is closed
      rw [show s.stop.connectionClosed = false from hopen] at hguard
      cases hguard.2
    · cases hstep
  | closeConnection =>
    dsimp only [operate] at hstep
    split at hstep
    · cases hstep
      exact h.of_same rfl rfl rfl h.acceptor (fun _ => hok) fun hopen => by cases hopen
    · cases hstep
  | closeShutdown | closeListener | waitTimeout =>
    dsimp only [operate] at hstep
    split at hstep
    · next hguard =>
      cases hstep
      exact h.advance (by rw [hguard]; rfl)
    · cases hstep
  | waitDone =>
    dsimp only [operate] at hstep
    split at hstep
    · next hguard =>
      cases hstep
      exact h.advance (by rw [hguard.1]; rfl)
    · cases hstep

theorem step_of_running (h : s.Running) (e : Event Conn) : s.step e = s.operate e := if_pos h

omit [DecidableEq Conn] in
/-- The connection that is held is the one in the send. -/
theorem acceptor_of_held {conn : Conn} (h : s.held = some conn) : s.acceptor = .sending conn := by
  unfold held at h
  split at h
  · next other hacceptor =>
    cases h
    exact hacceptor
  · cases h

/-- A worker that receives takes the connection at once. -/
theorem Inv.delivers_receiving (h : Inv s) {conn : Conn} {worker : Fin maxConnection}
    (hheld : s.held = some conn) (hrunning : s.Running) (hopen : s.stop.connectionClosed = false)
    (hworker : s.workers worker = .receiving) :
    ∃ t, s.step (.send worker) = some t ∧ t.passes conn = 1 ∧ t.held = none := by
  have hacceptor := acceptor_of_held hheld
  have hstep : s.step (.send worker) = some { s with
      acceptor := .accepting
      workers := Function.update s.workers worker (.handling conn)
      handled := s.handled ++ [(worker, conn)] } := by
    rw [step_of_running hrunning]
    dsimp only [operate]
    rw [hacceptor]
    exact if_pos ⟨hopen, hworker⟩
  refine ⟨_, hstep, ?_, rfl⟩
  rw [(h.send hacceptor worker).passed conn]
  exact if_pos ⟨h.accepted conn hheld, by simp [held]⟩

/-- The next worker that is free takes the connection. -/
theorem Inv.delivers (h : Inv s) {conn : Conn} (hheld : s.held = some conn)
    (hrunning : s.Running) :
    ∃ t, ReachWhile step OfWorker s t ∧ t.passes conn = 1 ∧ t.held = none := by
  have hopen : s.stop.connectionClosed = false := by
    cases hclosed : s.stop.connectionClosed with
    | false => rfl
    | true =>
      rw [h.closed hclosed] at hheld
      cases hheld
  cases hworker : s.workers 0 with
  | receiving =>
    obtain ⟨t, hstep, hpassed, hnone⟩ := h.delivers_receiving hheld hrunning hopen hworker
    exact ⟨t, .tail (.send 0) .refl trivial hstep, hpassed, hnone⟩
  | handling other =>
    -- the worker first returns from its handler
    have hfree : s.step (.handled 0) =
        some { s with workers := Function.update s.workers 0 .receiving } := by
      rw [step_of_running hrunning]
      dsimp only [operate]
      rw [hworker]
    have hok : s.ClosesIdle (.handled 0) := trivial
    have h' := h.of_step hok hfree
    obtain ⟨t, hstep, hpassed, hnone⟩ := h'.delivers_receiving hheld hrunning hopen
      (Function.update_self ..)
    exact ⟨t, .tail (.send 0) (.tail (.handled 0) .refl trivial hfree) trivial hstep,
      hpassed, hnone⟩
  | returned => exact absurd hworker (h.workers hopen 0)

theorem Inv.faithful (h : Inv s) : Faithful s where
  no_panic := ⟨h.acceptor, h.closed⟩
  passed := h.passed
  delivers := by
    intro conn hheld
    refine h.delivers hheld ⟨h.acceptor, fun graceful hreturned => ?_⟩
    rw [h.closed (by rw [hreturned]; rfl)] at hheld
    cases hheld

/-- **No send meets a closed channel and every connection gets one handler** in every run in
which `Stop` closes the channel while the accepting goroutine has no connection. -/
theorem shutdown_faithful (h : ReachWhile step ClosesIdle start s) : Faithful s :=
  (h.invariant inv_start fun _ _ _ hinv hok hstep => hinv.of_step hok hstep).faithful

/-- Two connections, and a third one after the listener was closed would not be accepted. -/
def idleRun : List (Event ℕ) :=
  [.accept 0, .send 3, .accept 1, .closeShutdown, .send 7, .closeListener, .acceptError,
    .closeConnection, .select, .handled 3]

theorem faithful_idleRun : ∃ s, run (restrict step ClosesIdle) start idleRun = some s ∧
    s.acceptor = .returned ∧ Faithful s := by
  have hobs : (run (restrict step ClosesIdle) start idleRun).map (·.acceptor) = some .returned := by
    decide +kernel
  obtain ⟨s, hs, hval⟩ := Option.map_eq_some_iff.mp hobs
  exact ⟨s, hs, hval, shutdown_faithful (reachWhile_of_run _ _ _ hs)⟩

/-- A connection is accepted just before `Stop` closes the listener. -/
def lateRun : List (Event ℕ) :=
  [.accept 0, .closeShutdown, .closeListener, .closeConnection]

/-- The connection is sent on the closed channel, and no worker gets it. -/
theorem not_shutdown_faithful : ∃ s t : Server ℕ, Reach step start s ∧ s.step .sendClosed = some t ∧
    t.acceptor = .panicked ∧ t.accepted = [0] ∧ t.handled = [] ∧ ¬ Faithful s ∧ ¬ Faithful t := by
  have hobs : (run step start lateRun).bind (fun s => (s.step .sendClosed).map fun t =>
      decide (s.stop.connectionClosed = true ∧ s.held = some 0 ∧ t.acceptor = .panicked ∧
        t.accepted = [0] ∧ t.handled = [])) = some true := by decide +kernel
  obtain ⟨s, hs, hval⟩ := Option.bind_eq_some_iff.mp hobs
  obtain ⟨t, ht, hval⟩ := Option.map_eq_some_iff.mp hval
  obtain ⟨hclosed, hheld, hpanicked, haccepted, hhandled⟩ := of_decide_eq_true hval
  refine ⟨s, t, reach_of_run _ _ _ hs, ht, hpanicked, haccepted, hhandled, fun hf => ?_,
    fun hf => ?_⟩
  · rw [hf.no_panic.2 hclosed] at hheld
    cases hheld
  · exact hf.no_panic.1 hpanicked

end Server

end ExchangeLabs.HttpServer
