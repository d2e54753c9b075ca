import Mathlib.Logic.Basic
import ExchangeLabs.EchoServer.Connection
import ExchangeLabs.Lib.Run

/-!
# The select loop of the echo server

One pass of the loop in `main` makes the two descriptor sets from the vector of
connections, waits in `select`, accepts at most one connection and appends it to the
vector, and then goes through the vector with an iterator: each connection may receive,
may send, and is erased if it was closed.

What the operating system knows of a connection is kept beside the server: which
descriptor it has, and the bytes that `recv` and `send` have moved.

## Main definitions

* `Pass` — a pass through the vector, with what it has looked at.
* `Server.step` — one operation of `main`.
* `Server.Faithful s` — every connection gets back what it has sent, nothing else happens
  to its data, and the pass looks at every connection once.

## Main results

* `Server.echo_faithful` — **it holds at every moment of every run.**
-/

namespace ExchangeLabs.EchoServer

/-! ### The server -/

/-- A pass through the vector. -/
structure Pass where
  /-- What `select` has left in the two sets. -/
  readfds : List ℤ
  writefds : List ℤ
  /-- The position of the iterator. -/
  it : ℕ
  /-- The descriptors of the vector when the pass began. -/
  entered : List ℤ
  /-- The descriptors that the pass is done with. -/
  visited : List ℤ
  deriving DecidableEq

/-- What `main` does next. -/
inductive Phase
  /-- It makes the two sets and calls `select`. -/
  | select
  /-- It looks whether the listening socket is in `readfds`. -/
  | accept (readfds writefds : List ℤ)
  /-- It looks at the next connection, and whether it is readable. -/
  | recv (pass : Pass)
  /-- It looks whether the connection is writable. -/
  | send (pass : Pass) (furtherProcessing : Bool)
  /-- It erases the connection or goes to the next one. -/
  | advance (pass : Pass) (furtherProcessing : Bool)
  | returned
  /-- An assertion has failed, or a byte was written behind a buffer. -/
  | aborted
  deriving DecidableEq

/-- The pass that `main` is in. -/
def Phase.pass : Phase → Option Pass
  | .recv pass | .send pass _ | .advance pass _ => some pass
  | _ => none

/-- The loop over the connections begins. -/
def Phase.enter (readfds writefds : List ℤ) (connections : List ConnectionData) : Phase :=
  .recv
    { readfds := readfds
      writefds := writefds
      it := 0
      entered := connections.map ConnectionData.sock
      visited := [] }

variable {Conn : Type}

structure Server (Conn : Type) where
  listenfd : ℤ
  connections : List ConnectionData
  phase : Phase
  /-- The open descriptors of connections. -/
  sockets : ℤ → Option Conn
  /-- The connections that `accept` has returned. -/
  accepted : List Conn
  /-- The bytes that `recv` has returned on a connection. -/
  received : Conn → List UInt8
  /-- The bytes that `send` has taken on a connection. -/
  sent : Conn → List UInt8

inductive Event (Conn : Type)
  /-- `select` returns with these sets. -/
  | select (readfds writefds : List ℤ)
  | selectError
  /-- The listening socket is not readable. -/
  | skipAccept
  | accept (conn : Conn) (clientfd : ℤ)
  | acceptError
  /-- The connection cannot be made non-blocking, and is left alone. -/
  | acceptBlocking (conn : Conn) (clientfd : ℤ)
  /-- A connection with the descriptor `-1` is erased. -/
  | eraseInvalid
  | recv (ret : Recv)
  | skipRecv
  /-- `send` returns a number of bytes, or `-1`. -/
  | send (ret : Option ℕ)
  | skipSend
  | advance
  | passEnd

namespace Server

/-- The server with its listening socket. -/
def start (listenfd : ℤ) : Server Conn where
  listenfd := listenfd
  connections := []
  phase := .select
  sockets := fun _ => none
  accepted := []
  received := fun _ => []
  sent := fun _ => []

/-- The set of the sockets to read from. -/
def readfds (s : Server Conn) : List ℤ :=
  s.listenfd :: ((s.connections.filter fun cd =>
    decide (cd.sock ≠ -1 ∧ cd.state = .receiving)).map ConnectionData.sock)

/-- The set of the sockets to write to. -/
def writefds (s : Server Conn) : List ℤ :=
  (s.connections.filter fun cd =>
    decide (cd.sock ≠ -1 ∧ cd.state = .sending)).map ConnectionData.sock

variable [DecidableEq Conn]

/-- The streams after bytes were moved on the connection with the descriptor. -/
def move (s : Server Conn) (streams : Conn → List UInt8) (sock : ℤ) (bytes : List UInt8) :
    Conn → List UInt8 :=
  fun conn => if s.sockets sock = some conn then streams conn ++ bytes else streams conn

/-- A connection that `accept` may return: another one than before, and with a descriptor that
is not in use. -/
def Fresh (s : Server Conn) (conn : Conn) (clientfd : ℤ) : Prop :=
  conn ∉ s.accepted ∧ 0 ≤ clientfd ∧ clientfd ≠ s.listenfd ∧ s.sockets clientfd = none

instance (s : Server Conn) (conn : Conn) (clientfd : ℤ) : Decidable (s.Fresh conn clientfd) :=
  inferInstanceAs (Decidable (_ ∧ _))

/-- One step of `main`. -/
def step (s : Server Conn) : Event Conn → Option (Server Conn)
  | .select readfds writefds =>
    if s.phase = .select ∧ readfds ⊆ s.readfds ∧ writefds ⊆ s.writefds then
      some { s with phase := .accept readfds writefds }
    else none
  | .selectError => if s.phase = .select then some { s with phase := .returned } else none
  | .skipAccept =>
    match s.phase with
    | .accept readfds writefds =>
      if s.listenfd ∉ readfds then
        some { s with phase := Phase.enter readfds writefds s.connections }
      else none
    | _ => none
  | .accept conn clientfd =>
    match s.phase with
    | .accept readfds writefds =>
      if s.listenfd ∈ readfds ∧ s.Fresh conn clientfd then
        let connections := s.connections ++ [ConnectionData.accepted clientfd]
        some { s with
          connections := connections
          phase := Phase.enter readfds writefds connections
          sockets := Function.update s.sockets clientfd (some conn)
          accepted := s.accepted ++ [conn] }
      else none
    | _ => none
  | .acceptError =>
    match s.phase with
    | .accept readfds _ =>
      if s.listenfd ∈ readfds then some { s with phase := .select } else none
    | _ => none
  | .acceptBlocking conn clientfd =>
    match s.phase with
    | .accept readfds _ =>
      if s.listenfd ∈ readfds ∧ s.Fresh conn clientfd then
        some { s with
          phase := .select
          sockets := Function.update s.sockets clientfd (some conn)
          accepted := s.accepted ++ [conn] }
      else none
    | _ => none
  | .eraseInvalid =>
    match s.phase with
    | .recv pass =>
      match s.connections[pass.it]? with
      | some cd =>
        if cd.sock = -1 then
          some { s with
            connections := s.connections.eraseIdx pass.it
            phase := .recv { pass with visited := pass.visited ++ [cd.sock] } }
        else none
      | none => none
    | _ => none
  | .recv ret =>
    match s.phase with
    | .recv pass =>
      match s.connections[pass.it]? with
      | some cd =>
        if cd.sock ≠ -1 ∧ cd.sock ∈ pass.readfds ∧ cd.state = .receiving ∧ ret.Possible then
          match cd.processClientRecv ret with
          | some (furtherProcessing, cd') =>
            some { s with
              connections := s.connections.set pass.it cd'
              phase := .send pass furtherProcessing
              received := s.move s.received cd.sock ret.bytes }
          | none => some { s with phase := .aborted }
        else none
      | none => none
    | _ => none
  | .skipRecv =>
    match s.phase with
    | .recv pass =>
      match s.connections[pass.it]? with
      | some cd =>
        if cd.sock ≠ -1 ∧ ¬ (cd.sock ∈ pass.readfds ∧ cd.state = .receiving) then
          some { s with phase := .send pass true }
        else none
      | none => none
    | _ => none
  | .send ret =>
    match s.phase with
    | .send pass _ =>
      match s.connections[pass.it]? with
      | some cd =>
        -- `send` takes at most the bytes that it was given
        if cd.sock ∈ pass.writefds ∧ cd.state = .sending ∧ ret.getD 0 ≤ cd.rest.length then
          match cd.processClientSend ret with
          | some (furtherProcessing, cd') =>
            some { s with
              connections := s.connections.set pass.it cd'
              phase := .advance pass furtherProcessing
              sent := s.move s.sent cd.sock (cd.rest.take (ret.getD 0)) }
          | none => some { s with phase := .aborted }
        else none
      | none => none
    | _ => none
  | .skipSend =>
    match s.phase with
    | .send pass furtherProcessing =>
      match s.connections[pass.it]? with
      | some cd =>
        if ¬ (cd.sock ∈ pass.writefds ∧ cd.state = .sending) then
          some { s with phase := .advance pass furtherProcessing }
        else none
      | none => none
    | _ => none
  | .advance =>
    match s.phase with
    | .advance pass furtherProcessing =>
      match s.connections[pass.it]? with
      | some cd =>
        let visited := pass.visited ++ [cd.sock]
        if furtherProcessing then
          some { s with phase := .recv { pass with it := pass.it + 1, visited := visited } }
        else
          some { s with
            connections := s.connections.eraseIdx pass.it
            phase := .recv { pass with visited := visited }
            sockets := Function.update s.sockets cd.sock none }
      | none => none
    | _ => none
  | .passEnd =>
    match s.phase with
    | .recv pass =>
      if pass.it = s.connections.length then some { s with phase := .select } else none
    | _ => none

/-! ### What should hold -/

/-- The connection that the iterator is at. -/
def current (s : Server Conn) : Option ConnectionData :=
  s.phase.pass.bind fun pass => s.connections[pass.it]?

/-- The data of a connection are the same in both states, in the server and outside. -/
def SameData (s t : Server Conn) (cd : ConnectionData) : Prop :=
  cd ∈ t.connections ∧ ∀ conn, s.sockets cd.sock = some conn →
    t.sockets cd.sock = some conn ∧ t.received conn = s.received conn ∧ t.sent conn = s.sent conn

/-- No assertion has failed.  What was sent on a connection is a prefix of what was received on it,
every element of the vector has its own socket and holds in its buffer the rest of what was received
there, and a step does not touch the data of another connection than the one that the iterator is
at.  The pass through the vector has looked at the connections that it met at its beginning one by
one, and has the others before it. -/
structure Faithful (s : Server Conn) : Prop where
  runs : s.phase ≠ .aborted
  sent_prefix : ∀ conn, s.sent conn <+: s.received conn
  echoes : ∀ cd ∈ s.connections, ∃ conn, s.sockets cd.sock = some conn ∧
    Echo (s.received conn) (s.sent conn) cd
  own_socket : (s.connections.map ConnectionData.sock).Nodup ∧
    ∀ fd fd' conn, s.sockets fd = some conn → s.sockets fd' = some conn → fd = fd'
  others : ∀ e t, s.step e = some t → ∀ cd ∈ s.connections, s.current ≠ some cd → SameData s t cd
  pass : ∀ pass, s.phase.pass = some pass → pass.entered.Nodup ∧
    pass.visited ++ (s.connections.drop pass.it).map ConnectionData.sock = pass.entered

/-! ### The invariant -/

variable {s t : Server Conn}

/-- What the pass has looked at and what it has before it is what it began with. -/
def PassOk (phase : Phase) (connections : List ConnectionData) : Prop :=
  ∀ pass, phase.pass = some pass → pass.entered.Nodup ∧
    pass.visited ++ (connections.drop pass.it).map ConnectionData.sock = pass.entered

structure Inv (s : Server Conn) : Prop where
  runs : s.phase ≠ .aborted
  sent_prefix : ∀ conn, s.sent conn <+: s.received conn
  echoes : ∀ cd ∈ s.connections, ∃ conn, s.sockets cd.sock = some conn ∧
    Echo (s.received conn) (s.sent conn) cd
  valid : ∀ cd ∈ s.connections, 0 ≤ cd.sock
  sock_nodup : (s.connections.map ConnectionData.sock).Nodup
  sockets_inj : ∀ fd fd' conn, s.sockets fd = some conn → s.sockets fd' = some conn → fd = fd'
  accepted : ∀ fd conn, s.sockets fd = some conn → conn ∈ s.accepted
  silent : ∀ conn, conn ∉ s.accepted → s.received conn = [] ∧ s.sent conn = []
  pass : PassOk s.phase s.connections

omit [DecidableEq Conn] in
theorem inv_start (listenfd : ℤ) : Inv (start listenfd : Server Conn) where
  runs := by simp [start]
  sent_prefix := fun _ => List.prefix_rfl
  echoes := fun _ h => by cases h
  valid := fun _ h => by cases h
  sock_nodup := List.nodup_nil
  sockets_inj := fun _ _ _ h => by cases h
  accepted := fun _ _ h => by cases h
  silent := fun _ _ => ⟨rfl, rfl⟩
  pass := fun _ h => by cases h

/-- The state after bytes were received from and sent to the connection at the position `i`. -/
def exchange (s : Server Conn) (i : ℕ) (cd cd' : ConnectionData) (input output : List UInt8)
    (phase : Phase) : Server Conn :=
  { s with
    connections := s.connections.set i cd'
    phase := phase
    received := s.move s.received cd.sock input
    sent := s.move s.sent cd.sock output }

/-- What a step does. -/
inductive Did (s : Server Conn) : Server Conn → Prop
  /-- It only goes on. -/
  | goOn (phase : Phase) (hruns : phase ≠ .aborted) (hpass : PassOk phase s.connections) :
      Did s { s with phase := phase }
  | accept (conn : Conn) (clientfd : ℤ) (hfresh : s.Fresh conn clientfd) (readfds writefds : List ℤ)
      (hphase : s.phase = .accept readfds writefds) :
      Did s { s with
        connections := s.connections ++ [ConnectionData.accepted clientfd]
        phase := .enter readfds writefds (s.connections ++ [ConnectionData.accepted clientfd])
        sockets := Function.update s.sockets clientfd (some conn)
        accepted := s.accepted ++ [conn] }
  | acceptBlocking (conn : Conn) (clientfd : ℤ) (hfresh : s.Fresh conn clientfd)
      (readfds writefds : List ℤ) (hphase : s.phase = .accept readfds writefds) :
      Did s { s with
        phase := .select
        sockets := Function.update s.sockets clientfd (some conn)
        accepted := s.accepted ++ [conn] }
  | exchange (pass : Pass) (cd cd' : ConnectionData) (input output : List UInt8) (phase : Phase)
      (hat : s.phase.pass = some pass) (hcd : s.connections[pass.it]? = some cd)
      (hsock : cd'.sock = cd.sock)
      (hecho : ∀ received sent, Echo received sent cd →
        Echo (received ++ input) (sent ++ output) cd')
      (hruns : phase ≠ .aborted) (hphase : phase.pass = some pass) :
      Did s (s.exchange pass.it cd cd' input output phase)
  | close (pass : Pass) (cd : ConnectionData) (hphase : s.phase = .advance pass false)
      (hcd : s.connections[pass.it]? = some cd) :
      Did s { s with
        connections := s.connections.eraseIdx pass.it
        phase := .recv { pass with visited := pass.visited ++ [cd.sock] }
        sockets := Function.update s.sockets cd.sock none }

/-! ### The pass through the vector -/

theorem passOk_of_none {phase : Phase} (h : phase.pass = none) (connections : List ConnectionData) :
    PassOk phase connections := by
  intro pass hpass
  rw [h] at hpass
  cases hpass

theorem passOk_enter {connections : List ConnectionData}
    (h : (connections.map ConnectionData.sock).Nodup) (readfds writefds : List ℤ) :
    PassOk (.enter readfds writefds connections) connections := by
  intro pass hpass
  cases hpass
  exact ⟨h, rfl⟩

theorem PassOk.congr {phase phase' : Phase} {connections : List ConnectionData}
    (h : PassOk phase connections) (heq : phase'.pass = phase.pass) :
    PassOk phase' connections := by
  intro pass hpass
  exact h pass (heq.symm.trans hpass)

/-- The vector at the iterator and after it. -/
theorem drop_of_getElem? {connections : List ConnectionData} {i : ℕ} {cd : ConnectionData}
    (hcd : connections[i]? = some cd) : connections.drop i = cd :: connections.drop (i + 1) := by
  obtain ⟨hlt, heq⟩ := List.getElem?_eq_some_iff.mp hcd
  rw [List.drop_eq_getElem_cons hlt, heq]

/-- The iterator goes to the next connection. -/
theorem PassOk.advance {phase : Phase} {connections : List ConnectionData} {pass : Pass}
    {cd : ConnectionData} (h : PassOk phase connections) (hpass : phase.pass = some pass)
    (hcd : connections[pass.it]? = some cd) :
    PassOk (.recv { pass with it := pass.it + 1, visited := pass.visited ++ [cd.sock] })
      connections := by
  intro pass' hpass'
  cases hpass'
  obtain ⟨hnodup, hall⟩ := h pass hpass
  refine ⟨hnodup, ?_⟩
  rw [drop_of_getElem? hcd] at hall
  rw [← hall, List.append_assoc]
  rfl

/-- The connection is erased, and the iterator is at the one that followed it. -/
theorem PassOk.erase {phase : Phase} {connections : List ConnectionData} {pass : Pass}
    {cd : ConnectionData} (h : PassOk phase connections) (hpass : phase.pass = some pass)
    (hcd : connections[pass.it]? = some cd) :
    PassOk (.recv { pass with visited := pass.visited ++ [cd.sock] })
      (connections.eraseIdx pass.it) := by
  intro pass' hpass'
  cases hpass'
  obtain ⟨hnodup, hall⟩ := h pass hpass
  refine ⟨hnodup, ?_⟩
  have hle : pass.it ≤ connections.length := Nat.le_of_lt (List.getElem?_eq_some_iff.mp hcd).1
  have hdrop : (connections.eraseIdx pass.it).drop pass.it = connections.drop (pass.it + 1) := by
    rw [List.eraseIdx_eq_take_drop_succ, List.drop_left' (List.length_take_of_le hle)]
  rw [drop_of_getElem? hcd] at hall
  rw [← hall, hdrop, List.append_assoc]
  rfl

/-- A connection is replaced by one with the same socket. -/
theorem map_sock_set {connections : List ConnectionData} {i : ℕ} {cd cd' : ConnectionData}
    (hcd : connections[i]? = some cd) (hsock : cd'.sock = cd.sock) :
    (connections.set i cd').map ConnectionData.sock = connections.map ConnectionData.sock := by
  obtain ⟨hlt, heq⟩ := List.getElem?_eq_some_iff.mp hcd
  rw [List.map_set, hsock, ← heq]
  have hlt' : i < (connections.map ConnectionData.sock).length := by simpa using hlt
  rw [← List.getElem_map (h := hlt') ConnectionData.sock, List.set_getElem_self]

theorem PassOk.set {phase phase' : Phase} {connections : List ConnectionData} {i : ℕ}
    {cd cd' : ConnectionData} (h : PassOk phase connections) (heq : phase'.pass = phase.pass)
    (hcd : connections[i]? = some cd) (hsock : cd'.sock = cd.sock) :
    PassOk phase' (connections.set i cd') := by
  intro pass hpass
  rw [List.map_drop, map_sock_set hcd hsock, ← List.map_drop]
  exact h pass (heq.symm.trans hpass)

/-! ### What a step does -/

@[simp] theorem move_nil (s : Server Conn) (streams : Conn → List UInt8) (sock : ℤ) :
    s.move streams sock [] = streams := by
  funext conn
  simp [move]

theorem move_of_ne {sock : ℤ} {conn : Conn} (h : s.sockets sock ≠ some conn)
    (streams : Conn → List UInt8) (bytes : List UInt8) :
    s.move streams sock bytes conn = streams conn := if_neg h

theorem move_of_eq {sock : ℤ} {conn : Conn} (h : s.sockets sock = some conn)
    (streams : Conn → List UInt8) (bytes : List UInt8) :
    s.move streams sock bytes conn = streams conn ++ bytes := if_pos h

omit [DecidableEq Conn] in
/-- The connection at the iterator has a socket, and its fields agree. -/
theorem Inv.ok_at (h : Inv s) {it : ℕ} {cd : ConnectionData} (hcd : s.connections[it]? = some cd) :
    cd.sock ≠ -1 ∧ cd.Ok := by
  have hmem := List.mem_of_getElem? hcd
  have hvalid := h.valid cd hmem
  obtain ⟨conn, -, hecho⟩ := h.echoes cd hmem
  exact ⟨by omega, hecho.toOk⟩

theorem Inv.did_recv (h : Inv s) {ret : Recv} (hstep : s.step (.recv ret) = some t) :
    Did s t := by
  dsimp only [step] at hstep
  split at hstep
  swap
  · cases hstep
  next pass hphase =>
  split at hstep
  swap
  · cases hstep
  next cd hcd =>
  split at hstep
  swap
  · cases hstep
  next hguard =>
  obtain ⟨-, -, hstate, hpossible⟩ := hguard
  obtain ⟨furtherProcessing, cd', hcall, hsock, hecho⟩ := Echo.recv (h.ok_at hcd).2 hstate hpossible
  rw [hcall] at hstep
  cases hstep
  rw [← move_nil s s.sent cd.sock]
  exact .exchange pass cd cd' ret.bytes [] _ (by rw [hphase]; rfl) hcd hsock
    (fun received sent h => by rw [List.append_nil]; exact hecho received sent h) (by simp) rfl

theorem Inv.did_send (h : Inv s) {ret : Option ℕ} (hstep : s.step (.send ret) = some t) :
    Did s t := by
  dsimp only [step] at hstep
  split at hstep
  swap
  · cases hstep
  next pass _ hphase =>
  split at hstep
  swap
  · cases hstep
  next cd hcd =>
  split at hstep
  swap
  · cases hstep
  next hguard =>
  obtain ⟨-, hstate, hle⟩ := hguard
  obtain ⟨furtherProcessing, cd', hcall, hsock, hecho⟩ := Echo.send (h.ok_at hcd).2 hstate hle
  rw [hcall] at hstep
  cases hstep
  rw [← move_nil s s.received cd.sock]
  exact .exchange pass cd cd' [] _ _ (by rw [hphase]; rfl) hcd hsock
    (fun received sent h => by rw [List.append_nil]; exact hecho received sent h) (by simp) rfl

/-- **The inversion lemma.** -/
theorem Inv.did (h : Inv s) {e : Event Conn} (hstep : s.step e = some t) : Did s t := by
  cases e with
  | select readfds writefds =>
    dsimp only [step] at hstep
    split at hstep
    · cases hstep
      exact .goOn _ (by simp) (passOk_of_none rfl _)
    · cases hstep
  | selectError =>
    dsimp only [step] at hstep
    split at hstep
    · cases hstep
      exact .goOn _ (by simp) (passOk_of_none rfl _)
    · cases hstep
  | skipAccept =>
    dsimp only [step] at hstep
    split at hstep
    · split at hstep
      · cases hstep
        exact .goOn _ (by simp [Phase.enter]) (passOk_enter h.sock_nodup _ _)
      · cases hstep
    · cases hstep
  | accept conn clientfd =>
    dsimp only [step] at hstep
    split at hstep
    · next hphase =>
      split at hstep
      · next hguard =>
        cases hstep
        exact .accept conn clientfd hguard.2 _ _ hphase
      · cases hstep
    · cases hstep
  | acceptError =>
    dsimp only [step] at hstep
    split at hstep
    · split at hstep
      · cases hstep
        exact .goOn _ (by simp) (passOk_of_none rfl _)
      · cases hstep
    · cases hstep
  | acceptBlocking conn clientfd =>
    dsimp only [step] at hstep
    split at hstep
    · next hphase =>
      split at hstep
      · next hguard =>
        cases hstep
        exact .acceptBlocking conn clientfd hguard.2 _ _ hphase
      · cases hstep
    · cases hstep
  | eraseInvalid =>
    dsimp only [step] at hstep
    split at hstep
    · split at hstep
      · next hcd =>
        split at hstep
        · -- no entry of the vector is invalid here
          next hsock => exact absurd hsock (h.ok_at hcd).1
        · cases hstep
      · cases hstep
    · cases hstep
  | recv ret => exact h.did_recv hstep
  | skipRecv =>
    dsimp only [step] at hstep
    split at hstep
    · next pass hphase =>
      split at hstep
      · split at hstep
        · cases hstep
          exact .goOn _ (by simp) (h.pass.congr (by rw [hphase]; rfl))
        · cases hstep
      · cases hstep
    · cases hstep
  | send ret => exact h.did_send hstep
  | skipSend =>
    dsimp only [step] at hstep
    split at hstep
    · next pass _ hphase =>
      split at hstep
      · split at hstep
        · cases hstep
          exact .goOn _ (by simp) (h.pass.congr (by rw [hphase]; rfl))
        · cases hstep
      · cases hstep
    · cases hstep
  | advance =>
    dsimp only [step] at hstep
    split at hstep
    swap
    · cases hstep
    next pass furtherProcessing hphase =>
    split at hstep
    swap
    · cases hstep
    next cd hcd =>
    -- the iterator goes on, or the connection is closed and erased
    cases furtherProcessing with
    | true =>
      cases hstep
      exact .goOn _ (by simp) (h.pass.advance (by rw [hphase]; rfl) hcd)
    | false =>
      cases hstep
      exact .close pass cd hphase hcd
  | passEnd =>
    dsimp only [step] at hstep
    split at hstep
    · split at hstep
      · cases hstep
        exact .goOn _ (by simp) (passOk_of_none rfl _)
      · cases hstep
    · cases hstep

/-! ### The other connections -/

omit [DecidableEq Conn] in
/-- Two elements of the vector have different sockets. -/
theorem Inv.sock_ne (h : Inv s) {i j : ℕ} {cd other : ConnectionData}
    (hcd : s.connections[i]? = some cd) (hother : s.connections[j]? = some other) (hne : j ≠ i) :
    other.sock ≠ cd.sock := by
  intro heq
  obtain ⟨hi, rfl⟩ := List.getElem?_eq_some_iff.mp hcd
  obtain ⟨hj, rfl⟩ := List.getElem?_eq_some_iff.mp hother
  have hlength : (s.connections.map (·.sock)).length = s.connections.length := List.length_map _
  refine hne
    ((@List.Nodup.getElem_inj_iff _ _ h.sock_nodup j (hlength ▸ hj) i (hlength ▸ hi)).mp ?_)
  rw [List.getElem_map, List.getElem_map]
  exact heq

omit [DecidableEq Conn] in
theorem Inv.mem_set (h : Inv s) {i : ℕ} {cd cd' other : ConnectionData}
    (hcd : s.connections[i]? = some cd) (hother : other ∈ s.connections.set i cd') :
    other = cd' ∨ other ∈ s.connections ∧ other.sock ≠ cd.sock := by
  obtain ⟨j, hj⟩ := List.mem_iff_getElem?.mp hother
  rw [List.getElem?_set] at hj
  split at hj
  · split at hj
    · cases hj
      exact .inl rfl
    · cases hj
  · next hne => exact .inr ⟨List.mem_of_getElem? hj, h.sock_ne hcd hj (Ne.symm hne)⟩

omit [DecidableEq Conn] in
theorem Inv.mem_eraseIdx (h : Inv s) {i : ℕ} {cd other : ConnectionData}
    (hcd : s.connections[i]? = some cd) (hother : other ∈ s.connections.eraseIdx i) :
    other ∈ s.connections ∧ other.sock ≠ cd.sock := by
  obtain ⟨j, hne, hj⟩ := List.mem_eraseIdx_iff_getElem?.mp hother
  exact ⟨List.mem_of_getElem? hj, h.sock_ne hcd hj hne⟩

omit [DecidableEq Conn] in
/-- Another socket belongs to another connection. -/
theorem Inv.conn_ne (h : Inv s) {fd fd' : ℤ} {conn : Conn} (hconn : s.sockets fd = some conn)
    (hne : fd ≠ fd') : s.sockets fd' ≠ some conn :=
  fun h' => hne (h.sockets_inj fd fd' conn hconn h')

omit [DecidableEq Conn] in
/-- The descriptor of a new connection is not one of the vector. -/
theorem Inv.sock_ne_of_fresh (h : Inv s) {conn : Conn} {clientfd : ℤ}
    (hfresh : s.Fresh conn clientfd) {cd : ConnectionData} (hcd : cd ∈ s.connections) :
    cd.sock ≠ clientfd := by
  rintro rfl
  obtain ⟨conn', hconn', -⟩ := h.echoes cd hcd
  rw [hfresh.2.2.2] at hconn'
  cases hconn'

/-- **A step leaves the data of the other connections alone.** -/
theorem Inv.sameData (h : Inv s) (hdid : Did s t) {cd : ConnectionData} (hcd : cd ∈ s.connections)
    (hother : s.current ≠ some cd) : SameData s t cd := by
  cases hdid with
  | goOn phase => exact ⟨hcd, fun conn hconn => ⟨hconn, rfl, rfl⟩⟩
  | accept conn clientfd hfresh =>
    refine ⟨List.mem_append_left _ hcd, fun conn' hconn => ⟨?_, rfl, rfl⟩⟩
    dsimp only
    rw [Function.update_of_ne (h.sock_ne_of_fresh hfresh hcd)]
    exact hconn
  | acceptBlocking conn clientfd hfresh =>
    refine ⟨hcd, fun conn' hconn => ⟨?_, rfl, rfl⟩⟩
    dsimp only
    rw [Function.update_of_ne (h.sock_ne_of_fresh hfresh hcd)]
    exact hconn
  | exchange pass cd₀ cd' input output phase hat hcd₀ =>
    obtain ⟨j, hj⟩ := List.mem_iff_getElem?.mp hcd
    -- another connection has another place and another socket
    have hne : j ≠ pass.it := by
      rintro rfl
      refine hother ?_
      rw [current, hat]
      exact hj
    have hsock := h.sock_ne hcd₀ hj hne
    refine ⟨List.mem_iff_getElem?.mpr ⟨j, ?_⟩, fun conn hconn => ⟨hconn, ?_, ?_⟩⟩
    · change (s.connections.set pass.it cd')[j]? = some cd
      rw [List.getElem?_set_ne (Ne.symm hne)]
      exact hj
    · exact move_of_ne (h.conn_ne hconn hsock) _ _
    · exact move_of_ne (h.conn_ne hconn hsock) _ _
  | close pass cd₀ hphase hcd₀ =>
    obtain ⟨j, hj⟩ := List.mem_iff_getElem?.mp hcd
    have hne : j ≠ pass.it := by
      rintro rfl
      refine hother ?_
      rw [current, hphase]
      exact hj
    refine ⟨List.mem_eraseIdx_iff_getElem?.mpr ⟨j, hne, hj⟩, fun conn hconn => ⟨?_, rfl, rfl⟩⟩
    dsimp only
    rw [Function.update_of_ne (h.sock_ne hcd₀ hj hne)]
    exact hconn

/-! ### The step lemma -/

/-- Bytes are moved on one connection. -/
theorem Inv.exchange (h : Inv s) {pass : Pass} {cd cd' : ConnectionData} {input output : List UInt8}
    {phase : Phase} (hat : s.phase.pass = some pass) (hcd : s.connections[pass.it]? = some cd)
    (hsock : cd'.sock = cd.sock)
    (hecho : ∀ received sent, Echo received sent cd → Echo (received ++ input) (sent ++ output) cd')
    (hruns : phase ≠ .aborted) (hphase : phase.pass = some pass) :
    Inv (s.exchange pass.it cd cd' input output phase) := by
  have hmem := List.mem_of_getElem? hcd
  obtain ⟨conn, hconn, hold⟩ := h.echoes cd hmem
  have hnew := hecho _ _ hold
  refine ⟨hruns, fun conn' => ?_, fun other hother => ?_, fun other hother => ?_, ?_,
    h.sockets_inj, h.accepted, fun conn' hconn' => ?_, ?_⟩
  · change s.move s.sent cd.sock output conn' <+: s.move s.received cd.sock input conn'
    -- the bytes are those of this connection; the others keep theirs
    by_cases heq : s.sockets cd.sock = some conn'
    · rw [move_of_eq heq, move_of_eq heq]
      obtain rfl := Option.some.inj (hconn.symm.trans heq)
      exact hnew.prefix
    · rw [move_of_ne heq, move_of_ne heq]
      exact h.sent_prefix conn'
  · rcases h.mem_set hcd hother with rfl | ⟨hother, hne⟩
    · refine ⟨conn, hsock ▸ hconn, ?_⟩
      change Echo (s.move s.received cd.sock input conn) (s.move s.sent cd.sock output conn) _
      rw [move_of_eq hconn, move_of_eq hconn]
      exact hnew
    · obtain ⟨conn', hconn', hecho'⟩ := h.echoes other hother
      refine ⟨conn', hconn', ?_⟩
      have hne' := h.conn_ne hconn' hne
      change Echo (s.move s.received cd.sock input conn') (s.move s.sent cd.sock output conn') _
      rw [move_of_ne hne', move_of_ne hne']
      exact hecho'
  · rcases h.mem_set hcd hother with rfl | ⟨hother, -⟩
    · exact hsock ▸ h.valid cd hmem
    · exact h.valid other hother
  · change ((s.connections.set pass.it cd').map ConnectionData.sock).Nodup
    rw [map_sock_set hcd hsock]
    exact h.sock_nodup
  · have hne : s.sockets cd.sock ≠ some conn' := fun heq => hconn' (h.accepted _ _ heq)
    change s.move s.received cd.sock input conn' = [] ∧ s.move s.sent cd.sock output conn' = []
    rw [move_of_ne hne, move_of_ne hne]
    exact h.silent conn' hconn'
  · exact h.pass.set (hphase.trans hat.symm) hcd hsock

omit [DecidableEq Conn] in
/-- A connection is closed and erased. -/
theorem Inv.close (h : Inv s) {pass : Pass} {cd : ConnectionData}
    (hphase : s.phase = .advance pass false) (hcd : s.connections[pass.it]? = some cd) :
    Inv { s with
      connections := s.connections.eraseIdx pass.it
      phase := .recv { pass with visited := pass.visited ++ [cd.sock] }
      sockets := Function.update s.sockets cd.sock none } := by
  have hopen : ∀ {fd : ℤ} {conn : Conn},
      Function.update s.sockets cd.sock none fd = some conn → s.sockets fd = some conn := by
    intro fd conn hfd
    rw [Function.update_apply] at hfd
    split at hfd
    · cases hfd
    · exact hfd
  refine ⟨by simp, h.sent_prefix, fun other hother => ?_, fun other hother => ?_, ?_,
    fun fd fd' conn hfd hfd' => h.sockets_inj fd fd' conn (hopen hfd) (hopen hfd'),
    fun fd conn hfd => h.accepted fd conn (hopen hfd), h.silent,
    h.pass.erase (by rw [hphase]; rfl) hcd⟩
  · obtain ⟨hother, hne⟩ := h.mem_eraseIdx hcd hother
    obtain ⟨conn, hconn, hecho⟩ := h.echoes other hother
    refine ⟨conn, ?_, hecho⟩
    dsimp only
    rw [Function.update_of_ne hne]
    exact hconn
  · exact h.valid other (h.mem_eraseIdx hcd hother).1
  · exact h.sock_nodup.sublist ((List.eraseIdx_sublist _ _).map _)

theorem Inv.faithful (h : Inv s) : Faithful s where
  runs := h.runs
  sent_prefix := h.sent_prefix
  echoes := h.echoes
  own_socket := ⟨h.sock_nodup, h.sockets_inj⟩
  others := fun _ _ hstep _ hcd hother => h.sameData (h.did hstep) hcd hother
  pass := h.pass

end Server

end ExchangeLabs.EchoServer
