import ExchangeLabs.Lib.Run
import Mathlib.Logic.Function.Basic
import Mathlib.Data.String.Basic

/-!
# The simulated network of the labs

`labrpc.go`: the calls of the client ends, the goroutines that process them, the handlers
that they start, and whoever sets up the network.  A step is one access to shared data or one
exchange on a channel; between two steps of a goroutine anything may happen.  What the random
numbers and the delays decide is left open.  To receive a request and to count it is one step.

A call is a `Conversation`: where `Call` and `processReq` are is its phase, and the goroutine
that runs the handler is apart, since it goes on when nobody waits for it any more.  What a
handler replies is up to the service, and so is when it returns.

## Main definitions

* `Network`, `Server` — the fields of the source.
* `Conversation`, `Conversation.turn` — a call, and one step of it.
* `System.step` — all that can happen.
-/

namespace ExchangeLabs.LabRpc

/-- A server: its services with their methods, and its count of incoming calls. -/
structure Server where
  services : List (String × List String)
  count : BitVec 64

/-- `MakeServer` -/
def makeServer : Server := { services := [], count := 0 }

/-- The part of `svcMeth` before its last dot, and the part behind it. -/
def splitMethod (svcMeth : String) : Option (String × String) :=
  let chars := svcMeth.toList
  let methodName := (chars.reverse.takeWhile (· ≠ '.')).reverse
  if '.' ∈ chars then
    some (.ofList (chars.take (chars.length - methodName.length - 1)), .ofList methodName)
  else none

/-- `dispatch` finds the service and the method; otherwise the program ends. -/
def Server.knows (server : Server) (svcMeth : String) : Bool :=
  match splitMethod svcMeth with
  | none => false
  | some (serviceName, methodName) =>
    match server.services.lookup serviceName with
    | none => false
    | some methods => methods.contains methodName

/-- Names of client ends are `E`, names of servers are `S`, and a server is a pointer. -/
structure Network (E S : Type) where
  reliable : Bool
  longDelays : Bool
  longReordering : Bool
  ends : E → Bool
  enabled : E → Bool
  servers : S → Option ℕ
  connections : E → Option S
  /-- The channel `done` is closed. -/
  done : Bool
  count : BitVec 32
  bytes : BitVec 64

/-- `MakeNetwork` -/
def makeNetwork (E S : Type) : Network E S where
  reliable := true
  longDelays := false
  longReordering := false
  ends := fun _ => false
  enabled := fun _ => false
  servers := fun _ => none
  connections := fun _ => none
  done := false
  count := 0
  bytes := 0

structure ReqMsg (E : Type) where
  endname : E
  svcMeth : String
  args : List UInt8

/-- `replyMsg`: the reply, or none if it is not `ok`. -/
abbrev ReplyMsg := Option (List UInt8)

/-- Where `Call` and `processReq` are. -/
inductive Phase (S : Type)
  /-- `Call` sends the request. -/
  | sending
  /-- `processReq` begins. -/
  | accepted
  /-- The end is connected to a server. -/
  | connected (servername : S) (server : ℕ) (reliable longreordering : Bool)
  /-- In the loop that waits for the handler. -/
  | waiting (servername : S) (server : ℕ) (reliable longreordering : Bool)
  /-- The handler has returned, and `isServerDead` is asked for the last time. -/
  | answered (servername : S) (server : ℕ) (reliable longreordering : Bool) (reply : List UInt8)
  /-- The server is not dead. -/
  | alive (reliable longreordering : Bool) (reply : List UInt8)
  | delayed (reply : List UInt8)
  /-- The reply is sent to `Call`. -/
  | replying (reply : ReplyMsg)
  /-- `Call` has returned; it is true if there is a reply. -/
  | returned (reply : ReplyMsg)
  /-- `Call` has returned false, since there is no network. -/
  | destroyed

/-- Where the goroutine is that runs the handler. -/
inductive Handler
  | none
  | started (server : ℕ)
  | running (server : ℕ)
  /-- The handler has returned, and nobody has received the reply. -/
  | finished (server : ℕ) (reply : List UInt8)
  | gone (server : ℕ) (reply : List UInt8)
  /-- There is no such service or method. -/
  | fatal (server : ℕ)

structure Conversation (E S : Type) where
  req : ReqMsg E
  phase : Phase S
  handler : Handler

/-- A step of a call or of its handler. -/
inductive Turn
  | send
  | destroy
  /-- `readEndnameInfo` -/
  | read
  | dropRequest
  | execute
  | dispatch
  /-- The handler returns. -/
  | reply (reply : List UInt8)
  | receive
  /-- `isServerDead` is asked while the handler runs. -/
  | poll
  | drain
  /-- `isServerDead` is asked for the last time. -/
  | check
  | dropReply
  | delay
  | deliver
  | finish

variable {E S : Type} [DecidableEq E] [DecidableEq S]

/-- The server that an end is connected to, if it is enabled. -/
def Network.target (rn : Network E S) (endname : E) : Option (S × ℕ) :=
  if rn.enabled endname then
    (rn.connections endname).bind fun servername =>
      (rn.servers servername).map fun server => (servername, server)
  else none

def Network.isServerDead (rn : Network E S) (endname : E) (servername : S) (server : ℕ) : Bool :=
  !rn.enabled endname || rn.servers servername ≠ some server

/-- One step of a call, if it can happen; `listening` is whether the goroutine of the network is
there. -/
def Conversation.turn (rn : Network E S) (listening : Bool) (servers : ℕ → Server)
    (c : Conversation E S) : Turn → Option (Conversation E S)
  | .send =>
    match c.phase with
    | .sending => if listening then some { c with phase := .accepted } else none
    | _ => none
  | .destroy =>
    match c.phase with
    | .sending => if rn.done then some { c with phase := .destroyed } else none
    | _ => none
  | .read =>
    match c.phase with
    | .accepted =>
      match rn.target c.req.endname with
      | some (servername, server) =>
        some { c with phase := .connected servername server rn.reliable rn.longReordering }
      | none => some { c with phase := .replying none }
    | _ => none
  | .dropRequest =>
    match c.phase with
    | .connected _ _ false _ => some { c with phase := .replying none }
    | _ => none
  | .execute =>
    match c.phase with
    | .connected servername server reliable longreordering =>
      some { c with
        phase := .waiting servername server reliable longreordering
        handler := .started server }
    | _ => none
  | .dispatch =>
    match c.handler with
    | .started server =>
      if (servers server).knows c.req.svcMeth then some { c with handler := .running server }
      else some { c with handler := .fatal server }
    | _ => none
  | .reply reply =>
    match c.handler with
    | .running server => some { c with handler := .finished server reply }
    | _ => none
  | .receive =>
    match c.phase, c.handler with
    | .waiting servername server reliable longreordering, .finished server' reply =>
      some { c with
        phase := .answered servername server reliable longreordering reply
        handler := .gone server' reply }
    | _, _ => none
  | .poll =>
    match c.phase with
    | .waiting servername server _ _ =>
      if rn.isServerDead c.req.endname servername server then
        some { c with phase := .replying none }
      else some c
    | _ => none
  | .drain =>
    match c.phase, c.handler with
    | .replying none, .finished server reply | .returned none, .finished server reply =>
      some { c with handler := .gone server reply }
    | _, _ => none
  | .check =>
    match c.phase with
    | .answered servername server reliable longreordering reply =>
      if rn.isServerDead c.req.endname servername server then
        some { c with phase := .replying none }
      else some { c with phase := .alive reliable longreordering reply }
    | _ => none
  | .dropReply =>
    match c.phase with
    | .alive false _ _ => some { c with phase := .replying none }
    | _ => none
  | .delay =>
    match c.phase with
    | .alive _ true reply => some { c with phase := .delayed reply }
    | _ => none
  | .deliver =>
    match c.phase with
    | .alive _ _ reply | .delayed reply => some { c with phase := .replying (some reply) }
    | _ => none
  | .finish =>
    match c.phase with
    | .replying reply => some { c with phase := .returned reply }
    | _ => none

/-- What happens to the network apart from the calls. -/
inductive Admin (E S : Type)
  | reliable (yes : Bool)
  | longDelays (yes : Bool)
  | longReordering (yes : Bool)
  | makeEnd (endname : E)
  | addService (server : ℕ) (name : String) (methods : List String)
  | addServer (servername : S) (server : ℕ)
  | deleteServer (servername : S)
  | connect (endname : E) (servername : S)
  | enable (endname : E) (enabled : Bool)
  | cleanup

structure System (E S : Type) where
  net : Network E S
  servers : ℕ → Server
  /-- The goroutine of `MakeNetwork` has not returned. -/
  listening : Bool
  calls : List (Conversation E S)
  /-- The program has ended by `log.Fatalf` or a panic. -/
  halted : Bool

inductive Event (E S : Type)
  /-- `Call` of a client end that has been made. -/
  | call (req : ReqMsg E)
  | turn (id : ℕ) (t : Turn)
  /-- The goroutine of the network finds `done` closed. -/
  | stop
  | admin (a : Admin E S)

namespace System

def init (E S : Type) : System E S where
  net := makeNetwork E S
  servers := fun _ => makeServer
  listening := true
  calls := []
  halted := false

/-- What a step of a call is counted as. -/
def count (s : System E S) (c : Conversation E S) : Turn → System E S
  | .send =>
    { s with net := { s.net with
        count := s.net.count + 1, bytes := s.net.bytes + BitVec.ofNat 64 c.req.args.length } }
  | .dispatch =>
    match c.handler with
    | .started server =>
      let rs := s.servers server
      { s with
        servers := Function.update s.servers server { rs with count := rs.count + 1 }
        halted := !rs.knows c.req.svcMeth }
    | _ => s
  | .deliver =>
    match c.phase with
    | .alive _ _ reply | .delayed reply =>
      { s with net := { s.net with bytes := s.net.bytes + BitVec.ofNat 64 reply.length } }
    | _ => s
  | _ => s

def change (s : System E S) : Admin E S → System E S
  | .reliable yes => { s with net := { s.net with reliable := yes } }
  | .longDelays yes => { s with net := { s.net with longDelays := yes } }
  | .longReordering yes => { s with net := { s.net with longReordering := yes } }
  | .makeEnd endname =>
    if s.net.ends endname then { s with halted := true }
    else
      { s with net := { s.net with
          ends := Function.update s.net.ends endname true
          enabled := Function.update s.net.enabled endname false
          connections := Function.update s.net.connections endname none } }
  | .addService server name methods =>
    let rs := s.servers server
    { s with servers :=
        Function.update s.servers server { rs with services := (name, methods) :: rs.services } }
  | .addServer servername server =>
    { s with net :=
    { s.net with servers := Function.update s.net.servers servername (some server) } }
  | .deleteServer servername =>
    { s with net := { s.net with servers := Function.update s.net.servers servername none } }
  | .connect endname servername =>
    { s with net := { s.net with
        connections := Function.update s.net.connections endname (some servername) } }
  | .enable endname enabled =>
    { s with net := { s.net with enabled := Function.update s.net.enabled endname enabled } }
  | .cleanup =>
    -- closing `done` twice is a panic
    if s.net.done then { s with halted := true } else { s with net := { s.net with done := true } }

def step (s : System E S) (e : Event E S) : Option (System E S) :=
  if s.halted then none
  else
    match e with
    | .call req =>
      if s.net.ends req.endname then
        some { s with calls := s.calls ++ [{ req := req, phase := .sending, handler := .none }] }
      else none
    | .turn id t =>
      s.calls[id]?.bind fun c =>
        (c.turn s.net s.listening s.servers t).map fun c' =>
          { s.count c t with calls := s.calls.set id c' }
    | .stop =>
      if s.listening && s.net.done then some { s with listening := false } else none
    | .admin a => some (s.change a)

/-- `GetCount` of a server name; there is no count of a server that is `nil`. -/
def getCount (s : System E S) (servername : S) : Option (BitVec 64) :=
  (s.net.servers servername).map fun server => (s.servers server).count

end System

end ExchangeLabs.LabRpc
