import Mathlib.Algebra.Group.Int.Defs
import Mathlib.Data.List.Basic
import Mathlib.Data.List.Nodup

/-!
# A connection of the echo server

The data that the server with I/O multiplexing keeps for a connection, and the two
functions that move bytes: `process_client_recv` fills the buffer and turns the
connection to sending, `process_client_send` sends what it can and turns it back once
the buffer is empty.

## Main definitions

* `ConnectionData` — the structure of this name.
* `ConnectionData.rest` — the bytes of the buffer that are still to be sent.
* `ConnectionData.processClientRecv`, `ConnectionData.processClientSend`.
* `Echo received sent cd` — what was received is what was sent and the rest.

## Main results

* `Echo.recv`, `Echo.send` — both functions keep it.
-/

namespace ExchangeLabs.EchoServer

/-- Size of the buffer used to transfer data. -/
def kTransferBufferSize : ℕ := 64

/-- `EConnState`. -/
inductive EConnState
  | receiving
  | sending
  deriving DecidableEq

structure ConnectionData where
  state : EConnState
  /-- File descriptor of the connection's socket. -/
  sock : ℤ
  bufferOffset : ℕ
  bufferSize : ℕ
  /-- An array of `kTransferBufferSize + 1` characters. -/
  buffer : List UInt8
  deriving DecidableEq

/-- What `recv` returns. -/
inductive Recv
  /-- `0`: an orderly shutdown. -/
  | shutdown
  /-- `-1`. -/
  | error
  /-- The number of these bytes, which it has put into the buffer. -/
  | data (bytes : List UInt8)
  deriving DecidableEq

/-- The bytes that `recv` has put into the buffer. -/
def Recv.bytes : Recv → List UInt8
  | .shutdown | .error => []
  | .data bytes => bytes

/-- `recv` returns at least one byte and no more than it was asked for. -/
def Recv.Possible (ret : Recv) : Prop :=
  ∀ bytes, ret = .data bytes → bytes ≠ [] ∧ bytes.length ≤ kTransferBufferSize

instance : (ret : Recv) → Decidable ret.Possible
  | .shutdown => .isTrue fun _ h => by cases h
  | .error => .isTrue fun _ h => by cases h
  | .data bytes =>
    decidable_of_iff (bytes ≠ [] ∧ bytes.length ≤ kTransferBufferSize)
      ⟨fun h _ heq => Recv.data.inj heq ▸ h, fun h => h bytes rfl⟩

namespace ConnectionData

/-- The data of a connection that was just accepted: all zero, and receiving. -/
def accepted (sock : ℤ) : ConnectionData where
  state := .receiving
  sock := sock
  bufferOffset := 0
  bufferSize := 0
  buffer := List.replicate (kTransferBufferSize + 1) 0

/-- `buffer[bufferOffset .. bufferSize)`. -/
def rest (cd : ConnectionData) : List UInt8 := (cd.buffer.take cd.bufferSize).drop cd.bufferOffset

/-- `process_client_recv`: whether the connection remains open, and its data.  It has no
result if the assertion fails or the terminating zero is written behind the buffer. -/
def processClientRecv (cd : ConnectionData) (ret : Recv) : Option (Bool × ConnectionData) :=
  if cd.state ≠ .receiving then none
  else
    match ret with
    | .shutdown | .error => some (false, cd)
    | .data bytes =>
      let bufferSize := cd.bufferSize + bytes.length
      if cd.buffer.length ≤ bufferSize then none
      else
        some (true, { cd with
          -- `recv` writes to the front of the buffer
          buffer := (bytes ++ cd.buffer.drop bytes.length).set bufferSize 0
          bufferSize := bufferSize
          bufferOffset := 0
          state := .sending })

/-- `process_client_send`, where `send` has returned the number `ret` of bytes, or `-1`. -/
def processClientSend (cd : ConnectionData) (ret : Option ℕ) : Option (Bool × ConnectionData) :=
  if cd.state ≠ .sending then none
  else
    match ret with
    | none => some (false, cd)
    | some count =>
      let bufferOffset := cd.bufferOffset + count
      if bufferOffset = cd.bufferSize then
        some (true, { cd with bufferSize := 0, bufferOffset := 0, state := .receiving })
      else some (true, { cd with bufferOffset := bufferOffset })

@[simp] theorem sock_accepted (sock : ℤ) : (accepted sock).sock = sock := rfl

end ConnectionData

/-! ### The invariant of a connection -/

open ConnectionData

/-- The fields agree with each other. -/
structure ConnectionData.Ok (cd : ConnectionData) : Prop where
  offset_le : cd.bufferOffset ≤ cd.bufferSize
  size_le : cd.bufferSize ≤ kTransferBufferSize
  length : cd.buffer.length = kTransferBufferSize + 1
  sending_iff : cd.state = .sending ↔ cd.rest ≠ []
  empty : cd.state = .receiving → cd.bufferSize = 0

/-- Of the bytes that were received on the connection the first ones were sent, and the others
are the rest in its buffer. -/
structure Echo (received sent : List UInt8) (cd : ConnectionData) : Prop extends cd.Ok where
  received_eq : received = sent ++ cd.rest

variable {cd : ConnectionData} {received sent bytes : List UInt8}

theorem ConnectionData.Ok.length_rest (h : cd.Ok) :
    cd.rest.length = cd.bufferSize - cd.bufferOffset := by
  have hsize := h.size_le
  have hlength := h.length
  simp only [rest, List.length_drop, List.length_take]
  omega

theorem Echo.prefix (h : Echo received sent cd) : sent <+: received :=
  ⟨cd.rest, h.received_eq.symm⟩

/-- `recv` fills the buffer of a connection that has nothing left to send. -/
theorem ConnectionData.Ok.recv_data (h : cd.Ok) (hstate : cd.state = .receiving)
    (hne : bytes ≠ []) (hle : bytes.length ≤ kTransferBufferSize) :
    ∃ cd', cd.processClientRecv (.data bytes) = some (true, cd') ∧ cd'.sock = cd.sock ∧ cd'.Ok ∧
      cd.rest = [] ∧ cd'.rest = bytes := by
  have hsize := h.empty hstate
  have hlength := h.length
  have hroom : ¬ cd.buffer.length ≤ cd.bufferSize + bytes.length := by omega
  have hcall : cd.processClientRecv (.data bytes) = some (true, { cd with
      buffer := (bytes ++ cd.buffer.drop bytes.length).set (cd.bufferSize + bytes.length) 0
      bufferSize := cd.bufferSize + bytes.length
      bufferOffset := 0
      state := .sending }) := by
    unfold processClientRecv
    rw [if_neg (not_not.mpr hstate)]
    dsimp only
    rw [if_neg hroom]
  -- what is to be sent is what was received
  have hall : ((bytes ++ cd.buffer.drop bytes.length).set (cd.bufferSize + bytes.length) 0).take
      (cd.bufferSize + bytes.length) = bytes := by
    rw [hsize, Nat.zero_add, List.take_set_of_le (Nat.le_refl _), List.take_left]
  refine ⟨_, hcall, rfl, ?_, by simp [rest, hsize], hall⟩
  refine ⟨Nat.zero_le _, by dsimp only; omega, ?_, ?_, fun hother => by cases hother⟩
  · simp only [List.length_set, List.length_append, List.length_drop]
    omega
  · refine ⟨fun _ => ?_, fun _ => rfl⟩
    change List.drop 0 (List.take _ _) ≠ []
    rw [hall]
    exact hne

/-- `send` takes bytes from the front of the rest. -/
theorem ConnectionData.Ok.send_some (h : cd.Ok) (hstate : cd.state = .sending) {count : ℕ}
    (hle : count ≤ cd.rest.length) :
    ∃ cd', cd.processClientSend (some count) = some (true, cd') ∧ cd'.sock = cd.sock ∧ cd'.Ok ∧
      cd'.rest = cd.rest.drop count := by
  have hlength := h.length_rest
  have hoffset := h.offset_le
  by_cases hall : cd.bufferOffset + count = cd.bufferSize
  · refine ⟨{ cd with bufferSize := 0, bufferOffset := 0, state := .receiving }, ?_, rfl, ?_, ?_⟩
    · simp [processClientSend, hstate, hall]
    · exact ⟨Nat.le_refl 0, Nat.zero_le _, h.length, by simp [rest], fun _ => rfl⟩
    · rw [List.drop_of_length_le (by omega)]
      simp [rest]
  · have hrest : ({ cd with bufferOffset := cd.bufferOffset + count } : ConnectionData).rest =
        cd.rest.drop count := by
      simp only [rest, List.drop_drop]
    refine ⟨{ cd with bufferOffset := cd.bufferOffset + count }, ?_, rfl, ?_, hrest⟩
    · simp [processClientSend, hstate, hall]
    · refine ⟨by dsimp only; omega, h.size_le, h.length, ?_, h.empty⟩
      rw [hrest]
      refine ⟨fun _ hnil => ?_, fun _ => hstate⟩
      have hzero := congrArg List.length hnil
      rw [List.length_drop, List.length_nil] at hzero
      omega

/-- **What was received and is not yet sent is in the buffer** after `process_client_recv` again. -/
theorem Echo.recv (h : cd.Ok) (hstate : cd.state = .receiving) {ret : Recv} (hret : ret.Possible) :
    ∃ furtherProcessing cd', cd.processClientRecv ret = some (furtherProcessing, cd') ∧
      cd'.sock = cd.sock ∧
      ∀ received sent, Echo received sent cd → Echo (received ++ ret.bytes) sent cd' := by
  cases ret with
  | shutdown | error =>
    refine ⟨false, cd, by simp [processClientRecv, hstate], rfl, fun received sent hecho => ?_⟩
    rw [Recv.bytes, List.append_nil]
    exact hecho
  | data bytes =>
    obtain ⟨hne, hle⟩ := hret bytes rfl
    obtain ⟨cd', hcall, hsock, hok, hbefore, hafter⟩ := h.recv_data hstate hne hle
    refine ⟨true, cd', hcall, hsock, fun received sent hecho => ⟨hok, ?_⟩⟩
    rw [hecho.received_eq, hbefore, hafter, List.append_nil]
    rfl

/-- **What was received and is not yet sent is in the buffer** after `process_client_send` again. -/
theorem Echo.send (h : cd.Ok) (hstate : cd.state = .sending) {ret : Option ℕ}
    (hret : ret.getD 0 ≤ cd.rest.length) :
    ∃ furtherProcessing cd', cd.processClientSend ret = some (furtherProcessing, cd') ∧
      cd'.sock = cd.sock ∧ ∀ received sent, Echo received sent cd →
        Echo received (sent ++ cd.rest.take (ret.getD 0)) cd' := by
  cases ret with
  | none =>
    refine ⟨false, cd, by simp [processClientSend, hstate], rfl, fun received sent hecho => ?_⟩
    rw [Option.getD_none, List.take_zero, List.append_nil]
    exact hecho
  | some count =>
    obtain ⟨cd', hcall, hsock, hok, hrest⟩ := h.send_some hstate hret
    refine ⟨true, cd', hcall, hsock, fun received sent hecho => ⟨hok, ?_⟩⟩
    rw [hrest, List.append_assoc, Option.getD_some, List.take_append_drop]
    exact hecho.received_eq

end ExchangeLabs.EchoServer
