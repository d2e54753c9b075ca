import Mathlib.Data.List.Sort
import Mathlib.Data.String.Basic
import ExchangeLabs.Porcupine.Operations

/-!
# The model of the key/value store

`models/kv.go`: the value of one key, and the partition of a history into the histories of its
keys.

## Main definitions

* `KvInput`, `KvOutput`, `kvStep`, `kvPartition`, `KvModel` — the model.
* `kvStore` — the store of all keys: what the histories are about.

## Main results

* `kvStore_eq_byKey` — the store has one value for every key.
* `linearizable_kvPartition_iff` — **a history of the store is linearizable if and only if every
  part of it is a linearizable history of one value.**
-/

namespace ExchangeLabs.Porcupine

open ExchangeLabs.Linearization

structure KvInput where
  /-- 0 => get, 1 => put, 2 => append. -/
  op : UInt8
  key : String
  value : String
  deriving DecidableEq, Inhabited

structure KvOutput where
  value : String
  deriving DecidableEq, Inhabited

/-- The keys, sorted. -/
def kvKeys (history : List (Operation KvInput KvOutput)) : List String :=
  (history.map fun v => v.input.key).dedup.insertionSort (· ≤ ·)

def kvPartition (history : List (Operation KvInput KvOutput)) :
    List (List (Operation KvInput KvOutput)) :=
  (kvKeys history).map fun k => history.filter fun v => v.input.key = k

def kvStep (state : String) (inp : KvInput) (out : KvOutput) : Bool × String :=
  if inp.op = 0 then (out.value == state, state)
  else if inp.op = 1 then (true, inp.value)
  else (true, state ++ inp.value)

def KvModel : Model String KvInput KvOutput := fillDefault (some kvPartition) "" kvStep none

/-- The store of all keys: a get reads the value of its key, a put replaces it, and an append
adds to it. -/
def kvStore (store : String → String) (v : Operation KvInput KvOutput) :
    Option (String → String) :=
  if v.input.op = 0 then
    if v.output.value = store v.input.key then some store else none
  else if v.input.op = 1 then some (Function.update store v.input.key v.input.value)
  else some (Function.update store v.input.key (store v.input.key ++ v.input.value))

/-- What counts as equal is equal, unless the model says otherwise. -/
theorem equalSound_fillDefault {S I O : Type} [DecidableEq S]
    (partition : Option (List (Operation I O) → List (List (Operation I O)))) (init : S)
    (step : S → I → O → Bool × S) : EqualSound (fillDefault partition init step none) := by
  intro s t hst i o hok
  obtain rfl : s = t := eq_of_beq hst
  exact ⟨hok, beq_self_eq_true _⟩

/-- The store has one value for every key. -/
theorem kvStore_eq_byKey :
    kvStore = byKey (fun v : Operation KvInput KvOutput => v.input.key) (exec KvModel) := by
  funext store v
  by_cases hget : v.input.op = 0
  · by_cases hvalue : v.output.value = store v.input.key
    · simp [kvStore, byKey, exec, KvModel, fillDefault, kvStep, hget, hvalue]
    · simp [kvStore, byKey, exec, KvModel, fillDefault, kvStep, hget, hvalue]
  · by_cases hput : v.input.op = 1
    · simp [kvStore, byKey, exec, KvModel, fillDefault, kvStep, hput]
    · simp [kvStore, byKey, exec, KvModel, fillDefault, kvStep, hget, hput]

theorem mem_kvKeys {history : List (Operation KvInput KvOutput)} {k : String} :
    k ∈ kvKeys history ↔ ∃ v ∈ history, v.input.key = k := by
  rw [kvKeys, List.mem_insertionSort, List.mem_dedup, List.mem_map]

/-- **A history of the store** is linearizable if and only if every part of it is. -/
theorem linearizable_kvPartition_iff {history : List (Operation KvInput KvOutput)}
    (htime : ∀ v ∈ history, v.call ≤ v.ret) :
    Linearizable (fun a b => a.ret < b.call) kvStore (fun _ => "") history ↔
      ∀ part ∈ kvPartition history,
        Linearizable (fun a b => a.ret < b.call) (exec KvModel) KvModel.init part := by
  rw [kvStore_eq_byKey, linearizable_byKey_iff htime]
  constructor
  · intro h part hpart
    obtain ⟨k, -, rfl⟩ := List.mem_map.mp hpart
    exact h k
  · intro h k
    by_cases hk : k ∈ kvKeys history
    · exact h _ (List.mem_map.mpr ⟨k, hk, rfl⟩)
    · -- there is no operation on the key
      have hnil : atKey (fun v : Operation KvInput KvOutput => v.input.key) k history = [] := by
        refine List.filter_eq_nil_iff.mpr fun v hv => ?_
        have hne := fun heq => hk (mem_kvKeys.mpr ⟨v, hv, heq⟩)
        simpa using hne
      rw [hnil]
      exact ⟨[], linearizes_nil⟩

end ExchangeLabs.Porcupine
