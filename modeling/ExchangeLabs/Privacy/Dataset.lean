import Mathlib.Algebra.Order.Field.Rat
import Mathlib.Algebra.Order.Group.Unbundled.Abs
import Mathlib.Logic.Function.Basic
import Mathlib.Tactic.Common

/-!
# Datasets and their transformations

The datasets of `core.py` and the budget-free transformations of `DP_DSL`, with
the values and sensitivities that its measurements hand to the noise.  Arithmetic
is exact, and the functions that a caller passes in are total and pure.

## Main definitions

* `Dataset` — rows with a stability, which is at least one.
* `filter`, `map`, `union`, `intersect`, `groupBy`, `part` — the transformations.
* `trueCount`, `trueSum`, `countSensitivity`, `sumSensitivity` — what `count` and
  `sum` add noise to, and how much of it.
-/

namespace ExchangeLabs.Privacy

/-- `ConcreteDataset`; its constructor raises on a stability below one. -/
structure Dataset (T : Type) where
  data : List T
  stability : ℕ
  one_le : 1 ≤ stability

variable {T U K : Type}

/-- `create_dataset` with its default stability. -/
def createDataset (data : List T) : Dataset T where
  data := data
  stability := 1
  one_le := le_rfl

namespace Dataset

/-- `_create_new`, for a stability that cannot make it raise. -/
def createNew (newData : List U) (newStability : ℕ) (h : 1 ≤ newStability) : Dataset U where
  data := newData
  stability := newStability
  one_le := h

/-! ### Transformations -/

def filter (predicate : T → Bool) (dataset : Dataset T) : Dataset T :=
  createNew (dataset.data.filter predicate) dataset.stability dataset.one_le

def map (func : T → U) (dataset : Dataset T) : Dataset U :=
  createNew (dataset.data.map func) dataset.stability dataset.one_le

def union (dataset1 dataset2 : Dataset T) : Dataset T :=
  createNew (dataset1.data ++ dataset2.data) (dataset1.stability + dataset2.stability)
    (le_add_right dataset1.one_le)

/-- Every row of the first dataset whose value is somewhere in the second. -/
def intersect [DecidableEq T] (dataset1 dataset2 : Dataset T) : Dataset T :=
  createNew (dataset1.data.filter fun item => decide (item ∈ dataset2.data))
    (dataset1.stability + dataset2.stability) (le_add_right dataset1.one_le)

/-- One turn of the loop of `group_by`: the groups, in the order of their first
rows, with the next row added. -/
def addToGroup [DecidableEq K] (key : K) (item : T) : List (K × List T) → List (K × List T)
  | [] => [(key, [item])]
  | (k, group) :: groups =>
    if k = key then (k, group ++ [item]) :: groups else (k, group) :: addToGroup key item groups

/-- The groups of `group_by`. -/
def groups [DecidableEq K] (keyFunc : T → K) (data : List T) : List (K × List T) :=
  data.foldl (fun groups item => addToGroup (keyFunc item) item groups) []

def groupBy [DecidableEq K] (keyFunc : T → K) (dataset : Dataset T) : Dataset (K × List T) :=
  createNew (groups keyFunc dataset.data) (2 * dataset.stability)
    (dataset.one_le.trans (Nat.le_mul_of_pos_left _ two_pos))

/-- The `buckets` of `partition`, by the rows of a key among `keys`. -/
def buckets [DecidableEq K] (keys : List K) (classifier : T → K) (data : List T) : K → List T :=
  data.foldl (fun buckets item =>
    let k := classifier item
    if k ∈ keys then Function.update buckets k (buckets k ++ [item]) else buckets) fun _ => []

/-- The dataset that `partition` hands to its computation for the key `k`. -/
def part [DecidableEq K] (keys : List K) (classifier : T → K) (dataset : Dataset T) (k : K) :
    Dataset T :=
  createNew (buckets keys classifier dataset.data k) dataset.stability dataset.one_le

/-! ### Measurements without their noise -/

/-- The value that `count` adds noise to. -/
def trueCount (dataset : Dataset T) : ℚ := dataset.data.length

/-- The sensitivity that `count` passes to the noise. -/
def countSensitivity (dataset : Dataset T) : ℚ := 1 * dataset.stability

/-- The value that `sum` adds noise to. -/
def trueSum (dataset : Dataset ℚ) (lowerBound upperBound : ℚ) : ℚ :=
  dataset.data.foldl (fun trueSum item => trueSum + min upperBound (max lowerBound item)) 0

/-- The sensitivity that `sum` passes to the noise. -/
def sumSensitivity (dataset : Dataset ℚ) (lowerBound upperBound : ℚ) : ℚ :=
  dataset.stability * max |lowerBound| |upperBound|

end Dataset

end ExchangeLabs.Privacy
