import Mathlib.Algebra.BigOperators.Group.List.Basic
import Mathlib.Algebra.Order.Field.Rat
import Mathlib.Algebra.Order.Group.Unbundled.Abs
import Mathlib.Tactic.Linarith
import Mathlib.Tactic.Ring
import ExchangeLabs.Lib.Choices

/-!
# The reconstruction attack

The attack of `attack.py` on a database that answers sums with bounded noise: all sums
over non-empty sets of rows are asked once, and every assignment of the two conditions
whose own sums are as close to the answers as the noise allows is a candidate.

Arithmetic is exact, over an ordered field.  The perturbations that `add` draws are an
argument, one for each query; an index out of range and the exception in `fit` leave
without a result.

## Main definitions

* `DB`, `add`, `indexes`, `allSums`, `fit`, `attack` — the functions of the source.
* `hammingDistance` — the one of its test.

## Main results

* `length_filter_ne_le` — two assignments that are close on all sums agree on most rows.
* `attack_spec` — **the attack finds the database and nothing far from it.**
-/

namespace ExchangeLabs.Privacy

/-! ### Assignments that are close on all sums -/

section Disagreement

variable {K : Type*} [Field K] [LinearOrder K] [IsStrictOrderedRing K] {ι : Type*}

omit [IsStrictOrderedRing K] in
/-- If the sums over all sublists differ by at most `δ`, at most `δ` elements have the value one
in one of the assignments and zero in the other. -/
theorem length_filter_one_zero_le {l : List ι} {x y : ι → K} {δ : K}
    (h : ∀ t : List ι, t.Sublist l → |(t.map x).sum - (t.map y).sum| ≤ δ) :
    ((l.filter fun i => decide (x i = 1 ∧ y i = 0)).length : K) ≤ δ := by
  set t := l.filter fun i => decide (x i = 1 ∧ y i = 0) with ht
  have hvalues : ∀ i ∈ t, x i = 1 ∧ y i = 0 := by
    intro i hi
    exact of_decide_eq_true (List.mem_filter.mp hi).2
  have hx : (t.map x).sum = t.length := by
    rw [List.map_congr_left fun i hi => (hvalues i hi).1, List.map_const', List.sum_replicate,
      nsmul_one]
  have hy : (t.map y).sum = 0 := by
    rw [List.map_congr_left fun i hi => (hvalues i hi).2, List.map_const', List.sum_replicate,
      nsmul_zero]
  have hle := h t List.filter_sublist
  rw [hx, hy, sub_zero] at hle
  exact (le_abs_self _).trans hle

/-- The elements that pass exactly one of two tests. -/
theorem length_filter_eq_add {p q r : ι → Bool} {l : List ι}
    (h : ∀ i ∈ l, p i = (q i || r i) ∧ (q i && r i) = false) :
    (l.filter p).length = (l.filter q).length + (l.filter r).length := by
  induction l with
  | nil => rfl
  | cons i l ih =>
    obtain ⟨⟨hp, hqr⟩, hl⟩ := List.forall_mem_cons.mp h
    have ih := ih hl
    cases hq : q i <;> cases hr : r i <;>
      simp_all only [List.filter_cons, Bool.or_false, Bool.or_true, Bool.false_eq_true, if_true,
        if_false, List.length_cons, Bool.and_self, Bool.true_eq_false] <;> omega

/-- Two assignments of zeros and ones that are close on all sums differ in few places. -/
theorem length_filter_ne_le {l : List ι} {x y : ι → K} {δ : K}
    (hx : ∀ i ∈ l, x i = 0 ∨ x i = 1) (hy : ∀ i ∈ l, y i = 0 ∨ y i = 1)
    (h : ∀ t : List ι, t.Sublist l → |(t.map x).sum - (t.map y).sum| ≤ δ) :
    ((l.filter fun i => decide (x i ≠ y i)).length : K) ≤ 2 * δ := by
  have h' : ∀ t : List ι, t.Sublist l → |(t.map y).sum - (t.map x).sum| ≤ δ := by
    intro t ht
    rw [abs_sub_comm]
    exact h t ht
  have hsplit : (l.filter fun i => decide (x i ≠ y i)).length =
      (l.filter fun i => decide (x i = 1 ∧ y i = 0)).length +
        (l.filter fun i => decide (y i = 1 ∧ x i = 0)).length := by
    refine length_filter_eq_add fun i hi => ?_
    rcases hx i hi with hxi | hxi <;> rcases hy i hi with hyi | hyi <;> simp [hxi, hyi]
  rw [hsplit, Nat.cast_add, two_mul]
  exact add_le_add (length_filter_one_zero_le h) (length_filter_one_zero_le h')

end Disagreement

/-! ### The database -/

variable {K : Type*}

structure Row (K : Type*) where
  name : String
  /-- Zero if the patient does not have HIV, and one otherwise. -/
  hiv : K

structure DB (K : Type*) where
  secretRows : List (Row K)

namespace DB

def dbSize (db : DB K) : ℕ := db.secretRows.length

def names (db : DB K) : List String := db.secretRows.map Row.name

variable [Field K] [LinearOrder K]

/-- What `uniform(-noise, noise)` may return. -/
def Draw (noise : K) : Type _ := { draw : K // -noise ≤ draw ∧ draw ≤ noise }

/-- The sum of the rows with these indices, with the noise that was drawn. -/
def add (db : DB K) (noise : K) (draw : Draw noise) (indices : List ℕ) : Option K :=
  (indices.foldlM (fun s i => db.secretRows[i]?.map fun row => s + row.hiv) 0).map (· + draw.val)

end DB

/-! ### The attack -/

def comb (k : ℕ) (ns : List ℕ) : List (List ℕ) := combinations ns k

/-- All possible combinations of indexes: those with one element, those with two, and so on. -/
def indexes (dbSize : ℕ) : List (List ℕ) :=
  (List.range' 1 dbSize).flatMap fun r => comb r (List.range dbSize)

section Attack

open DB

variable [Field K] [LinearOrder K]

/-- The noisy sums, with one draw for each. -/
def allSums (db : DB K) (noise : K) (draws : ℕ → Draw noise) : Option (List K) :=
  (indexes db.dbSize).zipIdx.mapM fun query => db.add noise (draws query.2) query.1

def sumIndexes (candidate : List K) (idx : List ℕ) : Option K :=
  idx.foldlM (fun result val => candidate[val]?.map fun currentCondition =>
    result + currentCondition) 0

def allSumsNoNoise (candidate : List K) : Option (List K) :=
  (indexes candidate.length).mapM (sumIndexes candidate)

def generateCandidates (db : DB K) : List (List K) := product [0, 1] db.dbSize

/-- Whether no sum of the candidate is farther from the noisy one than the noise. -/
def fit (noiseMag : K) (results : List K) (candidate : List K) : Option Bool :=
  match allSumsNoNoise candidate with
  | some noNoisySum =>
    -- otherwise the lengths are not the same, and an exception is raised
    if noNoisySum.length = results.length then
      some ((results.zip noNoisySum).all fun record => !decide (noiseMag < |record.1 - record.2|))
    else none
  | none => none

def findCandidates (db : DB K) (noise : K) (draws : ℕ → Draw noise) : Option (List (List K)) :=
  (allSums db noise draws).bind fun sumsWithNoise =>
    (generateCandidates db).foldlM (fun result candidate =>
      (fit noise sumsWithNoise candidate).map fun fits =>
        if fits then result ++ [candidate] else result) []

/-- The candidates with the names attached. -/
def attack (db : DB K) (noise : K) (draws : ℕ → Draw noise) : Option (List (List (String × K))) :=
  (findCandidates db noise draws).map fun possibleCandidates =>
    possibleCandidates.map fun possibility => db.names.zip possibility

/-- The number of rows in which they differ. -/
def hammingDistance (ca cb : List K) : ℕ :=
  ((ca.zip cb).filter fun p => decide (p.1 ≠ p.2)).length

/-- What the database holds. -/
def trueAssignment (db : DB K) : List (String × K) :=
  db.secretRows.map fun row => (row.name, row.hiv)

end Attack

/-! ### The queries -/

/-- **Every non-empty set of rows is asked.** -/
theorem mem_indexes {n : ℕ} {idx : List ℕ} :
    idx ∈ indexes n ↔ idx.Sublist (List.range n) ∧ idx ≠ [] := by
  simp only [indexes, comb, List.mem_flatMap, List.mem_range'_1, mem_combinations]
  constructor
  · rintro ⟨r, ⟨hpos, -⟩, hsub, rfl⟩
    exact ⟨hsub, List.ne_nil_of_length_pos hpos⟩
  · rintro ⟨hsub, hne⟩
    have hle := hsub.length_le
    rw [List.length_range] at hle
    have hpos := List.length_pos_iff.mpr hne
    exact ⟨idx.length, ⟨hpos, by omega⟩, hsub, rfl⟩

theorem lt_of_mem_indexes {n : ℕ} {idx : List ℕ} (h : idx ∈ indexes n) : ∀ i ∈ idx, i < n := by
  intro i hi
  exact List.mem_range.mp ((mem_indexes.mp h).1.subset hi)

section Sums

open DB

variable [Field K] [LinearOrder K]

/-- The sum of the elements at these indexes. -/
def sumAt (values : List K) (idx : List ℕ) : K := (idx.map fun i => values.getD i 0).sum

omit [LinearOrder K] in
theorem sumAt_eq_foldl (values : List K) (idx : List ℕ) :
    idx.foldl (fun s i => s + values.getD i 0) 0 = sumAt values idx := by
  rw [sumAt, List.sum_eq_foldl, List.foldl_map]

omit [LinearOrder K] in
theorem sumIndexes_eq {candidate : List K} {idx : List ℕ} (h : ∀ i ∈ idx, i < candidate.length) :
    sumIndexes candidate idx = some (sumAt candidate idx) := by
  rw [← sumAt_eq_foldl]
  refine foldlM_eq_foldl (fun s i hi => ?_) 0
  rw [List.getD_eq_getElem?_getD, List.getElem?_eq_getElem (h i hi)]
  rfl

theorem add_eq {db : DB K} {noise : K} (draw : Draw noise) {idx : List ℕ}
    (h : ∀ i ∈ idx, i < db.dbSize) :
    db.add noise draw idx = some (sumAt (db.secretRows.map Row.hiv) idx + draw.val) := by
  rw [add, ← sumAt_eq_foldl]
  refine congrArg (Option.map _) (foldlM_eq_foldl (fun s i hi => ?_) 0)
  rw [List.getD_eq_getElem?_getD, List.getElem?_map, List.getElem?_eq_getElem (h i hi)]
  rfl

/-- The answer to a query. -/
def answer (db : DB K) (noise : K) (draws : ℕ → Draw noise) (query : List ℕ × ℕ) : K :=
  sumAt (db.secretRows.map Row.hiv) query.1 + (draws query.2).val

theorem allSums_eq (db : DB K) (noise : K) (draws : ℕ → Draw noise) :
    allSums db noise draws = some ((indexes db.dbSize).zipIdx.map (answer db noise draws)) :=
  mapM_eq_map fun query hquery => add_eq (draws query.2)
    (lt_of_mem_indexes (List.fst_mem_of_mem_zipIdx hquery))

omit [LinearOrder K] in
theorem allSumsNoNoise_eq (candidate : List K) :
    allSumsNoNoise candidate = some ((indexes candidate.length).map (sumAt candidate)) :=
  mapM_eq_map fun _ hidx => sumIndexes_eq (lt_of_mem_indexes hidx)

/-- Whether the candidate is close to all answers. -/
def closeToAll (db : DB K) (noise : K) (draws : ℕ → Draw noise) (candidate : List K) : Bool :=
  (indexes db.dbSize).zipIdx.all fun query =>
    !decide (noise < |answer db noise draws query - sumAt candidate query.1|)

/-- The noisy and the noise-free sums are in the same order. -/
theorem fit_eq {db : DB K} {noise : K} {draws : ℕ → Draw noise} {candidate : List K}
    (h : candidate.length = db.dbSize) :
    fit noise ((indexes db.dbSize).zipIdx.map (answer db noise draws)) candidate =
      some (closeToAll db noise draws candidate) := by
  unfold fit
  rw [allSumsNoNoise_eq, h]
  dsimp only
  rw [if_pos (by rw [List.length_map, List.length_map, List.length_zipIdx])]
  have hsame : (indexes db.dbSize).map (sumAt candidate) =
      (indexes db.dbSize).zipIdx.map fun query => sumAt candidate query.1 := by
    conv_lhs => rw [← List.zipIdx_map_fst 0 (indexes db.dbSize), List.map_map]
    rfl
  rw [hsame, List.zip_map', List.all_map]
  rfl

omit [LinearOrder K] in
theorem length_of_mem_generateCandidates {db : DB K} {candidate : List K}
    (h : candidate ∈ generateCandidates db) : candidate.length = db.dbSize :=
  (mem_product.mp h).1

/-- The candidates are the assignments that are close to all answers. -/
theorem findCandidates_eq (db : DB K) (noise : K) (draws : ℕ → Draw noise) :
    findCandidates db noise draws =
      some ((generateCandidates db).filter (closeToAll db noise draws)) := by
  unfold findCandidates
  rw [allSums_eq, Option.bind_some]
  have hfold := foldl_append_eq_filter (closeToAll db noise draws) (generateCandidates db) []
  rw [List.nil_append] at hfold
  rw [← hfold]
  refine foldlM_eq_foldl (fun result candidate hcandidate => ?_) []
  rw [fit_eq (length_of_mem_generateCandidates hcandidate)]
  rfl

omit [Field K] [LinearOrder K] in
theorem trueAssignment_eq_zip (db : DB K) :
    trueAssignment db = db.names.zip (db.secretRows.map Row.hiv) := by
  rw [trueAssignment, names, List.zip_map']

end Sums

/-! ### The attack -/

section Accuracy

open DB

variable [Field K] [LinearOrder K] [IsStrictOrderedRing K]

/-- The answers are as close to the true sums as the noise is small. -/
theorem closeToAll_true (db : DB K) (noise : K) (draws : ℕ → Draw noise) :
    closeToAll db noise draws (db.secretRows.map Row.hiv) = true := by
  refine List.all_eq_true.mpr fun query _ => ?_
  have hdraw : |(draws query.2).val| ≤ noise := abs_le.mpr (draws query.2).property
  have hsame : answer db noise draws query - sumAt (db.secretRows.map Row.hiv) query.1 =
      (draws query.2).val := by
    rw [answer, add_sub_cancel_left]
  rw [hsame, Bool.not_eq_true', decide_eq_false_iff_not]
  exact not_lt.mpr hdraw

/-- A candidate is close to the database on every set of rows. -/
theorem abs_sumAt_sub_le {db : DB K} {noise : K} {draws : ℕ → Draw noise} {candidate : List K}
    (h : closeToAll db noise draws candidate = true) {idx : List ℕ}
    (hidx : idx.Sublist (List.range db.dbSize)) :
    |sumAt (db.secretRows.map Row.hiv) idx - sumAt candidate idx| ≤ 2 * noise := by
  have hdraw : ∀ i, |(draws i).val| ≤ noise := fun i => abs_le.mpr (draws i).property
  by_cases hne : idx = []
  · -- no query is needed for the empty sum
    have hnoise := (abs_nonneg _).trans (hdraw 0)
    rw [hne]
    simpa [sumAt] using hnoise
  · obtain ⟨i, hi⟩ := List.mem_iff_getElem?.mp (mem_indexes.mpr ⟨hidx, hne⟩)
    have hquery : (idx, i) ∈ (indexes db.dbSize).zipIdx :=
      List.mk_mem_zipIdx_iff_getElem?.mpr hi
    have hclose := List.all_eq_true.mp h _ hquery
    rw [Bool.not_eq_true', decide_eq_false_iff_not, not_lt, answer] at hclose
    have hdraw := hdraw i
    rw [abs_le] at hclose hdraw ⊢
    constructor <;> linarith

omit [IsStrictOrderedRing K] in
theorem hammingDistance_eq {ca cb : List K} (h : cb.length = ca.length) :
    hammingDistance ca cb = ((List.range ca.length).filter fun i =>
      decide (ca.getD i 0 ≠ cb.getD i 0)).length := by
  have hzip : ca.zip cb = (List.range ca.length).map fun i => (ca.getD i 0, cb.getD i 0) := by
    refine List.ext_getElem (by simp [h]) fun i hi hi' => ?_
    have hlt : i < ca.length := by simpa using hi'
    have hlt' : i < cb.length := h.symm ▸ hlt
    simp [List.getElem?_eq_getElem hlt, List.getElem?_eq_getElem hlt']
  rw [hammingDistance, hzip, List.filter_map, List.length_map]
  rfl

/-- **Nothing far from the database is a candidate.** -/
theorem hammingDistance_le {db : DB K} (hhiv : ∀ row ∈ db.secretRows, row.hiv = 0 ∨ row.hiv = 1)
    {noise : K} {draws : ℕ → Draw noise} {candidate : List K}
    (hcandidate : candidate ∈ generateCandidates db)
    (h : closeToAll db noise draws candidate = true) :
    (hammingDistance (db.secretRows.map Row.hiv) candidate : K) ≤ 4 * noise := by
  obtain ⟨hlength, hvalues⟩ := mem_product.mp hcandidate
  have hsize : (db.secretRows.map Row.hiv).length = db.dbSize := List.length_map _
  have hbit : ∀ {l : List K} {i : ℕ}, (∀ x ∈ l, x = 0 ∨ x = 1) →
      l.getD i 0 = 0 ∨ l.getD i 0 = 1 := by
    intro l i hl
    rw [List.getD_eq_getElem?_getD]
    cases hget : l[i]? with
    | none => exact .inl rfl
    | some x => exact hl x (List.mem_of_getElem? hget)
  rw [hammingDistance_eq (hlength.trans hsize.symm), hsize]
  have hle := length_filter_ne_le
    (fun i _ => hbit (l := db.secretRows.map Row.hiv) (i := i) (List.forall_mem_map.mpr hhiv))
    (fun i _ => hbit (l := candidate) (i := i) fun x hx => by simpa using hvalues x hx)
    fun idx (hidx : idx.Sublist (List.range db.dbSize)) => abs_sumAt_sub_le h hidx
  calc _ ≤ 2 * (2 * noise) := hle
    _ = 4 * noise := by ring

/-- **The attack finds the database and nothing far from it**, whatever was drawn. -/
theorem attack_spec (db : DB K) (hhiv : ∀ row ∈ db.secretRows, row.hiv = 0 ∨ row.hiv = 1)
    (noise : K)
    (draws : ℕ → Draw noise) :
    ∃ result, attack db noise draws = some result ∧ trueAssignment db ∈ result ∧
      ∀ candidate ∈ result, candidate.map Prod.fst = db.names ∧
        (hammingDistance (db.secretRows.map Row.hiv) (candidate.map Prod.snd) : K) ≤ 4 * noise := by
  refine ⟨_, congrArg (Option.map _) (findCandidates_eq db noise draws), ?_, ?_⟩
  · rw [trueAssignment_eq_zip]
    refine List.mem_map_of_mem (List.mem_filter.mpr ⟨mem_product.mpr ⟨List.length_map _, ?_⟩,
      closeToAll_true db noise draws⟩)
    refine List.forall_mem_map.mpr fun row hrow => ?_
    simpa using hhiv row hrow
  · refine List.forall_mem_map.mpr fun possibility hpossibility => ?_
    obtain ⟨hmem, hclose⟩ := List.mem_filter.mp hpossibility
    have hlength := length_of_mem_generateCandidates hmem
    have hnames : db.names.length = db.dbSize := List.length_map _
    constructor
    · exact List.map_fst_zip (hnames.trans hlength.symm).le
    · rw [List.map_snd_zip (hlength.trans hnames.symm).le]
      exact hammingDistance_le hhiv hmem hclose

end Accuracy

/-- Three patients, and answers that are off by a half. -/
def threePatients : DB ℚ := ⟨[⟨"Alice", 1⟩, ⟨"Bob", 0⟩, ⟨"Charlie", 1⟩]⟩

theorem attack_spec_threePatients :
    ∃ result, attack threePatients (1 / 2) (fun i => ⟨if i % 2 = 0 then 1 / 2 else -1 / 2, by
        split <;> norm_num⟩) = some result ∧ trueAssignment threePatients ∈ result ∧
      ∀ candidate ∈ result, candidate.map Prod.fst = threePatients.names ∧
        (hammingDistance (threePatients.secretRows.map Row.hiv) (candidate.map Prod.snd) : ℚ) ≤
          4 * (1 / 2) :=
  attack_spec threePatients (by simp [threePatients]) _ _

end ExchangeLabs.Privacy
