import Mathlib.Algebra.BigOperators.Group.Finset.Basic
import Mathlib.Data.Finset.Card
import Mathlib.Data.Finset.Range
import Mathlib.Data.Nat.Count

/-!
# Bit sets of the linearizability checker

`bitset.go`: a set of operation numbers as a slice of words of 64 bits, and that it is one.

## Main definitions

* `Bitset` and its methods `set`, `clear`, `get`, `popcnt`, `hash`, `equals`.
* `Represents n S b` — `b` is the set `S` of numbers below `n`.

## Main results

* `Represents.set`, `Represents.clear`, `Represents.popcnt`, `Represents.equals_iff` — what
  the methods do to the set.
-/

namespace ExchangeLabs.Porcupine

/-- `bitset`: bits 0-63 are in the first word, the next are in the second one, etc. -/
abbrev Bitset := List (BitVec 64)

/-- How many words `bits` bits need. -/
def chunks (bits : ℕ) : ℕ := bits / 64 + if bits % 64 ≠ 0 then 1 else 0

def newBitset (bits : ℕ) : Bitset := List.replicate (chunks bits) 0

/-- The word of a bit and the bit in it. -/
def bitsetIndex (pos : ℕ) : ℕ × ℕ := (pos / 64, pos % 64)

/-- `bits.OnesCount64`. -/
def onesCount (v : BitVec 64) : ℕ := (List.range 64).countP v.getLsbD

namespace Bitset

/-- Change the word of a bit; there is no result if the index is out of range. -/
def modifyWord (b : Bitset) (pos : ℕ) (f : BitVec 64 → BitVec 64 → BitVec 64) : Option Bitset :=
  let (major, minor) := bitsetIndex pos
  if major < b.length then some (b.modify major fun v => f v (1#64 <<< minor)) else none

def set (b : Bitset) (pos : ℕ) : Option Bitset := b.modifyWord pos fun v bit => v ||| bit

def clear (b : Bitset) (pos : ℕ) : Option Bitset := b.modifyWord pos fun v bit => v &&& ~~~bit

def get (b : Bitset) (pos : ℕ) : Option Bool :=
  let (major, minor) := bitsetIndex pos
  b[major]?.map fun v => v &&& (1#64 <<< minor) != 0

def popcnt (b : Bitset) : ℕ := b.foldl (fun total v => total + onesCount v) 0

def hash (b : Bitset) : BitVec 64 := b.foldl (fun hash v => hash ^^^ v) (BitVec.ofNat 64 b.popcnt)

def equals (b b2 : Bitset) : Bool :=
  b.length == b2.length && (List.range b.length).all fun i => b[i]? == b2[i]?

end Bitset

/-! ### Single bits -/

variable {n p q : ℕ} {S S' : Finset ℕ} {b b' : Bitset} {v : BitVec 64}

theorem lt_chunks_mul (h : p < n) : p < 64 * chunks n := by
  unfold chunks
  split <;> omega

theorem getLsbD_bit (hp : p < 64) (q : ℕ) : (1#64 <<< p).getLsbD q = decide (q = p) := by
  rw [← BitVec.twoPow_eq, BitVec.getLsbD_twoPow]
  simp only [hp, decide_true, Bool.true_and]
  exact decide_eq_decide.mpr eq_comm

theorem and_bit_ne_zero (hp : p < 64) : (v &&& (1#64 <<< p) != 0) = v.getLsbD p := by
  have hone : BitVec.twoPow 64 p ≠ 0 := by
    intro hzero
    have hbit := congrArg (fun w => BitVec.getLsbD w p) hzero
    simp [hp] at hbit
  rw [← BitVec.twoPow_eq, BitVec.and_twoPow]
  cases v.getLsbD p with
  | false => simp
  | true => simpa using hone

namespace Bitset

theorem get_eq (b : Bitset) (pos : ℕ) :
    b.get pos = b[pos / 64]?.map fun v => v.getLsbD (pos % 64) := by
  unfold get bitsetIndex
  dsimp only
  congr 1
  funext v
  exact and_bit_ne_zero (Nat.mod_lt _ (by decide))

/-- Only one bit changes, and the length does not. -/
theorem exists_modifyWord {f : BitVec 64 → BitVec 64 → BitVec 64} {g : Bool → Bool}
    (hf : ∀ v q, (f v (1#64 <<< (p % 64))).getLsbD q =
      if q = p % 64 then g (v.getLsbD q) else v.getLsbD q) (hp : p < 64 * b.length) :
    ∃ b', b.modifyWord p f = some b' ∧ b'.length = b.length ∧
      ∀ q, b'.get q = if q = p then (b.get q).map g else b.get q := by
  have hmajor : p / 64 < b.length := by omega
  refine ⟨_, if_pos hmajor, List.length_modify .., fun q => ?_⟩
  rw [get_eq, get_eq, List.getElem?_modify]
  -- the word of the bit, in which only this bit changes, or another word
  by_cases hword : p / 64 = q / 64
  · simp only [hword, if_true]
    cases b[q / 64]? with
    | none => simp
    | some v =>
      have hbit : (f v (1#64 <<< (p % 64))).getLsbD (q % 64) = _ := hf v (q % 64)
      by_cases hq : q = p
      · subst hq
        simpa using hbit
      · rw [if_neg (show q % 64 ≠ p % 64 by omega)] at hbit
        simpa [hq] using hbit
  · have hq : q ≠ p := fun heq => hword (by rw [heq])
    simp [hword, hq]

/-- Bit sets of one length with the same bits are equal. -/
theorem ext_get (hlength : b.length = b'.length) (h : ∀ p < 64 * b.length, b.get p = b'.get p) :
    b = b' := by
  refine List.ext_getElem hlength fun i hi hi' => BitVec.eq_of_getLsbD_eq fun j hj => ?_
  have hij := h (64 * i + j) (by omega)
  have hdiv : (64 * i + j) / 64 = i := by omega
  have hmod : (64 * i + j) % 64 = j := by omega
  rw [get_eq, get_eq, hdiv, hmod, List.getElem?_eq_getElem hi, List.getElem?_eq_getElem hi'] at hij
  simpa using hij

theorem equals_iff : b.equals b' = true ↔ b = b' := by
  unfold equals
  constructor
  · intro h
    simp only [Bool.and_eq_true, beq_iff_eq, List.all_eq_true, List.mem_range] at h
    obtain ⟨hlength, hwords⟩ := h
    refine List.ext_getElem? fun i => ?_
    by_cases hi : i < b.length
    · exact hwords i hi
    · rw [List.getElem?_eq_none (by omega), List.getElem?_eq_none (by omega)]
  · rintro rfl
    simp

end Bitset

/-! ### Bit sets are sets -/

/-- `b` is the set `S` of numbers below `n`. -/
structure Represents (n : ℕ) (S : Finset ℕ) (b : Bitset) : Prop where
  length : b.length = chunks n
  lt : ∀ p ∈ S, p < n
  get : ∀ p < 64 * b.length, b.get p = some (decide (p ∈ S))

theorem represents_newBitset (n : ℕ) : Represents n ∅ (newBitset n) where
  length := List.length_replicate
  lt := fun p hp => absurd hp (Finset.notMem_empty p)
  get := by
    intro p hp
    have hword : p / 64 < chunks n := by
      rw [newBitset, List.length_replicate] at hp
      omega
    rw [Bitset.get_eq, newBitset, List.getElem?_replicate, if_pos hword]
    simp

/-- **A number is added.** -/
theorem Represents.set (h : Represents n S b) (hp : p < n) :
    ∃ b', b.set p = some b' ∧ Represents n (insert p S) b' := by
  obtain ⟨b', hset, hlength, hget⟩ := Bitset.exists_modifyWord (b := b) (p := p)
    (f := fun v bit => v ||| bit) (g := fun _ => true) (fun v q => by
      rw [BitVec.getLsbD_or, getLsbD_bit (Nat.mod_lt _ (by decide))]
      by_cases hq : q = p % 64 <;> simp [hq]) (h.length ▸ lt_chunks_mul hp)
  refine ⟨b', hset, hlength.trans h.length, ?_, fun q hq => ?_⟩
  · exact Finset.forall_mem_insert .. |>.mpr ⟨hp, h.lt⟩
  · rw [hget, h.get q (hlength ▸ hq)]
    by_cases hqp : q = p <;> simp [hqp]

/-- **A number is removed.** -/
theorem Represents.clear (h : Represents n S b) (hp : p < n) :
    ∃ b', b.clear p = some b' ∧ Represents n (S.erase p) b' := by
  obtain ⟨b', hclear, hlength, hget⟩ := Bitset.exists_modifyWord (b := b) (p := p)
    (f := fun v bit => v &&& ~~~bit) (g := fun _ => false) (fun v q => by
      rw [BitVec.getLsbD_and, BitVec.getLsbD_not, getLsbD_bit (Nat.mod_lt _ (by decide))]
      by_cases hq : q = p % 64
      · simp [hq]
      · by_cases hq' : q < 64
        · simp [hq, hq']
        · simp [hq, BitVec.getLsbD_of_ge v q (by omega)]) (h.length ▸ lt_chunks_mul hp)
  refine ⟨b', hclear, hlength.trans h.length, fun q hq => h.lt q (Finset.mem_of_mem_erase hq),
    fun q hq => ?_⟩
  rw [hget, h.get q (hlength ▸ hq)]
  by_cases hqp : q = p <;> simp [hqp]

/-- **Bit sets are equal if and only if the sets are.** -/
theorem Represents.equals_iff (h : Represents n S b) (h' : Represents n S' b') :
    b.equals b' = true ↔ S = S' := by
  rw [Bitset.equals_iff]
  constructor
  · rintro rfl
    ext p
    -- the bits say who is in the sets below `n`, and nobody is above
    by_cases hp : p < n
    · have hget := h.get p (h.length ▸ lt_chunks_mul hp)
      rw [h'.get p (h.length ▸ lt_chunks_mul hp)] at hget
      exact (decide_eq_decide.mp (Option.some.inj hget)).symm
    · exact iff_of_false (fun hmem => hp (h.lt p hmem)) fun hmem => hp (h'.lt p hmem)
  · rintro rfl
    have hlength : b.length = b'.length := h.length.trans h'.length.symm
    refine Bitset.ext_get hlength fun p hp => ?_
    rw [h.get p hp, h'.get p (hlength ▸ hp)]

/-! ### How many bits are set -/

namespace Bitset

theorem popcnt_cons (v : BitVec 64) (b : Bitset) : popcnt (v :: b) = onesCount v + b.popcnt := by
  -- the loop of `popcnt` adds to what it has
  have hfrom : ∀ (b : Bitset) (total : ℕ), b.foldl (fun total v => total + onesCount v) total =
      total + b.popcnt := by
    intro b
    induction b with
    | nil =>
      intro total
      rfl
    | cons v b ih =>
      intro total
      rw [popcnt, List.foldl_cons, List.foldl_cons, ih, ih]
      omega
  rw [popcnt, List.foldl_cons, hfrom]
  omega

theorem get_cons_of_lt (v : BitVec 64) (b : Bitset) (hp : p < 64) :
    get (v :: b) p = some (v.getLsbD p) := by
  rw [get_eq, Nat.div_eq_of_lt hp, Nat.mod_eq_of_lt hp]
  rfl

theorem get_cons_add (v : BitVec 64) (b : Bitset) (p : ℕ) : get (v :: b) (64 + p) = b.get p := by
  have hdiv : (64 + p) / 64 = p / 64 + 1 := by omega
  have hmod : (64 + p) % 64 = p % 64 := by omega
  rw [get_eq, get_eq, hdiv, hmod, List.getElem?_cons_succ]

/-- The number of words with their bits is the number of numbers. -/
theorem count_get (b : Bitset) : Nat.count (fun p => b.get p = some true) (64 * b.length) =
    b.popcnt := by
  induction b with
  | nil => rfl
  | cons v b ih =>
    rw [List.length_cons, Nat.mul_succ, Nat.add_comm, Nat.count_add, popcnt_cons, ← ih]
    congr 1
    · -- the bits of the first word, and those of the other words
      refine List.countP_congr fun p hp => ?_
      have hget := get_cons_of_lt v b (List.mem_range.mp hp)
      simp [hget]
    · simp only [get_cons_add]

end Bitset

/-- **The number of bits is the size of the set.** -/
theorem Represents.popcnt (h : Represents n S b) : b.popcnt = S.card := by
  rw [← Bitset.count_get, Nat.count_eq_card_filter_range]
  congr 1
  ext p
  rw [Finset.mem_filter, Finset.mem_range]
  constructor
  · rintro ⟨hp, hget⟩
    rw [h.get p hp] at hget
    simpa using hget
  · intro hp
    have hlt : p < 64 * b.length := h.length ▸ lt_chunks_mul (h.lt p hp)
    exact ⟨hlt, by rw [h.get p hlt, decide_eq_true hp]⟩

end ExchangeLabs.Porcupine
