import Mathlib.Algebra.Order.Ring.Int
import Mathlib.Data.List.Basic
import Mathlib.Tactic.Common

/-!
# Slices with checked bounds

Indexing and reslicing of a list by integers, as a language with bounds checks
does it: an index outside the slice has no result, and the program that uses it
stops there.

## Main definitions

* `elemAt l i` — the element of `l` at the integer index `i`.
* `subslice l a b` — the elements of `l` from `a` up to but not including `b`.
-/

namespace ExchangeLabs

variable {α : Type*}

/-- The element of a slice at an integer index, if that is within its bounds. -/
def elemAt (l : List α) (i : ℤ) : Option α := if 0 ≤ i then l[i.toNat]? else none

/-- The part `[a, b)` of a slice, if `0 ≤ a ≤ b ≤ length`. -/
def subslice (l : List α) (a b : ℤ) : Option (List α) :=
  if 0 ≤ a ∧ a ≤ b ∧ b ≤ l.length then some ((l.take b.toNat).drop a.toNat) else none

theorem elemAt_of_nonneg {l : List α} {i : ℤ} (hi : 0 ≤ i) : elemAt l i = l[i.toNat]? :=
  if_pos hi

theorem subslice_of_le {l : List α} {a b : ℤ} (ha : 0 ≤ a) (hab : a ≤ b) (hb : b ≤ l.length) :
    subslice l a b = some ((l.take b.toNat).drop a.toNat) := if_pos ⟨ha, hab, hb⟩

/-- Reslicing to the end of the slice. -/
theorem subslice_length {l : List α} {a : ℤ} (ha : 0 ≤ a) (hb : a ≤ l.length) :
    subslice l a l.length = some (l.drop a.toNat) := by
  rw [subslice_of_le ha hb le_rfl, Int.toNat_natCast, List.take_length]

/-- Reslicing from the start of the slice. -/
theorem subslice_zero {l : List α} {b : ℤ} (h0 : 0 ≤ b) (hb : b ≤ l.length) :
    subslice l 0 b = some (l.take b.toNat) := by
  rw [subslice_of_le le_rfl h0 hb, Int.toNat_zero, List.drop_zero]

theorem length_of_subslice {l m : List α} {a b : ℤ} (h : subslice l a b = some m) :
    (m.length : ℤ) = b - a := by
  unfold subslice at h
  split at h
  · next hin =>
    cases h
    rw [List.length_drop, List.length_take]
    omega
  · cases h

/-- Where the elements of a subslice come from. -/
theorem elemAt_of_subslice {l m : List α} {a b : ℤ} (h : subslice l a b = some m) {j : ℕ} {x : α}
    (hx : m[j]? = some x) : elemAt l (a + j) = some x := by
  unfold subslice at h
  split at h
  · next hin =>
    cases h
    rw [List.getElem?_drop] at hx
    have hlt := (List.getElem?_eq_some_iff.mp hx).1
    rw [List.length_take] at hlt
    rw [List.getElem?_take_of_lt (by omega)] at hx
    rw [elemAt_of_nonneg (by omega), show (a + j).toNat = a.toNat + j by omega]
    exact hx
  · cases h

end ExchangeLabs
