import Mathlib.Algebra.GroupWithZero.Nat
import Mathlib.Tactic.Common

/-!
# Counting over a list of threads

The threads of a program are a list; what a thread stands for is a number
(it holds the lock or not, it has so many signals left to give).  The invariants
of semaphores compare such sums with the values of the semaphores, so all they
need is how a sum changes when one thread moves.

## Main definitions

* `census f l` — the sum of `f` over `l`.

## Main results

* `census_set` — one thread moves.
* `eq_of_census_le_one` — at most one thread is where `f` is not zero.
-/

namespace ExchangeLabs

variable {α : Type*} {f g : α → ℕ} {l : List α} {i j : ℕ} {a b : α}

/-- The sum of `f` over the list `l`. -/
def census (f : α → ℕ) (l : List α) : ℕ := (l.map f).sum

@[simp] theorem census_nil (f : α → ℕ) : census f [] = 0 := rfl

@[simp] theorem census_cons (f : α → ℕ) (a : α) (l : List α) :
    census f (a :: l) = f a + census f l := by
  simp [census]

@[simp] theorem census_concat (f : α → ℕ) (l : List α) (a : α) :
    census f (l ++ [a]) = census f l + f a := by
  simp [census]

/-- **One thread moves**: its old number goes and its new one comes. -/
theorem census_set (f : α → ℕ) (hi : l[i]? = some a) (b : α) :
    census f (l.set i b) + f a = census f l + f b := by
  induction l generalizing i with
  | nil => cases hi
  | cons c l ih =>
    cases i with
    | zero =>
      cases hi
      simp only [List.set_cons_zero, census_cons]
      omega
    | succ i =>
      have := ih hi
      simp only [List.set_cons_succ, census_cons]
      omega

/-- One thread leaves. -/
theorem census_eraseIdx (f : α → ℕ) (hi : l[i]? = some a) :
    census f (l.eraseIdx i) + f a = census f l := by
  induction l generalizing i with
  | nil => cases hi
  | cons c l ih =>
    cases i with
    | zero =>
      cases hi
      rw [List.eraseIdx_cons_zero, census_cons]
      omega
    | succ i =>
      have := ih hi
      rw [List.eraseIdx_cons_succ, census_cons, census_cons]
      omega

/-- Who is at `j` after the thread `i` has moved. -/
theorem getElem?_set_cases (h : (l.set i a)[j]? = some b) :
    (j = i ∧ b = a) ∨ (j ≠ i ∧ l[j]? = some b) := by
  rw [List.getElem?_set] at h
  split_ifs at h with hij hlt
  · exact Or.inl ⟨hij.symm, (Option.some.inj h).symm⟩
  · exact Or.inr ⟨Ne.symm hij, h⟩

theorem le_census (f : α → ℕ) (hi : l[i]? = some a) : f a ≤ census f l := by
  induction l generalizing i with
  | nil => cases hi
  | cons c l ih =>
    rw [census_cons]
    cases i with
    | zero =>
      cases hi
      exact Nat.le_add_right _ _
    | succ i =>
      have := ih hi
      omega

theorem exists_of_census_pos (h : 0 < census f l) :
    ∃ (i : ℕ) (a : α), l[i]? = some a ∧ 0 < f a := by
  induction l with
  | nil => cases h
  | cons c l ih =>
    rw [census_cons] at h
    by_cases hc : 0 < f c
    · exact ⟨0, c, rfl, hc⟩
    · obtain ⟨i, a, hi, ha⟩ := ih (by omega)
      exact ⟨i + 1, a, hi, ha⟩

theorem census_mono (h : ∀ a, f a ≤ g a) (l : List α) : census f l ≤ census g l := by
  induction l with
  | nil => exact Nat.le_refl _
  | cons a l ih =>
    have := h a
    simp only [census_cons]
    omega

theorem census_add (f g : α → ℕ) (l : List α) :
    census (fun a => f a + g a) l = census f l + census g l := by
  induction l with
  | nil => rfl
  | cons a l ih =>
    simp only [census_cons, ih]
    omega

/-- Two threads that differ count both. -/
theorem add_le_census (hi : l[i]? = some a) (hj : l[j]? = some b) (hij : i ≠ j) :
    f a + f b ≤ census f l := by
  induction l generalizing i j with
  | nil => cases hi
  | cons c l ih =>
    rw [census_cons]
    cases i with
    | zero =>
      cases hi
      cases j with
      | zero => exact absurd rfl hij
      | succ j =>
        have : f b ≤ census f l := le_census f hj
        omega
    | succ i =>
      cases j with
      | zero =>
        cases hj
        have : f a ≤ census f l := le_census f hi
        omega
      | succ j =>
        have := ih hi hj (by omega)
        omega

/-- **Exclusion**: where the sum is at most one, one thread at most counts. -/
theorem eq_of_census_le_one (h : census f l ≤ 1) (hi : l[i]? = some a) (hj : l[j]? = some b)
    (ha : 0 < f a) (hb : 0 < f b) : i = j := by
  by_contra hij
  have := add_le_census (f := f) hi hj hij
  omega

end ExchangeLabs
