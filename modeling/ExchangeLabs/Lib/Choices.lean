import Mathlib.Data.List.Sublists
import Mathlib.Tactic.Common

/-!
# Choices from a list

The combinations of the elements of a list and the words over a list of values, both in
lexicographic order, and loops whose body never fails.

## Main definitions

* `combinations xs k` — the sublists of `xs` with `k` elements.
* `product values n` — the words of length `n` over `values`.

## Main results

* `mem_combinations`, `mem_product`.
* `mapM_eq_map`, `foldlM_eq_foldl` — what a loop computes if its body never fails.
* `foldl_append_eq_filter` — a loop that collects some of the elements.
-/

namespace ExchangeLabs

variable {α β : Type*}

/-- The sublists with `k` elements, by the positions of their elements. -/
def combinations : List α → ℕ → List (List α)
  | _, 0 => [[]]
  | [], _ + 1 => []
  | x :: xs, k + 1 => (combinations xs k).map (x :: ·) ++ combinations xs (k + 1)

theorem mem_combinations {xs l : List α} {k : ℕ} :
    l ∈ combinations xs k ↔ l.Sublist xs ∧ l.length = k := by
  induction xs generalizing l k with
  | nil =>
    cases k with
    | zero =>
      simp only [combinations, List.mem_singleton, List.sublist_nil, List.length_eq_zero_iff,
        and_self]
    | succ k =>
      simp only [combinations, List.not_mem_nil, List.sublist_nil, false_iff, not_and]
      rintro rfl
      simp
  | cons x xs ih =>
    cases k with
    | zero =>
      simp only [combinations, List.mem_singleton, List.length_eq_zero_iff]
      refine ⟨?_, And.right⟩
      rintro rfl
      exact ⟨List.nil_sublist _, rfl⟩
    | succ k =>
      simp only [combinations, List.mem_append, List.mem_map, ih]
      constructor
      · rintro (⟨l', ⟨hsub, hlength⟩, rfl⟩ | ⟨hsub, hlength⟩)
        · exact ⟨hsub.cons_cons x, by rw [List.length_cons, hlength]⟩
        · exact ⟨hsub.cons x, hlength⟩
      · rintro ⟨hsub, hlength⟩
        cases hsub with
        | cons _ hsub => exact .inr ⟨hsub, hlength⟩
        | cons_cons _ hsub => exact .inl ⟨_, ⟨hsub, Nat.succ.inj hlength⟩, rfl⟩

/-- The words of length `n`; the last letter changes first. -/
def product (values : List α) : ℕ → List (List α)
  | 0 => [[]]
  | n + 1 => values.flatMap fun value => (product values n).map (value :: ·)

theorem mem_product {values l : List α} {n : ℕ} :
    l ∈ product values n ↔ l.length = n ∧ ∀ x ∈ l, x ∈ values := by
  induction n generalizing l with
  | zero =>
    simp only [product, List.mem_singleton, List.length_eq_zero_iff]
    refine ⟨?_, And.left⟩
    rintro rfl
    exact ⟨rfl, by simp⟩
  | succ n ih =>
    simp only [product, List.mem_flatMap, List.mem_map, ih]
    constructor
    · rintro ⟨value, hvalue, l', ⟨hlength, hall⟩, rfl⟩
      exact ⟨by rw [List.length_cons, hlength], List.forall_mem_cons.mpr ⟨hvalue, hall⟩⟩
    · rintro ⟨hlength, hall⟩
      cases l with
      | nil => cases hlength
      | cons x l =>
        obtain ⟨hx, hall⟩ := List.forall_mem_cons.mp hall
        exact ⟨x, hx, l, ⟨Nat.succ.inj hlength, hall⟩, rfl⟩

/-- A loop that appends the results of its body. -/
theorem mapM_eq_map {f : α → Option β} {g : α → β} {l : List α} (h : ∀ x ∈ l, f x = some (g x)) :
    l.mapM f = some (l.map g) := by
  induction l with
  | nil => rfl
  | cons x l ih =>
    obtain ⟨hx, hl⟩ := List.forall_mem_cons.mp h
    rw [List.mapM_cons, hx, ih hl]
    rfl

/-- A loop that adds up. -/
theorem foldlM_eq_foldl {f : β → α → Option β} {g : β → α → β} {l : List α}
    (h : ∀ b, ∀ x ∈ l, f b x = some (g b x)) (b : β) : l.foldlM f b = some (l.foldl g b) := by
  induction l generalizing b with
  | nil => rfl
  | cons x l ih =>
    have hx := h b x (List.mem_cons_self ..)
    rw [List.foldlM_cons, hx]
    exact ih (fun b y hy => h b y (List.mem_cons_of_mem _ hy)) _

/-- A loop that appends the elements that pass a test. -/
theorem foldl_append_eq_filter (p : α → Bool) (l result : List α) :
    l.foldl (fun result x => if p x then result ++ [x] else result) result =
      result ++ l.filter p := by
  induction l generalizing result with
  | nil => simp
  | cons x l ih =>
    rw [List.foldl_cons, ih, List.filter_cons]
    split
    · rw [List.append_assoc]
      rfl
    · rfl

end ExchangeLabs
