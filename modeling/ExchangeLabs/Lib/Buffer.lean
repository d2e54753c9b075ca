import Mathlib.Data.List.Induction
import Mathlib.Tactic.Common

/-!
# Buffers of a fixed size

A buffer is the list of its cells.  An access outside of it is undefined, so that the
operations return `none` there.

## Main definitions

* `put str i c` — `str[i] = c`.
* `swap str j k` — the two cells are exchanged.
* `reverseFront str i` — the loop that turns the first `i` cells round in place.
* `shiftDown str i last` — the loop that moves the cells behind `i` down.

## Main results

* `put_append`, `put_end` — a write at the border between two parts.
* `reverseFront_append` — the loop reverses.
* `shiftDown_eq`, `shiftDown_subset` — the loop takes one cell out, and brings in no other.
-/

namespace ExchangeLabs.Buffer

variable {α : Type*}

/-! ### Cells -/

/-- `str[i] = c` -/
def put (str : List α) (i : ℕ) (c : α) : Option (List α) :=
  if i < str.length then some (str.set i c) else none

/-- `temp = str[j]; str[j] = str[k]; str[k] = temp` -/
def swap (str : List α) (j k : ℕ) : Option (List α) := do
  let temp ← str[j]?
  let other ← str[k]?
  let str ← put str j other
  put str k temp

theorem put_of_lt {str : List α} {i : ℕ} (h : i < str.length) (c : α) :
    put str i c = some (str.set i c) := if_pos h

theorem put_of_length_le {str : List α} {i : ℕ} (h : str.length ≤ i) (c : α) :
    put str i c = none := if_neg (by omega)

@[simp] theorem put_append (front : List α) (c d : α) (rest : List α) :
    put (front ++ c :: rest) front.length d = some (front ++ d :: rest) := by
  rw [put_of_lt (by simp), List.set_append, if_neg (by omega), Nat.sub_self]
  rfl

/-- A write behind what has been written. -/
theorem put_end (front rest : List α) (c : α) :
    put (front ++ rest) front.length c =
      if rest = [] then none else some (front ++ [c] ++ rest.drop 1) := by
  cases rest with
  | nil =>
    rw [List.append_nil]
    exact put_of_length_le (Nat.le_refl _) c
  | cons d rest => simp

/-- The first and the last cell of a part are exchanged. -/
theorem swap_append (front : List α) (a : α) (mid : List α) (b : α) (rest : List α) :
    swap (front ++ a :: (mid ++ b :: rest)) front.length (front.length + mid.length + 1) =
      some (front ++ b :: (mid ++ a :: rest)) := by
  have hlast (c : α) (rest : List α) : front ++ c :: (mid ++ rest) =
      (front ++ c :: mid) ++ rest := by
    simp
  have hlength (c : α) : front.length + mid.length + 1 = (front ++ c :: mid).length := by
    rw [List.length_append, List.length_cons]
    omega
  have hfirst : (front ++ a :: (mid ++ b :: rest))[front.length]? = some a := by simp
  have hsecond : (front ++ a :: (mid ++ b :: rest))[front.length + mid.length + 1]? = some b := by
    rw [hlast, hlength a, List.getElem?_append_right (Nat.le_refl _), Nat.sub_self]
    rfl
  unfold swap
  rw [hfirst, hsecond]
  simp only [Option.bind_eq_bind, Option.bind_some, put_append]
  rw [hlast, hlength b, put_append, ← hlast]

/-! ### In-place reversal -/

/-- The loop `for (int j = 0; j < i / 2; j++)` that exchanges the cells `j` and `i - j - 1`. -/
def reverseFront (str : List α) (i : ℕ) : Option (List α) :=
  (List.range' 0 (i / 2)).foldlM (fun str j => swap str j (i - j - 1)) str

/-- The turns from the cell `front.length` on, when as many cells behind `mid` are done. -/
theorem foldlM_swap (mid : List α) : ∀ front back rest : List α, front.length = back.length →
    (List.range' front.length (mid.length / 2)).foldlM
      (fun str j => swap str j (front.length + mid.length + back.length - j - 1))
      (front ++ (mid ++ (back ++ rest))) = some (front ++ (mid.reverse ++ (back ++ rest))) := by
  -- from both ends: one turn exchanges the first and the last cell of `mid`
  induction mid using List.bidirectionalRec with
  | nil =>
    intro front back rest _
    simp
  | singleton a =>
    intro front back rest _
    simp
  | cons_append a mid b ih =>
    intro front back rest hlen
    have hturns : (a :: (mid ++ [b])).length / 2 = mid.length / 2 + 1 := by
      simp only [List.length_cons, List.length_append, List.length_nil]
      omega
    have hindex : front.length + (a :: (mid ++ [b])).length + back.length - front.length - 1 =
        front.length + mid.length + 1 := by
      simp only [List.length_cons, List.length_append, List.length_nil]
      omega
    rw [hturns, List.range'_succ, List.foldlM_cons, hindex]
    have hswap := swap_append front a mid b (back ++ rest)
    have hcells : front ++ (a :: (mid ++ [b]) ++ (back ++ rest)) =
        front ++ a :: (mid ++ b :: (back ++ rest)) := by simp
    rw [hcells, hswap]
    have hrest := ih (front ++ [b]) (a :: back) rest (by simp [hlen])
    have hsum : (front ++ [b]).length + mid.length + (a :: back).length =
        front.length + (a :: (mid ++ [b])).length + back.length := by
      simp only [List.length_cons, List.length_append, List.length_nil]
      omega
    rw [hsum] at hrest
    simpa using hrest

/-- **The loop reverses** the first cells and leaves the others. -/
theorem reverseFront_append (front rest : List α) :
    reverseFront (front ++ rest) front.length = some (front.reverse ++ rest) := by
  simpa [reverseFront] using foldlM_swap front [] [] rest rfl

/-! ### Closing a gap -/

/-- The loop `for (int j = i; j < last; j++)` that sets the cell `j` to the cell `j + 1`. -/
def shiftDown (str : List α) (i last : ℕ) : Option (List α) :=
  (List.range' i (last - i)).foldlM (fun str j => str[j + 1]?.bind (put str j)) str

/-- The turns from the cell `front.length` on. -/
theorem foldlM_shift (mid : List α) : ∀ (front : List α) (c : α) (rest : List α),
    (List.range' front.length mid.length).foldlM (fun str j => str[j + 1]?.bind (put str j))
      (front ++ c :: (mid ++ rest)) = some (front ++ (mid ++ mid.getLast?.getD c :: rest)) := by
  induction mid with
  | nil =>
    intro front c rest
    rfl
  | cons d mid ih =>
    intro front c rest
    have hread : (front ++ c :: (d :: mid ++ rest))[front.length + 1]? = some d := by simp
    rw [List.length_cons, List.range'_succ, List.foldlM_cons, hread, Option.bind_some, put_append]
    have hrest := ih (front ++ [d]) d rest
    rw [List.length_append, List.length_singleton] at hrest
    cases mid with
    | nil => simp
    | cons e mid => simpa [List.getLast?_cons] using hrest

/-- **The loop takes one cell out** of the first ones, and leaves the number of cells as it is. -/
theorem shiftDown_eq {str : List α} {i last : ℕ} (hi : i ≤ last) (hlast : last < str.length) :
    ∃ str', shiftDown str i last = some str' ∧ str'.length = str.length ∧
      str'.take last = (str.take (last + 1)).eraseIdx i := by
  -- `c` is the cell that is closed over, and `mid` moves down by one
  obtain ⟨front, c, mid, rest, rfl, rfl, hmid⟩ :
      ∃ front c mid rest, str = front ++ c :: (mid ++ rest) ∧ front.length = i ∧
        mid.length = last - i := by
    refine ⟨str.take i, str[i], (str.drop (i + 1)).take (last - i),
      (str.drop (i + 1)).drop (last - i), ?_, ?_, ?_⟩
    · rw [List.take_append_drop, List.getElem_cons_drop, List.take_append_drop]
    · rw [List.length_take]
      omega
    · rw [List.length_take, List.length_drop]
      omega
  obtain rfl : last = front.length + mid.length := by omega
  refine ⟨front ++ (mid ++ mid.getLast?.getD c :: rest), ?_, ?_, ?_⟩
  · unfold shiftDown
    rw [← hmid]
    exact foldlM_shift mid front c rest
  · simp only [List.length_append, List.length_cons]
    omega
  · have hbefore : (front ++ c :: (mid ++ rest)).take (front.length + mid.length + 1) =
        front ++ c :: mid := by
      rw [Nat.add_assoc, List.take_length_add_append, List.take_succ_cons, List.take_left]
    have hafter : (front ++ (mid ++ mid.getLast?.getD c :: rest)).take (front.length + mid.length) =
        front ++ mid := by
      rw [List.take_length_add_append, List.take_left]
    rw [hbefore, hafter, List.eraseIdx_append_of_length_le (Nat.le_refl _), Nat.sub_self]
    rfl

/-- What was not in the first cells does not come in. -/
theorem shiftDown_subset {str str' : List α} {i last n : ℕ} (h : shiftDown str i last = some str')
    (hn : last < n) : str'.take n ⊆ str.take n := by
  have hturns : ∀ j ∈ List.range' i (last - i), j + 1 < n := by
    intro j hj
    rw [List.mem_range'_1] at hj
    omega
  unfold shiftDown at h
  -- on the turns; each copies a cell that is among the first ones
  generalize List.range' i (last - i) = turns at h hturns
  induction turns generalizing str with
  | nil =>
    cases h
    exact List.Subset.refl _
  | cons j turns ih =>
    rw [List.forall_mem_cons] at hturns
    rw [List.foldlM_cons, Option.bind_eq_bind, Option.bind_eq_some_iff] at h
    obtain ⟨cells, hcells, h⟩ := h
    obtain ⟨c, hc, hput⟩ := Option.bind_eq_some_iff.mp hcells
    refine List.Subset.trans (ih h hturns.2) ?_
    unfold put at hput
    split at hput
    · cases hput
      intro d hd
      rw [List.take_set] at hd
      rcases List.mem_or_eq_of_mem_set hd with hd | rfl
      · exact hd
      · rw [← List.getElem?_take_of_lt hturns.1] at hc
        exact List.mem_of_getElem? hc
    · cases hput

end ExchangeLabs.Buffer
