import Mathlib.Data.Finset.Sort
import Mathlib.Data.List.Dedup

/-!
# Grouping by a key

A list that is sorted by a key can be grouped in one pass: each group is a maximal
run of equal keys.  This file says what that pass yields, in terms that do not
depend on the order of the list: one group for each key that occurs, in the order of
the keys, with all the elements that have it.

## Main definitions

* `runs key l` — the runs of equal keys, each with its key.
* `keys key l` — the keys that occur, in order and without repetition.

## Main results

* `runs_eq` — **the runs of a sorted list are the groups.**
* `keys_eq_of_perm`, `keys_filter` — the keys of a rearrangement and of a part.
-/

namespace ExchangeLabs

variable {α K : Type*} [DecidableEq K]

/-- The runs of equal keys: a run goes on as long as the key is that of its first
element. -/
def runs (key : α → K) : List α → List (K × List α)
  | [] => []
  | a :: l =>
    (key a, a :: l.takeWhile fun b => key b = key a) ::
      runs key (l.dropWhile fun b => key b = key a)
termination_by l => l.length
decreasing_by exact Nat.lt_succ_of_le (List.dropWhile_sublist _).length_le

variable [LinearOrder K] {key : α → K} {l l' : List α}

/-- The keys that occur, in order. -/
def keys (key : α → K) (l : List α) : List K := (l.map key).toFinset.sort

@[simp] theorem mem_keys {k : K} : k ∈ keys key l ↔ ∃ a ∈ l, key a = k := by
  simp [keys]

theorem sortedLT_keys (key : α → K) (l : List α) : (keys key l).SortedLT :=
  Finset.sortedLT_sort _

theorem nodup_keys (key : α → K) (l : List α) : (keys key l).Nodup := (sortedLT_keys key l).nodup

theorem keys_eq_of_perm (h : l.Perm l') : keys key l = keys key l' :=
  (sortedLT_keys key l).eq_of_mem_iff (sortedLT_keys key l') fun k => by simp [h.mem_iff]

/-- The keys of the elements whose keys have a property. -/
theorem keys_filter (p : K → Bool) :
    keys key (l.filter fun a => p (key a)) = (keys key l).filter p := by
  refine (sortedLT_keys key _).eq_of_mem_iff ?_ fun k => ?_
  · exact ((sortedLT_keys key l).pairwise.filter p).sortedLT
  · simp only [mem_keys, List.mem_filter]
    constructor
    · rintro ⟨a, ⟨ha, hp⟩, rfl⟩
      exact ⟨⟨a, ha, rfl⟩, hp⟩
    · rintro ⟨⟨a, ha, rfl⟩, hp⟩
      exact ⟨a, ⟨ha, hp⟩, rfl⟩

/-- In a sorted list with keys from `k` on, the elements with the key `k` come first. -/
theorem takeWhile_dropWhile_eq_filter {k : K} (hl : l.Pairwise fun a b => key a ≤ key b)
    (hk : ∀ a ∈ l, k ≤ key a) :
    (l.takeWhile fun a => key a = k) = l.filter (fun a => key a = k) ∧
      (l.dropWhile fun a => key a = k) = l.filter fun a => key a ≠ k := by
  induction l with
  | nil => exact ⟨rfl, rfl⟩
  | cons a l ih =>
    obtain ⟨ha, hl⟩ := List.pairwise_cons.mp hl
    by_cases hak : key a = k
    · obtain ⟨htake, hdrop⟩ := ih hl fun b hb => hk b (List.mem_cons_of_mem _ hb)
      simp [hak, htake, hdrop]
    · -- no later key is `k`
      have hne : ∀ b ∈ l, key b ≠ k := by
        intro b hb heq
        exact hak (le_antisymm (heq ▸ ha b hb) (hk a List.mem_cons_self))
      have hnone : (l.filter fun b => key b = k) = [] := by
        simpa [List.filter_eq_nil_iff] using hne
      have hall : (l.filter fun b => key b ≠ k) = l := by
        simpa [List.filter_eq_self] using hne
      simpa [hak, hnone] using hall.symm

theorem keys_cons (a : α) (l : List α) (ha : ∀ b ∈ l, key a ≤ key b) :
    keys key (a :: l) = key a :: keys key (l.filter fun b => key b ≠ key a) := by
  refine (sortedLT_keys key _).eq_of_mem_iff ?_ fun k => ?_
  · refine (List.pairwise_cons.mpr ⟨fun k hk => ?_, (sortedLT_keys key _).pairwise⟩).sortedLT
    obtain ⟨b, hb, rfl⟩ := mem_keys.mp hk
    rw [List.mem_filter, decide_eq_true_iff] at hb
    exact lt_of_le_of_ne (ha b hb.1) (Ne.symm hb.2)
  · simp only [mem_keys, List.mem_cons, List.mem_filter, decide_eq_true_iff]
    constructor
    · rintro ⟨b, rfl | hb, rfl⟩
      · exact .inl rfl
      · by_cases hba : key b = key a
        · exact .inl hba
        · exact .inr ⟨b, ⟨hb, hba⟩, rfl⟩
    · rintro (rfl | ⟨b, ⟨hb, -⟩, rfl⟩)
      · exact ⟨a, .inl rfl, rfl⟩
      · exact ⟨b, .inr hb, rfl⟩

/-- **The runs of a sorted list are the groups.** -/
theorem runs_eq (hl : l.Pairwise fun a b => key a ≤ key b) :
    runs key l = (keys key l).map fun k => (k, l.filter fun a => key a = k) := by
  induction hn : l.length using Nat.strong_induction_on generalizing l with
  | _ n ih =>
    cases l with
    | nil => simp [runs, keys]
    | cons a l =>
      obtain ⟨ha, hl⟩ := List.pairwise_cons.mp hl
      obtain ⟨htake, hdrop⟩ := takeWhile_dropWhile_eq_filter hl ha
      have hlt : (l.filter fun b => key b ≠ key a).length < n := by
        rw [← hn]
        exact Nat.lt_succ_of_le (List.length_filter_le _ l)
      rw [runs, htake, hdrop, ih _ hlt (hl.filter _) rfl, keys_cons a l ha, List.map_cons]
      congr 1
      · simp
      · refine List.map_congr_left fun k hk => ?_
        obtain ⟨b, hb, rfl⟩ := mem_keys.mp hk
        have hne : key b ≠ key a := by simpa using (List.mem_filter.mp hb).2
        rw [List.filter_cons_of_neg (by simpa using hne.symm), List.filter_filter]
        congr 1
        refine List.filter_congr fun c _ => ?_
        by_cases hcb : key c = key b <;> simp [hcb, hne]

end ExchangeLabs
