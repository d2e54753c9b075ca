import Mathlib.Algebra.BigOperators.Group.List.Basic
import Mathlib.Algebra.Order.BigOperators.Group.List
import Mathlib.Algebra.Order.Group.Multiset
import Mathlib.Algebra.Order.Group.Unbundled.Abs
import Mathlib.Algebra.Order.Ring.Abs
import Mathlib.Data.List.Perm.Subperm
import Mathlib.Tactic.Linarith

/-!
# Lists that are a few edits apart

Two lists are `s` edits apart when inserting and deleting `s` elements in all
turns one into the other.  Unlike the symmetric difference of the multisets,
which it bounds, this distance sees the order of the elements, and so it bounds
what happens to anything computed from the lists in their order, such as the
groups of a grouping.

## Main definitions

* `Near s l l'` — `l` and `l'` are at most `s` edits apart.
* `rowsDiffer l l'` — the size of the symmetric difference as multisets.

## Main results

* `rowsDiffer_le` — near lists have a small symmetric difference.
* `Near.filter`, `Near.map`, `Near.append`, `Near.filter_of_flips` — operations on near lists.
* `Near.sum_le` — sums of bounded terms over near lists are close.
-/

namespace ExchangeLabs

variable {α β : Type*} {s t : ℕ} {l l' m m' : List α}

/-- The lists have a common part outside of which there are at most `s` elements. -/
def Near (s : ℕ) (l l' : List α) : Prop :=
  ∃ z : List α, z.Sublist l ∧ z.Sublist l' ∧ l.length + l'.length ≤ 2 * z.length + s

theorem Near.refl (l : List α) : Near 0 l l :=
  ⟨l, List.Sublist.refl l, List.Sublist.refl l, by omega⟩

theorem Near.symm (h : Near s l l') : Near s l' l := by
  obtain ⟨z, h1, h2, h3⟩ := h
  exact ⟨z, h2, h1, by omega⟩

theorem Near.mono (h : Near s l l') (hst : s ≤ t) : Near t l l' := by
  obtain ⟨z, h1, h2, h3⟩ := h
  exact ⟨z, h1, h2, by omega⟩

/-- One inserted element. -/
theorem near_insert (l m : List α) (x : α) : Near 1 (l ++ m) (l ++ x :: m) := by
  refine ⟨l ++ m, List.Sublist.refl _, ?_, ?_⟩
  · exact (List.Sublist.refl l).append (List.sublist_cons_self x m)
  · simp only [List.length_append, List.length_cons]
    omega

/-- Near lists are a common part and few elements more, up to their order. -/
theorem Near.exists_perm (h : Near s l l') : ∃ z d d' : List α, z.Sublist l ∧ z.Sublist l' ∧
    l.Perm (z ++ d) ∧ l'.Perm (z ++ d') ∧ d.length + d'.length ≤ s := by
  obtain ⟨z, h1, h2, h3⟩ := h
  obtain ⟨d, hd⟩ := h1.exists_perm_append
  obtain ⟨d', hd'⟩ := h2.exists_perm_append
  refine ⟨z, d, d', h1, h2, hd, hd', ?_⟩
  have h4 := hd.length_eq
  have h5 := hd'.length_eq
  rw [List.length_append] at h4 h5
  omega

/-! ### The symmetric difference -/

/-- How many rows of either list the other one lacks, counted with multiplicity. -/
def rowsDiffer [DecidableEq α] (l l' : List α) : ℕ :=
  ((l : Multiset α) - l').card + ((l' : Multiset α) - l).card

/-- **Near lists have a small symmetric difference.** -/
theorem rowsDiffer_le [DecidableEq α] (h : Near s l l') : rowsDiffer l l' ≤ s := by
  obtain ⟨z, h1, h2, h3⟩ := h
  have hz : (z : Multiset α) ≤ l := Multiset.coe_le.mpr h1.subperm
  have hz' : (z : Multiset α) ≤ l' := Multiset.coe_le.mpr h2.subperm
  have h4 := Multiset.card_le_card (tsub_le_tsub_left hz' (l : Multiset α))
  have h5 := Multiset.card_le_card (tsub_le_tsub_left hz (l' : Multiset α))
  rw [Multiset.card_sub hz, Multiset.coe_card, Multiset.coe_card] at h4
  rw [Multiset.card_sub hz', Multiset.coe_card, Multiset.coe_card] at h5
  have h6 := h1.length_le
  have h7 := h2.length_le
  unfold rowsDiffer
  omega

/-! ### Operations -/

theorem Near.map (f : α → β) (h : Near s l l') : Near s (l.map f) (l'.map f) := by
  obtain ⟨z, h1, h2, h3⟩ := h
  exact ⟨z.map f, h1.map f, h2.map f, by simpa using h3⟩

theorem Near.append (h : Near s l l') (hm : Near t m m') : Near (s + t) (l ++ m) (l' ++ m') := by
  obtain ⟨z, h1, h2, h3⟩ := h
  obtain ⟨w, h4, h5, h6⟩ := hm
  refine ⟨z ++ w, h1.append h4, h2.append h5, ?_⟩
  simp only [List.length_append]
  omega

/-- A list loses in a filter no more than it has beyond a sublist. -/
theorem length_filter_le_of_sublist (p : α → Bool) {z l : List α} (h : z.Sublist l) :
    (l.filter p).length + z.length ≤ (z.filter p).length + l.length := by
  obtain ⟨d, hd⟩ := h.exists_perm_append
  have h1 := (hd.filter p).length_eq
  have h2 := hd.length_eq
  have h3 := List.length_filter_le p d
  rw [List.filter_append, List.length_append] at h1
  rw [List.length_append] at h2
  omega

/-- **Filters that disagree** on few elements of the common part keep lists near. -/
theorem Near.filter_of_flips (p p' : α → Bool) {z : List α} (h1 : z.Sublist l) (h2 : z.Sublist l')
    (h3 : l.length + l'.length + z.countP (fun a => p a != p' a) ≤ 2 * z.length + s) :
    Near s (l.filter p) (l'.filter p') := by
  refine ⟨z.filter fun a => p a && p' a, ?_, ?_, ?_⟩
  · refine List.Sublist.trans ?_ (h1.filter p)
    exact List.monotone_filter_right z fun a ha => (Bool.and_eq_true_iff.mp ha).1
  · refine List.Sublist.trans ?_ (h2.filter p')
    exact List.monotone_filter_right z fun a ha => (Bool.and_eq_true_iff.mp ha).2
  · have h4 := length_filter_le_of_sublist p h1
    have h5 := length_filter_le_of_sublist p' h2
    -- on the common part the filters differ by the elements they disagree on
    have h6 : (z.filter p).length + (z.filter p').length =
        2 * (z.filter fun a => p a && p' a).length + z.countP fun a => p a != p' a := by
      clear h1 h2 h3 h4 h5
      induction z with
      | nil => rfl
      | cons a z ih =>
        cases hp : p a <;> cases hp' : p' a <;> simp [hp, hp'] <;> omega
    omega

theorem Near.filter (p : α → Bool) (h : Near s l l') : Near s (l.filter p) (l'.filter p) := by
  obtain ⟨z, h1, h2, h3⟩ := h
  exact Near.filter_of_flips p p h1 h2 (by simpa using h3)

/-- Where a filter removes all that two near lists do not share, nothing is left
to tell them apart. -/
theorem filter_eq_of_sublist (p : α → Bool) {z d : List α} (h : z.Sublist l)
    (hd : l.Perm (z ++ d)) (hp : ∀ a ∈ d, p a = false) : l.filter p = z.filter p := by
  symm
  refine (h.filter p).eq_of_length ?_
  have h1 := (hd.filter p).length_eq
  have hnil : d.filter p = [] := List.filter_eq_nil_iff.mpr fun a ha => by simp [hp a ha]
  rw [List.filter_append, hnil, List.append_nil] at h1
  exact h1.symm

/-- **Sums of bounded terms** over near lists are close. -/
theorem Near.sum_le {R : Type*} [CommRing R] [LinearOrder R] [IsStrictOrderedRing R] (f : α → R)
    {M : R} (hM : 0 ≤ M) (hf : ∀ a, |f a| ≤ M) (h : Near s l l') :
    |(l.map f).sum - (l'.map f).sum| ≤ s * M := by
  obtain ⟨z, d, d', -, -, hd, hd', hlen⟩ := h.exists_perm
  have hsum : ∀ d : List α, |(d.map f).sum| ≤ d.length * M := by
    intro d
    induction d with
    | nil => simp
    | cons a d ih =>
      rw [List.map_cons, List.sum_cons, List.length_cons]
      have h1 := abs_add_le (f a) (d.map f).sum
      have h2 := hf a
      push_cast
      linarith
  have h1 := (hd.map f).sum_eq
  have h2 := (hd'.map f).sum_eq
  rw [List.map_append, List.sum_append] at h1 h2
  have hcount : ((d.length + d'.length : ℕ) : R) ≤ s := Nat.cast_le.mpr hlen
  calc |(l.map f).sum - (l'.map f).sum|
      = |(d.map f).sum - (d'.map f).sum| := by rw [h1, h2, add_sub_add_left_eq_sub]
    _ ≤ |(d.map f).sum| + |(d'.map f).sum| := abs_sub _ _
    _ ≤ d.length * M + d'.length * M := add_le_add (hsum d) (hsum d')
    _ = (d.length + d'.length : ℕ) * M := by rw [Nat.cast_add, add_mul]
    _ ≤ s * M := mul_le_mul_of_nonneg_right hcount hM

end ExchangeLabs
