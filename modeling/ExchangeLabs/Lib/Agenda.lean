import Mathlib.Data.List.Sort
import Mathlib.Order.Defs.LinearOrder

/-!
# Agendas

A list in the order of a key, first come first served where the keys are equal.  An entry
is added by going through the list to the first entry that has a greater key, and the
entries that are due are taken off the front, up to the first one that is not.

## Main definitions

* `Agenda.Before key stamp a b` — `a` is due before `b`, or they are due at once and `a` came
  first.

## Main results

* `Agenda.pairwise_orderedInsert` — **a new entry goes where it belongs.**
* `Agenda.takeWhile_eq_filter`, `Agenda.dropWhile_eq_filter` — **what is due is at the front.**
-/

namespace ExchangeLabs.Agenda

variable {α κ : Type*} [LinearOrder κ] {key key' : α → κ} {stamp stamp' : α → ℕ} {a b c : α}
  {l : List α}

/-- `a` has the smaller key, or the keys are equal and it came first. -/
def Before (key : α → κ) (stamp : α → ℕ) (a b : α) : Prop :=
  key a < key b ∨ key a = key b ∧ stamp a < stamp b

theorem Before.key_le (h : Before key stamp a b) : key a ≤ key b := by
  rcases h with hlt | ⟨heq, -⟩
  · exact hlt.le
  · exact heq.le

theorem Before.ne (h : Before key stamp a b) : a ≠ b := by
  rintro rfl
  rcases h with hlt | ⟨-, hlt⟩
  · exact lt_irrefl _ hlt
  · exact lt_irrefl _ hlt

theorem Before.of_lt_of_le (h : key a < key b) (hle : key b ≤ key c) : Before key stamp a c :=
  .inl (lt_of_lt_of_le h hle)

theorem nodup_of_pairwise (h : l.Pairwise (Before key stamp)) : l.Nodup :=
  h.imp fun hab => hab.ne

theorem pairwise_key_le (h : l.Pairwise (Before key stamp)) : l.Pairwise fun a b => key a ≤ key b :=
  h.imp fun hab => hab.key_le

/-- Only the entries count. -/
theorem pairwise_congr (hkey : ∀ a ∈ l, key' a = key a) (hstamp : ∀ a ∈ l, stamp' a = stamp a)
    (h : l.Pairwise (Before key stamp)) : l.Pairwise (Before key' stamp') := by
  refine h.imp_of_mem fun {a b} ha hb hab => ?_
  unfold Before
  rw [hkey a ha, hkey b hb, hstamp a ha, hstamp b hb]
  exact hab

/-- **A new entry goes where it belongs**: before the first one with a greater key, behind
those with the same. -/
theorem pairwise_orderedInsert (h : l.Pairwise (Before key stamp))
    (hnew : ∀ b ∈ l, stamp b < stamp a) :
    (l.orderedInsert (fun a b => key a < key b) a).Pairwise (Before key stamp) := by
  induction l with
  | nil => exact List.pairwise_singleton _ a
  | cons b l ih =>
    obtain ⟨hb, hl⟩ := List.pairwise_cons.mp h
    rw [List.orderedInsert_cons]
    split
    · next hlt =>
      refine List.pairwise_cons.mpr ⟨fun c hc => ?_, h⟩
      rcases List.mem_cons.mp hc with rfl | hc
      · exact .inl hlt
      · exact .of_lt_of_le hlt (hb c hc).key_le
    · next hnot =>
      refine List.pairwise_cons.mpr ⟨fun c hc => ?_, ih hl fun c hc =>
        hnew c (List.mem_cons_of_mem b hc)⟩
      rcases (List.mem_orderedInsert _).mp hc with rfl | hc
      · -- the new entry is due no earlier than `b`, and came later
        rcases lt_or_eq_of_le (not_lt.mp hnot) with hlt | heq
        · exact .inl hlt
        · exact .inr ⟨heq, hnew b List.mem_cons_self⟩
      · exact hb c hc

/-- **What is due is at the front.** -/
theorem takeWhile_eq_filter (h : l.Pairwise fun a b => key a ≤ key b) (now : κ) :
    l.takeWhile (fun a => decide (key a ≤ now)) = l.filter fun a => decide (key a ≤ now) := by
  induction l with
  | nil => rfl
  | cons a l ih =>
    obtain ⟨ha, hl⟩ := List.pairwise_cons.mp h
    by_cases hdue : key a ≤ now
    · have hpos : decide (key a ≤ now) = true := decide_eq_true hdue
      simp only [List.takeWhile_cons, List.filter_cons, hpos, ih hl, if_true]
    · have hnone : ∀ b ∈ a :: l, ¬ decide (key b ≤ now) = true := by
        intro b hb hle
        have hab : key a ≤ key b := by
          rcases List.mem_cons.mp hb with rfl | hb
          · exact le_rfl
          · exact ha b hb
        exact hdue (hab.trans (of_decide_eq_true hle))
      rw [List.filter_eq_nil_iff.mpr hnone]
      simp only [List.takeWhile_cons, hnone a List.mem_cons_self, Bool.false_eq_true, if_false]

/-- And the rest stays. -/
theorem dropWhile_eq_filter (h : l.Pairwise fun a b => key a ≤ key b) (now : κ) :
    l.dropWhile (fun a => decide (key a ≤ now)) = l.filter fun a => !decide (key a ≤ now) := by
  induction l with
  | nil => rfl
  | cons a l ih =>
    obtain ⟨ha, hl⟩ := List.pairwise_cons.mp h
    by_cases hdue : key a ≤ now
    · have hpos : decide (key a ≤ now) = true := decide_eq_true hdue
      simp only [List.dropWhile_cons, List.filter_cons, hpos, ih hl, if_true, Bool.not_true,
        Bool.false_eq_true, if_false]
    · have hall : ∀ b ∈ a :: l, (!decide (key b ≤ now)) = true := by
        intro b hb
        have hab : key a ≤ key b := by
          rcases List.mem_cons.mp hb with rfl | hb
          · exact le_rfl
          · exact ha b hb
        simpa using lt_of_lt_of_le (not_le.mp hdue) hab
      have hneg : decide (key a ≤ now) = false := decide_eq_false hdue
      rw [List.filter_eq_self.mpr hall]
      simp only [List.dropWhile_cons, hneg, Bool.false_eq_true, if_false]

end ExchangeLabs.Agenda
