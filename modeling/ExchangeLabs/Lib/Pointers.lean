import Mathlib.Logic.Relation
import ExchangeLabs.Lib.Circle

/-!
# Successor pointers on a circle

Every member of a set of points on a circle points to a member.  Members are added
with a pointer to any other one, and a pointer is only ever moved back to a member
from which the pointers lead to where it pointed before.  Under these changes the
pointers stay one thread: there is a member from which they lead once round the
circle and back, and they lead to it from everywhere.

## Main definitions

* `Leads next t y` — the pointers lead from `y` to `t` and do not pass `t`.
* `Reaches next t y` — the pointers lead from `y` to `t`, possibly past it.
* `Threaded S next base` — they lead once round from `base`, and to it from everywhere.

## Main results

* `Threaded.insert` — a member is added.
* `Threaded.update` — a pointer is moved back.
* `Threaded.follows` — **if no two members point to the same one**, every member
  points to the next one.
-/

namespace ExchangeLabs.Circle

variable {α : Type*} {pos : α → ℕ} {M : ℕ} {S : Finset α} {next next' : α → α}
  {s t y z m m' p q base : α}

/-- The pointers lead from `y` to `t`, and no step of theirs goes past `t`. -/
inductive Leads (pos : α → ℕ) (M : ℕ) (next : α → α) (t : α) : α → Prop
  | refl : Leads pos M next t t
  | hop {y : α} (hne : y ≠ t) (hle : arc M (pos y) (pos (next y)) ≤ arc M (pos y) (pos t))
      (h : Leads pos M next t (next y)) : Leads pos M next t y

/-- The pointers lead from `y` to `t`. -/
abbrev Reaches (next : α → α) (t y : α) : Prop := Relation.ReflTransGen (fun a b => next a = b) y t

theorem Leads.reaches (h : Leads pos M next t y) : Reaches next t y := by
  induction h with
  | refl => exact .refl
  | hop _ _ _ ih => exact .head rfl ih

/-! ### Moving one pointer -/

/-- Only the pointer of `q` has moved, and to a member `p` before the one it pointed
to, from which the pointers lead there. -/
structure Moved (pos : α → ℕ) (M : ℕ) (S : Finset α) (next next' : α → α) (q p : α) : Prop where
  mem : q ∈ S
  target_mem : p ∈ S
  leads : Leads pos M next (next q) p
  lt : arc M (pos q) (pos p) < arc M (pos q) (pos (next q))
  target : next' q = p
  other : ∀ z, z ≠ q → next' z = next z

section Update

variable (hS : Placed pos S M) (hnext : ∀ m ∈ S, next m ∈ S)
include hS hnext

/-- A member closer to `s` than `q` is led to `s` without the pointer of `q`. -/
theorem Leads.avoid (hsS : s ∈ S) (hyS : y ∈ S) (h : Leads pos M next s y)
    (hnext' : ∀ z, z ≠ q → next' z = next z)
    (hy : q = s ∨ gap M (pos y) (pos s) < gap M (pos q) (pos s)) : Leads pos M next' s y := by
  induction h with
  | refl => exact .refl
  | @hop y hne hle _ ih =>
    have hyq : y ≠ q := by
      rintro rfl
      exact hy.elim hne (lt_irrefl _)
    refine .hop hne ?_ ?_
    · rwa [hnext' y hyq]
    · rw [hnext' y hyq]
      refine ih (hnext y hyS) (hy.imp_right fun hlt => lt_trans ?_ hlt)
      exact gap_lt_gap (hS.lt y hyS) (hS.lt _ (hnext y hyS)) (hS.lt s hsS)
        (fun heq => hne (hS.inj y hyS s hsS heq)) hle

/-- Two ways one after the other, if the second goes on where the first ends. -/
theorem Leads.trans (hsS : s ∈ S) (htS : t ∈ S) (hyS : y ∈ S) (h : Leads pos M next s y)
    (h' : Leads pos M next t s) (hle : gap M (pos y) (pos s) ≤ gap M (pos y) (pos t)) :
    Leads pos M next t y := by
  induction h with
  | refl => exact h'
  | @hop y hne hstep _ ih =>
    have hyM := hS.lt y hyS
    have hsM := hS.lt s hsS
    have htM := hS.lt t htS
    have hzM := hS.lt _ (hnext y hyS)
    have hys : pos y ≠ pos s := fun heq => hne (hS.inj y hyS s hsS heq)
    rw [arc_eq hyM hzM, arc_eq hyM hsM] at hstep
    rw [gap_eq hyM hsM, gap_eq hyM htM] at hle
    have hyt' : pos y ≠ pos t := by
      intro heq
      split_ifs at * <;> omega
    refine .hop (fun heq => hyt' (congrArg pos heq)) ?_ (ih (hnext y hyS) ?_)
    · rw [arc_eq hyM hzM, arc_eq hyM htM]
      split_ifs at * <;> omega
    · rw [gap_eq hzM hsM, gap_eq hzM htM]
      split_ifs at * <;> omega

variable (hm : Moved pos M S next next' q p)
include hm

omit hS in
theorem Moved.next_mem : ∀ m ∈ S, next' m ∈ S := by
  intro m hmS
  by_cases hmq : m = q
  · rw [hmq, hm.target]
    exact hm.target_mem
  · rw [hm.other m hmq]
    exact hnext m hmS

/-- From where the pointer of `q` is moved to, it is led to where it was before. -/
theorem Moved.detour : Leads pos M next' (next q) p := by
  have hsS := hnext q hm.mem
  refine hm.leads.avoid hS hnext hsS hm.target_mem hm.other ?_
  rw [or_iff_not_imp_left]
  intro hne
  have hqM := hS.lt q hm.mem
  have hpM := hS.lt p hm.target_mem
  have hsM := hS.lt _ hsS
  have hpos : pos q ≠ pos (next q) := fun heq => hne (hS.inj q hm.mem _ hsS heq)
  have hlt := hm.lt
  rw [arc_eq hqM hpM, arc_eq hqM hsM] at hlt
  rw [gap_eq hpM hsM, gap_eq hqM hsM]
  split_ifs at * <;> omega

/-- What goes on from where the pointer of `q` was goes on from where it is moved to. -/
theorem Moved.detour_trans (htS : t ∈ S) (h : Leads pos M next' t (next q))
    (hle : arc M (pos q) (pos (next q)) ≤ arc M (pos q) (pos t)) : Leads pos M next' t p := by
  have hsS := hnext q hm.mem
  refine (hm.detour hS hnext).trans hS (hm.next_mem hnext) hsS htS hm.target_mem h ?_
  have hqM := hS.lt q hm.mem
  have hpM := hS.lt p hm.target_mem
  have hsM := hS.lt _ hsS
  have htM := hS.lt t htS
  have hlt := hm.lt
  rw [arc_eq hqM hpM, arc_eq hqM hsM] at hlt
  rw [arc_eq hqM hsM, arc_eq hqM htM] at hle
  rw [gap_eq hpM hsM, gap_eq hpM htM]
  split_ifs at * <;> omega

/-- **A pointer moves back**: what led to a member without passing it still does. -/
theorem Leads.update (htS : t ∈ S) (hyS : y ∈ S) (h : Leads pos M next t y) :
    Leads pos M next' t y := by
  induction h with
  | refl => exact .refl
  | @hop y hne hle _ ih =>
    by_cases hyq : y = q
    · subst hyq
      refine .hop hne ?_ ?_ <;> rw [hm.target]
      · exact (hm.lt.trans_le hle).le
      · exact hm.detour_trans hS hnext htS (ih (hnext y hyS)) hle
    · refine .hop hne ?_ ?_ <;> rw [hm.other y hyq]
      · exact hle
      · exact ih (hnext y hyS)

theorem Reaches.update (h : Reaches next t y) : Reaches next' t y := by
  induction h using Relation.ReflTransGen.head_induction_on with
  | refl => exact .refl
  | @head y z hyz _ ih =>
    by_cases hyq : y = q
    · subst hyq
      subst hyz
      exact .head hm.target ((hm.detour hS hnext).reaches.trans ih)
    · exact .head ((hm.other y hyq).trans hyz) ih

end Update

/-! ### Pointers that are one thread -/

/-- The pointers lead once round the circle from `base`, and to it from everywhere. -/
structure Threaded (pos : α → ℕ) (M : ℕ) (S : Finset α) (next : α → α) (base : α) : Prop where
  base_mem : base ∈ S
  next_mem : ∀ m ∈ S, next m ∈ S
  round : Leads pos M next base (next base)
  reaches : ∀ m ∈ S, Reaches next base m

theorem threaded_singleton [DecidableEq α] (hbase : next base = base) :
    Threaded pos M {base} next base where
  base_mem := Finset.mem_singleton_self base
  next_mem := fun m hm => by
    rw [Finset.mem_singleton] at hm ⊢
    rw [hm, hbase]
  round := by
    rw [hbase]
    exact .refl
  reaches := fun m hm => by
    rw [Finset.mem_singleton.mp hm]

/-- Pointers of members only are followed from a member. -/
theorem Leads.congr (hnext : ∀ m ∈ S, next m ∈ S) (hnext' : ∀ m ∈ S, next' m = next m)
    (hyS : y ∈ S) (h : Leads pos M next t y) : Leads pos M next' t y := by
  induction h with
  | refl => exact .refl
  | @hop y hne hle _ ih =>
    rw [← hnext' y hyS] at hle
    exact .hop hne hle (hnext' y hyS ▸ ih (hnext y hyS))

theorem Reaches.congr (hnext : ∀ m ∈ S, next m ∈ S) (hnext' : ∀ m ∈ S, next' m = next m)
    (hyS : y ∈ S) (h : Reaches next t y) : Reaches next' t y := by
  induction h using Relation.ReflTransGen.head_induction_on with
  | refl => exact .refl
  | @head y z hyz _ ih =>
    subst hyz
    exact .head (hnext' y hyS) (ih (hnext y hyS))

/-- **A member is added** with a pointer to another one. -/
theorem Threaded.insert [DecidableEq α] (h : Threaded pos M S next base) {n : α}
    (hn : next' n ∈ S) (hnext' : ∀ m ∈ S, next' m = next m) :
    Threaded pos M (insert n S) next' base where
  base_mem := Finset.mem_insert_of_mem h.base_mem
  next_mem := fun m hm => by
    rcases Finset.mem_insert.mp hm with rfl | hm
    · exact Finset.mem_insert_of_mem hn
    · rw [hnext' m hm]
      exact Finset.mem_insert_of_mem (h.next_mem m hm)
  round := by
    rw [hnext' base h.base_mem]
    exact h.round.congr h.next_mem hnext' (h.next_mem base h.base_mem)
  reaches := fun m hm => by
    rcases Finset.mem_insert.mp hm with rfl | hm
    · exact .head rfl ((h.reaches _ hn).congr h.next_mem hnext' hn)
    · exact (h.reaches m hm).congr h.next_mem hnext' hm

/-- **A pointer is moved back** to a member that is led to where it pointed before. -/
theorem Threaded.update (h : Threaded pos M S next base) (hS : Placed pos S M)
    (hm : Moved pos M S next next' q p) : Threaded pos M S next' base where
  base_mem := h.base_mem
  next_mem := hm.next_mem h.next_mem
  round := by
    have hround := h.round.update hS h.next_mem hm h.base_mem (h.next_mem base h.base_mem)
    by_cases hbase : base = q
    · -- the first step of the round is the one that is moved
      subst hbase
      rw [hm.target]
      refine hm.detour_trans hS h.next_mem h.base_mem hround ?_
      rw [arc_self]
      exact arc_le (hS.lt base h.base_mem) (hS.lt _ (h.next_mem base h.base_mem))
    · rwa [hm.other base hbase]
  reaches := fun m hmS => (h.reaches m hmS).update hS h.next_mem hm

/-! ### Where the pointers agree with the circle -/

/-- `m` is met on the way of the pointers from `y` to `t`. -/
inductive On (next : α → α) (t : α) : α → α → Prop
  | here {y : α} : On next t y y
  | there {y m : α} (hne : y ≠ t) (h : On next t (next y) m) : On next t y m

theorem Leads.on (h : Leads pos M next t y) : On next t y t := by
  induction h with
  | refl => exact .here
  | hop hne _ _ ih => exact .there hne ih

/-- The rest of a way is a way. -/
theorem On.leads (hl : Leads pos M next t y) (h : On next t y m) : Leads pos M next t m := by
  induction h with
  | here => exact hl
  | there hne _ ih =>
    cases hl with
    | refl => exact absurd rfl hne
    | hop _ _ hl => exact ih hl

/-- The member before one that is met is met, but for the first one. -/
theorem On.before (hinj : ∀ m ∈ S, ∀ m' ∈ S, next m = next m' → m = m')
    (hnext : ∀ m ∈ S, next m ∈ S) (hyS : y ∈ S) (hzS : z ∈ S) (h : On next t y m)
    (hm : m = next z) : next z = y ∨ On next t y z := by
  induction h with
  | here => exact .inl hm.symm
  | @there y m hne _ ih =>
    refine .inr ?_
    rcases ih (hnext y hyS) hm with heq | hon
    · rw [hinj z hzS y hyS heq]
      exact .here
    · exact .there hne hon

section Order

variable (hS : Placed pos S M) (hnext : ∀ m ∈ S, next m ∈ S)
include hS hnext

/-- What is met on the way is not farther from its end. -/
theorem On.gap_le (htS : t ∈ S) (hyS : y ∈ S) (hl : Leads pos M next t y) (h : On next t y m) :
    m ∈ S ∧ gap M (pos m) (pos t) ≤ gap M (pos y) (pos t) := by
  induction h with
  | here => exact ⟨hyS, le_rfl⟩
  | @there y m hne _ ih =>
    cases hl with
    | refl => exact absurd rfl hne
    | hop _ hle hl =>
      obtain ⟨hmS, hgap⟩ := ih (hnext y hyS) hl
      refine ⟨hmS, hgap.trans (le_of_lt ?_)⟩
      exact gap_lt_gap (hS.lt y hyS) (hS.lt _ (hnext y hyS)) (hS.lt t htS)
        (fun heq => hne (hS.inj y hyS t htS heq)) hle

/-- A step that does not go past `t` does not go past what is not closer to `t`
than where it ends, nor past what is farther than where it begins. -/
theorem Leads.arc_le (htS : t ∈ S) (hyS : y ∈ S) (hzS : z ∈ S) (h : Leads pos M next t y)
    (hyt : y ≠ t) (hz : gap M (pos z) (pos t) ≤ gap M (pos (next y)) (pos t) ∨
      gap M (pos y) (pos t) ≤ gap M (pos z) (pos t)) :
    arc M (pos y) (pos (next y)) ≤ arc M (pos y) (pos z) := by
  cases h with
  | refl => exact absurd rfl hyt
  | hop _ hle _ =>
    have hyM := hS.lt y hyS
    have htM := hS.lt t htS
    have hnM := hS.lt _ (hnext y hyS)
    have hzM := hS.lt z hzS
    have hpos : pos y ≠ pos t := fun heq => hyt (hS.inj y hyS t htS heq)
    rw [arc_eq hyM hnM, arc_eq hyM htM] at hle
    rw [arc_eq hyM hnM, arc_eq hyM hzM]
    rw [gap_eq hzM htM, gap_eq hnM htM, gap_eq hyM htM] at hz
    split_ifs at * <;> omega

/-- No member that is met on the way lies between another one and its pointer. -/
theorem On.arc_le (htS : t ∈ S) (hyS : y ∈ S) (hl : Leads pos M next t y) (h : On next t y m)
    (hmt : m ≠ t) (h' : On next t y m') :
    arc M (pos m) (pos (next m)) ≤ arc M (pos m) (pos m') := by
  have hmS' := (h'.gap_le hS hnext htS hyS hl).1
  induction h with
  | here =>
    cases h' with
    | here => exact hl.arc_le hS hnext htS hyS hmS' hmt (.inr le_rfl)
    | there _ h' =>
      cases hl with
      | refl => exact absurd rfl hmt
      | hop hne hle hl =>
        refine Leads.arc_le hS hnext htS hyS hmS' (.hop hne hle hl) hmt (.inl ?_)
        exact (h'.gap_le hS hnext htS (hnext _ hyS) hl).2
  | @there y m hne hon ih =>
    have hon' : On next t y m := .there hne hon
    cases h' with
    | there _ h' =>
      cases hl with
      | refl => exact absurd rfl hne
      | hop _ _ hl => exact ih (hnext y hyS) hl hmt h'
    | here =>
      obtain ⟨hmS, hgap⟩ := hon'.gap_le hS hnext htS hyS hl
      exact (hon'.leads hl).arc_le hS hnext htS hmS hyS hmt (.inr hgap)

end Order

/-- **No two pointers to one member**: then every member points to the next one. -/
theorem Threaded.follows (h : Threaded pos M S next base) (hS : Placed pos S M)
    (hinj : ∀ m ∈ S, ∀ m' ∈ S, next m = next m' → m = m') (hm : m ∈ S) :
    Follows pos S M m (next m) := by
  have hfirst := h.next_mem base h.base_mem
  -- every member is met on the round, since it reaches the base
  have hmet : ∀ m ∈ S, On next base (next base) m := by
    intro m hmS
    have hreach := h.reaches m hmS
    induction hreach using Relation.ReflTransGen.head_induction_on with
    | refl => exact h.round.on
    | @head y z hyz _ ih =>
      subst hyz
      rcases (ih (h.next_mem y hmS)).before hinj h.next_mem hfirst hmS rfl with heq | hon
      · rw [hinj y hmS base h.base_mem heq]
        exact h.round.on
      · exact hon
  refine ⟨h.next_mem m hm, fun m' hm' => ?_⟩
  by_cases hbase : m = base
  · subst hbase
    have hgap := ((hmet m' hm').gap_le hS h.next_mem hm hfirst h.round).2
    have hmM := hS.lt m hm
    have hnM := hS.lt _ hfirst
    have hmM' := hS.lt m' hm'
    rw [gap_eq hmM' hmM, gap_eq hnM hmM] at hgap
    rw [arc_eq hmM hnM, arc_eq hmM hmM']
    split_ifs at * <;> omega
  · exact (hmet m hm).arc_le hS h.next_mem h.base_mem hfirst h.round hbase (hmet m' hm')

end ExchangeLabs.Circle
