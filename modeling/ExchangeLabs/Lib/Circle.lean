import Mathlib.Data.Finset.Card
import Mathlib.Data.Finset.Max
import Mathlib.Tactic.Ring

/-!
# Points on a circle

The numbers below `M` as the points of a circle, walked through upwards with a wrap
at `M`, and a finite set of members with positions on it.

## Main definitions

* `gap M a b` — the way clockwise from `a` to `b`; it is `0` if they are equal.
* `arc M a b` — the same with a full turn if they are equal.
* `Owns S x m` — `m` is the first member of `S` at the point `x` or clockwise after it.
* `Follows S n m` — `m` is the next member after the member `n`.
* `ahead S n x` — the members strictly between `n` and the point `x`.
* `before S x m` — the members that come before `m` from the point `x` on.

## Main results

* `owns_iff` — a member that follows `n` owns the points up to it from `n` on.
* `Owns.unique`, `Follows.unique` — there is only one such member.
* `Owns.of_gap_le` — an owner owns all points on the way to it.
* `follows_iff_owns` — the next member owns the next point.
* `Follows.gap_le` — after a member, the one that follows it comes first.
* `follows_of_isChain` — who follows when some of the members have gone.
* `cases_of_card_before_le` — the first three members from a point on.
* `card_ahead_lt` — a step clockwise towards a point leaves fewer members ahead.
-/

namespace ExchangeLabs.Circle

/-! ### Ways round the circle -/

/-- The way clockwise from `a` to `b`. -/
def gap (M a b : ℕ) : ℕ := (b + (M - a)) % M

/-- The way clockwise from `a` to `b`, a full turn if there is none. -/
def arc (M a b : ℕ) : ℕ := if a = b then M else gap M a b

variable {M a b c x : ℕ}

theorem gap_eq (ha : a < M) (hb : b < M) : gap M a b = if a ≤ b then b - a else M - a + b := by
  unfold gap
  split
  · next hle =>
    rw [show b + (M - a) = b - a + M by omega, Nat.add_mod_right, Nat.mod_eq_of_lt (by omega)]
  · rw [Nat.mod_eq_of_lt (by omega)]
    omega

/-- The way as a remainder of integers. -/
theorem gap_cast (ha : a < M) : (gap M a b : ℤ) = ((b : ℤ) - a) % M := by
  unfold gap
  rw [Int.natCast_mod, Nat.cast_add, Nat.cast_sub (by omega)]
  rw [show (b : ℤ) + (M - a) = (b - a) + M by ring, Int.add_emod_right]

theorem gap_pos_iff (ha : a < M) (hb : b < M) : 0 < gap M a b ↔ a ≠ b := by
  rw [gap_eq ha hb]
  split_ifs <;> omega

theorem arc_eq (ha : a < M) (hb : b < M) : arc M a b = if a < b then b - a else M - a + b := by
  unfold arc
  rw [gap_eq ha hb]
  split_ifs <;> omega

theorem arc_le (ha : a < M) (hb : b < M) : arc M a b ≤ M := by
  rw [arc_eq ha hb]
  split_ifs <;> omega

theorem arc_pos (ha : a < M) (hb : b < M) : 0 < arc M a b := by
  rw [arc_eq ha hb]
  split_ifs <;> omega

@[simp] theorem arc_self : arc M a a = M := if_pos rfl

/-- The way tells where it ends. -/
theorem arc_inj (ha : a < M) (hb : b < M) (hc : c < M) (h : arc M a b = arc M a c) : b = c := by
  rw [arc_eq ha hb, arc_eq ha hc] at h
  split_ifs at h <;> omega

/-- The next point is one step away. -/
theorem arc_succ (ha : a < M) (hM : 1 < M) : arc M a ((a + 1) % M) = 1 := by
  rw [arc_eq ha (Nat.mod_lt _ (by omega))]
  by_cases hlast : a + 1 = M
  · rw [hlast, Nat.mod_self]
    split_ifs <;> omega
  · rw [Nat.mod_eq_of_lt (by omega)]
    split_ifs <;> omega

/-- The point after `b` is one step further, unless the turn ends at `b`. -/
theorem arc_succ_right (ha : a < M) (hb : b < M) (hlt : arc M a b < M) :
    arc M a ((b + 1) % M) = arc M a b + 1 := by
  rw [arc_eq ha hb] at *
  rw [arc_eq ha (Nat.mod_lt _ (by omega))]
  by_cases hlast : b + 1 = M
  · rw [hlast, Nat.mod_self]
    split_ifs at * <;> omega
  · rw [Nat.mod_eq_of_lt (by omega)]
    split_ifs at * <;> omega

theorem gap_inj (ha : a < M) (hb : b < M) (hc : c < M) (h : gap M a b = gap M a c) : b = c := by
  rw [gap_eq ha hb, gap_eq ha hc] at h
  split_ifs at h <;> omega

/-- A way through `b` is made of two. -/
theorem arc_add_arc (ha : a < M) (hb : b < M) (hc : c < M) (h : arc M a b < arc M a c) :
    arc M a b + arc M b c = arc M a c := by
  rw [arc_eq ha hb, arc_eq ha hc] at *
  rw [arc_eq hb hc]
  split_ifs at * <;> omega

/-- What lies on the way from `b` to `c` lies on the way from `a` to `c`, if `b` does. -/
theorem arc_lt_of_arc_lt (ha : a < M) (hb : b < M) (hc : c < M) (hx : x < M)
    (hab : arc M a b < arc M a c) (h : arc M b x < arc M b c) :
    arc M a b < arc M a x ∧ arc M a x < arc M a c := by
  rw [arc_eq ha hb, arc_eq ha hc] at *
  rw [arc_eq hb hx, arc_eq hb hc] at h
  rw [arc_eq ha hx]
  split_ifs at * <;> omega

/-- Of two points, one comes before the other on the way to any third. -/
theorem arc_lt_or_arc_lt (ha : a < M) (hb : b < M) (hc : c < M) (hne : a ≠ b) :
    arc M a b < arc M a c ∨ arc M b a < arc M b c := by
  rw [arc_eq ha hb, arc_eq ha hc, arc_eq hb ha, arc_eq hb hc]
  split_ifs <;> omega

/-- A step that does not go past `c` brings one closer to it. -/
theorem gap_lt_gap (ha : a < M) (hb : b < M) (hc : c < M) (hne : a ≠ c)
    (h : arc M a b ≤ arc M a c) : gap M b c < gap M a c := by
  rw [arc_eq ha hb, arc_eq ha hc] at h
  rw [gap_eq hb hc, gap_eq ha hc]
  split_ifs at * <;> omega

/-- A point that is not met on the way from `a` up to `b` has `b` on its way back. -/
theorem gap_le_gap_iff (ha : a < M) (hb : b < M) (hc : c < M) (hx : x < M)
    (hbc : arc M a b ≤ arc M a c) (h : arc M a x ≤ arc M a b) : gap M x b ≤ gap M x c := by
  rw [arc_eq ha hb, arc_eq ha hc, arc_eq ha hx] at *
  rw [gap_eq hx hb, gap_eq hx hc]
  split_ifs at * <;> omega

/-- The points less than a turn after `c` come in this order. -/
theorem gap_add_le {k k' : ℕ} (hc : c < M) (hk : 0 < k) (hle : k ≤ k') (hlt : k' < M) :
    gap M ((c + k) % M) ((c + k') % M) ≤ gap M ((c + k) % M) c := by
  have hmod (k : ℕ) (hk : k < M) : (c + k) % M = if c + k < M then c + k else c + k - M := by
    split
    · next hin => exact Nat.mod_eq_of_lt hin
    · rw [Nat.mod_eq_sub_mod (by omega), Nat.mod_eq_of_lt (by omega)]
  have hpos : 0 < M := by omega
  rw [gap_eq (Nat.mod_lt _ hpos) (Nat.mod_lt _ hpos), gap_eq (Nat.mod_lt _ hpos) hc,
    hmod k (by omega), hmod k' hlt]
  split_ifs <;> omega

/-! ### Members -/

section Members

variable {α : Type*} (pos : α → ℕ) (S : Finset α)

/-- `m` is the first member at the point `x` or clockwise after it. -/
def Owns (M : ℕ) (x : ℕ) (m : α) : Prop := m ∈ S ∧ ∀ m' ∈ S, gap M x (pos m) ≤ gap M x (pos m')

/-- `m` is the next member clockwise after `n`, which is `n` again if it is alone. -/
def Follows (M : ℕ) (n m : α) : Prop :=
  m ∈ S ∧ ∀ m' ∈ S, arc M (pos n) (pos m) ≤ arc M (pos n) (pos m')

/-- The members strictly between `n` and the point `x`. -/
def ahead (M : ℕ) (n : α) (x : ℕ) : Finset α :=
  S.filter fun m => arc M (pos n) (pos m) < arc M (pos n) x

/-- The positions of the members are points of the circle, and no two are the same. -/
structure Placed (M : ℕ) : Prop where
  lt : ∀ m ∈ S, pos m < M
  inj : ∀ m ∈ S, ∀ m' ∈ S, pos m = pos m' → m = m'

variable {pos S} {n m m' : α}

theorem Owns.unique (hS : Placed pos S M) (hx : x < M) (h : Owns pos S M x m)
    (h' : Owns pos S M x m') : m = m' :=
  hS.inj m h.1 m' h'.1 (gap_inj hx (hS.lt m h.1) (hS.lt m' h'.1)
    (le_antisymm (h.2 m' h'.1) (h'.2 m h.1)))

theorem Follows.unique (hS : Placed pos S M) (hn : n ∈ S) (h : Follows pos S M n m)
    (h' : Follows pos S M n m') : m = m' :=
  hS.inj m h.1 m' h'.1 (arc_inj (hS.lt n hn) (hS.lt m h.1) (hS.lt m' h'.1)
    (le_antisymm (h.2 m' h'.1) (h'.2 m h.1)))

/-- No two members have the same next one. -/
theorem Follows.left_unique (hS : Placed pos S M) (hn : n ∈ S) (hm' : m' ∈ S)
    (h : Follows pos S M n m) (h' : Follows pos S M m' m) : n = m' := by
  by_contra hne
  rcases arc_lt_or_arc_lt (hS.lt n hn) (hS.lt m' hm') (hS.lt m h.1)
    (fun heq => hne (hS.inj n hn m' hm' heq)) with hlt | hlt
  · exact absurd (h.2 m' hm') (not_le.mpr hlt)
  · exact absurd (h'.2 n hn) (not_le.mpr hlt)

/-- A member that follows itself is alone. -/
theorem Follows.eq_singleton (hS : Placed pos S M) (hn : n ∈ S) (h : Follows pos S M n n) :
    S = {n} := by
  refine Finset.eq_singleton_iff_unique_mem.mpr ⟨hn, fun m hm => ?_⟩
  have hle := arc_le (hS.lt n hn) (hS.lt m hm)
  have hge := h.2 m hm
  rw [arc_self] at hge
  refine hS.inj m hm n hn (arc_inj (hS.lt n hn) (hS.lt m hm) (hS.lt n hn) ?_)
  rw [arc_self]
  exact le_antisymm hle hge

/-- An owner owns all points on the way to it. -/
theorem Owns.of_gap_le (hS : Placed pos S M) (hx : x < M) (ha : a < M) (h : Owns pos S M x m)
    (hle : gap M x a ≤ gap M x (pos m)) : Owns pos S M a m := by
  refine ⟨h.1, fun m' hm' => ?_⟩
  have hle' := h.2 m' hm'
  have hmM := hS.lt m h.1
  have hm'M := hS.lt m' hm'
  rw [gap_eq hx hmM, gap_eq hx hm'M] at hle'
  rw [gap_eq hx ha, gap_eq hx hmM] at hle
  rw [gap_eq ha hmM, gap_eq ha hm'M]
  split_ifs at * <;> omega

/-- An owner that is not at the point owns the next one. -/
theorem Owns.succ (hS : Placed pos S M) (hx : x < M) (h : Owns pos S M x m) (hne : pos m ≠ x) :
    Owns pos S M ((x + 1) % M) m := by
  have hmM := hS.lt m h.1
  refine h.of_gap_le hS hx (Nat.mod_lt _ (by omega)) ?_
  rw [gap_eq hx (Nat.mod_lt _ (by omega)), gap_eq hx hmM]
  by_cases hlast : x + 1 = M
  · rw [hlast, Nat.mod_self]
    split_ifs <;> omega
  · rw [Nat.mod_eq_of_lt (by omega)]
    split_ifs <;> omega

/-- A member owns its own point. -/
theorem owns_pos (hm : m ∈ S) (hlt : pos m < M) : Owns pos S M (pos m) m := by
  refine ⟨hm, fun m' _ => ?_⟩
  rw [gap_eq hlt hlt, if_pos le_rfl, Nat.sub_self]
  exact Nat.zero_le _

theorem Owns.congr {pos' : α → ℕ} (hpos : ∀ m ∈ S, pos m = pos' m) (h : Owns pos S M x m) :
    Owns pos' S M x m := by
  refine ⟨h.1, fun m' hm' => ?_⟩
  rw [← hpos m h.1, ← hpos m' hm']
  exact h.2 m' hm'

theorem Follows.congr {pos' : α → ℕ} (hpos : ∀ m ∈ S, pos m = pos' m) (hn : n ∈ S)
    (h : Follows pos S M n m) : Follows pos' S M n m := by
  refine ⟨h.1, fun m' hm' => ?_⟩
  rw [← hpos n hn, ← hpos m h.1, ← hpos m' hm']
  exact h.2 m' hm'

/-- Every member has a next one. -/
theorem exists_follows (hS : S.Nonempty) (M : ℕ) (n : α) : ∃ m, Follows pos S M n m :=
  S.exists_min_image (fun m => arc M (pos n) (pos m)) hS

/-- **Who owns a point**: the member that follows `n` owns the points on the way to
it, and no others. -/
theorem owns_iff (hS : Placed pos S M) (hn : n ∈ S) (h : Follows pos S M n m) (hx : x < M) :
    Owns pos S M x m ↔ arc M (pos n) x ≤ arc M (pos n) (pos m) := by
  have hnM := hS.lt n hn
  have hmM := hS.lt m h.1
  constructor
  · intro hown
    -- otherwise `n` comes before `m` on the way from `x`
    have hle := hown.2 n hn
    by_contra hlt
    rw [gap_eq hx hmM, gap_eq hx hnM] at hle
    rw [arc_eq hnM hx, arc_eq hnM hmM] at hlt
    split_ifs at * <;> omega
  · intro hle
    exact ⟨h.1, fun m' hm' => gap_le_gap_iff hnM hmM (hS.lt m' hm') hx (h.2 m' hm') hle⟩

/-- The next member owns the next point. -/
theorem follows_iff_owns (hS : Placed pos S M) (hn : n ∈ S) (hM : 1 < M) :
    Follows pos S M n m ↔ Owns pos S M ((pos n + 1) % M) m := by
  obtain ⟨m₀, h₀⟩ : ∃ m, Follows pos S M n m := exists_follows ⟨n, hn⟩ M n
  have hnM := hS.lt n hn
  have hx : (pos n + 1) % M < M := Nat.mod_lt _ (by omega)
  have hown₀ : Owns pos S M ((pos n + 1) % M) m₀ := by
    rw [owns_iff hS hn h₀ hx, arc_succ hnM hM]
    exact arc_pos hnM (hS.lt m₀ h₀.1)
  constructor
  · intro h
    rwa [h.unique hS hn h₀]
  · intro h
    rwa [h.unique hS hx hown₀]

theorem mem_ahead : m ∈ ahead pos S M n x ↔ m ∈ S ∧ arc M (pos n) (pos m) < arc M (pos n) x :=
  Finset.mem_filter

/-- Not all members are ahead. -/
theorem card_ahead_lt_card (hS : Placed pos S M) (hn : n ∈ S) (hx : x < M) :
    (ahead pos S M n x).card < S.card := by
  refine Finset.card_lt_card (Finset.ssubset_iff_subset_ne.mpr ⟨Finset.filter_subset _ _, ?_⟩)
  intro heq
  -- `n` itself is a full turn away
  have hmem : n ∈ ahead pos S M n x := by rw [heq]; exact hn
  have hlt := (mem_ahead.mp hmem).2
  rw [arc_self] at hlt
  exact absurd (arc_le (hS.lt n hn) hx) (not_le.mpr hlt)

/-- **A step towards a point** leaves fewer members ahead. -/
theorem card_ahead_lt (hS : Placed pos S M) (hn : n ∈ S) (hx : x < M)
    (h : m ∈ ahead pos S M n x) : (ahead pos S M m x).card < (ahead pos S M n x).card := by
  obtain ⟨hm, hlt⟩ := mem_ahead.mp h
  have hnM := hS.lt n hn
  have hmM := hS.lt m hm
  refine Finset.card_lt_card (Finset.ssubset_iff_subset_ne.mpr ⟨fun m' hm' => ?_, ?_⟩)
  · obtain ⟨hS', hlt'⟩ := mem_ahead.mp hm'
    exact mem_ahead.mpr ⟨hS', (arc_lt_of_arc_lt hnM hmM hx (hS.lt m' hS') hlt hlt').2⟩
  · intro heq
    have hself := (mem_ahead.mp (heq ▸ h)).2
    rw [arc_self] at hself
    exact absurd (arc_le hmM hx) (not_le.mpr hself)

/-- No member is ahead of `n` on the way to `x` when `x` comes before the next one. -/
theorem ahead_eq_empty (h : Follows pos S M n m) (hle : arc M (pos n) x ≤ arc M (pos n) (pos m)) :
    ahead pos S M n x = ∅ := by
  refine Finset.eq_empty_of_forall_notMem fun m' hm' => ?_
  obtain ⟨hS', hlt⟩ := mem_ahead.mp hm'
  exact absurd (h.2 m' hS') (not_le.mpr (hlt.trans_le hle))

/-- From `a` on, the member that follows it comes first. -/
theorem Follows.gap_le (hS : Placed pos S M) (ha : n ∈ S) (h : Follows pos S M n m) (hx : x < M)
    (hm' : m' ∈ S) (hlt : gap M x (pos n) < gap M x (pos m')) :
    gap M x (pos n) < gap M x (pos m) ∧ gap M x (pos m) ≤ gap M x (pos m') := by
  have hle := h.2 m' hm'
  have hnM := hS.lt n ha
  have hmM := hS.lt m h.1
  have hm'M := hS.lt m' hm'
  rw [arc_eq hnM hmM, arc_eq hnM hm'M] at hle
  rw [gap_eq hx hnM, gap_eq hx hm'M] at hlt
  rw [gap_eq hx hnM, gap_eq hx hmM, gap_eq hx hm'M]
  split_ifs at * <;> omega

/-- A member up to the one that follows `n` is up to `n`, or is that one. -/
theorem Follows.gap_le_or_eq (hS : Placed pos S M) (ha : n ∈ S) (h : Follows pos S M n m)
    (hx : x < M) (hm' : m' ∈ S) (hle : gap M x (pos m') ≤ gap M x (pos m)) :
    gap M x (pos m') ≤ gap M x (pos n) ∨ m' = m := by
  rcases Nat.lt_or_ge (gap M x (pos n)) (gap M x (pos m')) with hlt | hge
  · have heq := le_antisymm hle (h.gap_le hS ha hx hm' hlt).2
    exact .inr (hS.inj m' hm' m h.1 (gap_inj hx (hS.lt m' hm') (hS.lt m h.1) heq))
  · exact .inl hge

theorem mem_of_isChain {l : List α} (hchain : List.IsChain (Follows pos S M) (n :: l))
    (hm : m ∈ l) : m ∈ S := by
  induction l generalizing n with
  | nil => cases hm
  | cons b l ih =>
    obtain ⟨hfollows, hrest⟩ := List.isChain_cons_cons.mp hchain
    rcases List.mem_cons.mp hm with rfl | hm
    · exact hfollows.1
    · exact ih hrest hm

section Subset

variable {T : Finset α}

/-- A member that follows among all of them follows among some of them. -/
theorem Follows.mono (h : Follows pos S M n m) (hsub : T ⊆ S) (hm : m ∈ T) :
    Follows pos T M n m := ⟨hm, fun m' hm' => h.2 m' (hsub hm')⟩

/-- What follows a member that is not among them comes next. -/
theorem Follows.skip (hS : Placed pos S M) (hn : n ∈ S) (hsub : T ⊆ S)
    (h : Follows pos S M n m) (hm : m ∉ T) (h' : Follows pos T M m m') : Follows pos T M n m' := by
  have hlt : ∀ k ∈ T, arc M (pos n) (pos m) < arc M (pos n) (pos k) := by
    intro k hk
    refine lt_of_le_of_ne (h.2 k (hsub hk)) fun heq => hm ?_
    have hpos := arc_inj (hS.lt n hn) (hS.lt m h.1) (hS.lt k (hsub hk)) heq
    rw [hS.inj m h.1 k (hsub hk) hpos]
    exact hk
  have hsum : ∀ k ∈ T, arc M (pos n) (pos m) + arc M (pos m) (pos k) = arc M (pos n) (pos k) :=
    fun k hk => arc_add_arc (hS.lt n hn) (hS.lt m h.1) (hS.lt k (hsub hk)) (hlt k hk)
  refine ⟨h'.1, fun k hk => ?_⟩
  rw [← hsum m' h'.1, ← hsum k hk]
  exact Nat.add_le_add_left (h'.2 k hk) _

/-- **The first of them in a list of members that follow one another** follows. -/
theorem follows_of_isChain (hS : Placed pos S M) (hsub : T ⊆ S) (hn : n ∈ S) {pre : List α}
    (hchain : List.IsChain (Follows pos S M) (n :: (pre ++ [m]))) (hpre : ∀ c ∈ pre, c ∉ T)
    (hm : m ∈ T) : Follows pos T M n m := by
  induction pre generalizing n with
  | nil => exact (List.isChain_cons_cons.mp hchain).1.mono hsub hm
  | cons c pre ih =>
    obtain ⟨hfollows, hrest⟩ := List.isChain_cons_cons.mp hchain
    have hnext := ih hfollows.1 hrest fun d hd => hpre d (List.mem_cons_of_mem c hd)
    exact hfollows.skip hS hn hsub (hpre c List.mem_cons_self) hnext

end Subset

/-- The member before `m` comes before it from any other one. -/
theorem Follows.arc_lt (hS : Placed pos S M) (hn : n ∈ S) (h : Follows pos S M n m)
    (hm' : m' ∈ S) (hne : m' ≠ n) : arc M (pos m') (pos n) < arc M (pos m') (pos m) := by
  refine (arc_lt_or_arc_lt (hS.lt m' hm') (hS.lt n hn) (hS.lt m h.1) fun heq =>
    hne (hS.inj m' hm' n hn heq)).resolve_right ?_
  exact not_lt.mpr (h.2 m' hm')

/-- Members that follow one another leave none out on the way. -/
theorem gap_le_or_mem_of_isChain (hS : Placed pos S M) (hx : x < M) {l : List α} (hn : n ∈ S)
    (hchain : List.IsChain (Follows pos S M) (n :: l)) (hm : m ∈ n :: l) (hm' : m' ∈ S)
    (hle : gap M x (pos m') ≤ gap M x (pos m)) :
    gap M x (pos m') ≤ gap M x (pos n) ∨ m' ∈ l := by
  induction l generalizing n with
  | nil =>
    rw [List.mem_singleton.mp hm] at hle
    exact .inl hle
  | cons b l ih =>
    obtain ⟨hfollows, hrest⟩ := List.isChain_cons_cons.mp hchain
    rcases List.mem_cons.mp hm with rfl | hm
    · exact .inl hle
    rcases ih hfollows.1 hrest hm with hle | hmem
    · rcases hfollows.gap_le_or_eq hS hn hx hm' hle with hle | rfl
      · exact .inl hle
      · exact .inr List.mem_cons_self
    · exact .inr (List.mem_cons_of_mem b hmem)

/-- The members that come before `m` from the point `x` on. -/
def before (pos : α → ℕ) (S : Finset α) (M x : ℕ) (m : α) : Finset α :=
  S.filter fun m' => gap M x (pos m') < gap M x (pos m)

theorem mem_before :
    m' ∈ before pos S M x m ↔ m' ∈ S ∧ gap M x (pos m') < gap M x (pos m) := Finset.mem_filter

theorem Owns.before_eq_empty (h : Owns pos S M x m) : before pos S M x m = ∅ := by
  refine Finset.eq_empty_of_forall_notMem fun m' hm' => ?_
  obtain ⟨hS', hlt⟩ := mem_before.mp hm'
  exact absurd (h.2 m' hS') (not_le.mpr hlt)

theorem before_insert [DecidableEq α] : before pos (insert n S) M x m =
    if gap M x (pos n) < gap M x (pos m) then insert n (before pos S M x m)
    else before pos S M x m :=
  Finset.filter_insert _ _ _

/-- **The first three members** from a point on: a member that has at most two before it
is one of them. -/
theorem cases_of_card_before_le [DecidableEq α] (hS : Placed pos S M) (hx : x < M)
    {m₀ m₁ m₂ : α} (h₀ : Owns pos S M x m₀) (h₁ : Follows pos S M m₀ m₁)
    (h₂ : Follows pos S M m₁ m₂) (hm : m ∈ S) (hcard : (before pos S M x m).card ≤ 2) :
    m = m₀ ∨ (m = m₁ ∧ m₀ ∈ before pos S M x m) ∨
      (m = m₂ ∧ m₀ ∈ before pos S M x m ∧ m₁ ∈ before pos S M x m) := by
  have hlt {a : α} (ha : a ∈ S) (hne : m ≠ a) (hle : gap M x (pos a) ≤ gap M x (pos m)) :
      gap M x (pos a) < gap M x (pos m) :=
    lt_of_le_of_ne hle fun heq =>
      hne (hS.inj m hm a ha (gap_inj hx (hS.lt m hm) (hS.lt a ha) heq.symm))
  by_cases hm₀ : m = m₀
  · exact .inl hm₀
  have hlt₀ := hlt h₀.1 hm₀ (h₀.2 m hm)
  have hmem₀ := mem_before.mpr ⟨h₀.1, hlt₀⟩
  obtain ⟨hlt₀₁, hle₁⟩ := h₁.gap_le hS h₀.1 hx hm hlt₀
  by_cases hm₁ : m = m₁
  · exact .inr (.inl ⟨hm₁, hmem₀⟩)
  have hlt₁ := hlt h₁.1 hm₁ hle₁
  have hmem₁ := mem_before.mpr ⟨h₁.1, hlt₁⟩
  obtain ⟨hlt₁₂, hle₂⟩ := h₂.gap_le hS h₁.1 hx hm hlt₁
  by_cases hm₂ : m = m₂
  · exact .inr (.inr ⟨hm₂, hmem₀, hmem₁⟩)
  -- otherwise three come before it
  have hmem₂ := mem_before.mpr ⟨h₂.1, hlt h₂.1 hm₂ hle₂⟩
  have hthree : ({m₀, m₁, m₂} : Finset α).card = 3 := by
    refine Finset.card_eq_three.mpr ⟨m₀, m₁, m₂, ?_, ?_, ?_, rfl⟩
    · rintro rfl
      exact lt_irrefl _ hlt₀₁
    · rintro rfl
      exact lt_asymm hlt₀₁ hlt₁₂
    · rintro rfl
      exact lt_irrefl _ hlt₁₂
  have hsub : ({m₀, m₁, m₂} : Finset α) ⊆ before pos S M x m := by
    intro a ha
    rcases Finset.mem_insert.mp ha with rfl | ha
    · exact hmem₀
    rcases Finset.mem_insert.mp ha with rfl | ha
    · exact hmem₁
    · rwa [Finset.mem_singleton.mp ha]
  have hle := Finset.card_le_card hsub
  omega

end Members

end ExchangeLabs.Circle
