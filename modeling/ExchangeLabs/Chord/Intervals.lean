import ExchangeLabs.Chord.Stabilize

/-!
# The interval test of Chord

`between` is two comparisons of numbers, one for an interval that does not go through
`0` and one for an interval that does.  On the circle it is one thing: `elt` is met on the
way clockwise from `start` to `end`, where that way is a full turn if they are equal.

Of two points one is met on the way from the other to a third.  So a node and the
predecessor of its successor cannot both be wrong about their order: `stabilize` moves to
that predecessor, or `Notify` takes the node in its place.

## Main definitions

* `clockwise`, `turn` — the way from one identifier to another.

## Main results

* `between_clockwise` — `between` is the open arc, and the half-open one with the end.
* `settled_xor_notified` — `stabilize` and `Notify` together are decisive.
-/

namespace ExchangeLabs.Chord

/-! ### The arc -/

/-- The way clockwise from `start` to `elt`. -/
def clockwise (start elt : ℕ) : ℤ := ((elt : ℤ) - start) % hashMod

/-- The way clockwise from `start` to `end'`, a full turn if they are equal. -/
def turn (start end' : ℕ) : ℤ := if end' = start then hashMod else clockwise start end'

section Arc

variable {start elt end' : ℕ}

theorem clockwise_eq (hs : start < hashMod) : clockwise start elt = Circle.gap hashMod start elt :=
  (Circle.gap_cast hs).symm

theorem turn_eq (hs : start < hashMod) : turn start end' = Circle.arc hashMod start end' := by
  unfold turn Circle.arc
  by_cases heq : end' = start
  · rw [if_pos heq, if_pos heq.symm]
  · rw [if_neg heq, if_neg (Ne.symm heq), clockwise_eq hs]

variable (hs : start < hashMod) (he : elt < hashMod) (hd : end' < hashMod)
include hs he hd

/-- A point on the open arc is not the start of it. -/
theorem between_false_iff_clockwise : between start elt end' false = true ↔
    0 < clockwise start elt ∧ clockwise start elt < turn start end' := by
  rw [between_false_iff hs he hd, clockwise_eq hs, turn_eq hs, Int.natCast_pos, Int.ofNat_lt,
    Circle.gap_pos_iff hs he]
  constructor
  · intro hlt
    have hne : start ≠ elt := by
      rintro rfl
      rw [Circle.arc_self] at hlt
      exact absurd (Circle.arc_le hs hd) (not_le.mpr hlt)
    refine ⟨hne, ?_⟩
    rwa [Circle.arc, if_neg hne] at hlt
  · rintro ⟨hne, hlt⟩
    rwa [Circle.arc, if_neg hne]

/-- The flag adds the end and nothing else. -/
theorem between_true_iff_or : between start elt end' true = true ↔
    between start elt end' false = true ∨ elt = end' := by
  rw [between_true_iff hs he hd, between_false_iff hs he hd, le_iff_lt_or_eq]
  refine or_congr_right ⟨fun h => Circle.arc_inj hs he hd h, ?_⟩
  rintro rfl
  rfl

/-- Of two points, one is met on the way from the other to a third, and only one. -/
theorem between_xor (hse : start ≠ elt) :
    Xor (between start elt end' false = true) (between elt start end' false = true) := by
  rw [between_false_iff hs he hd, between_false_iff he hs hd]
  rcases Circle.arc_lt_or_arc_lt hs he hd hse with h | h
  · refine .inl ⟨h, fun h' => ?_⟩
    have hsum := Circle.arc_add_arc hs he hd h
    have hback := Circle.arc_add_arc he hs hd h'
    have hpos := Circle.arc_pos hs he
    have hpos' := Circle.arc_pos he hs
    omega
  · refine .inr ⟨h, fun h' => ?_⟩
    have hsum := Circle.arc_add_arc hs he hd h'
    have hback := Circle.arc_add_arc he hs hd h
    have hpos := Circle.arc_pos hs he
    have hpos' := Circle.arc_pos he hs
    omega

/-- **The interval test is the clockwise arc.** -/
theorem between_clockwise :
    (between start elt end' false = true ↔
      0 < clockwise start elt ∧ clockwise start elt < turn start end') ∧
    (between start elt end' true = true ↔
      (0 < clockwise start elt ∧ clockwise start elt < turn start end') ∨ elt = end') ∧
    (start ≠ elt → elt ≠ end' → start ≠ end' →
      Xor (between start elt end' false = true) (between elt start end' false = true)) := by
  refine ⟨between_false_iff_clockwise hs he hd, ?_, fun hse _ _ => between_xor hs he hd hse⟩
  rw [between_true_iff_or hs he hd, between_false_iff_clockwise hs he hd]

end Arc

/-- An interval through `0`, and a point on it. -/
theorem between_clockwise_wrap :
    (between (hashMod - 1) 1 3 false = true ↔
      0 < clockwise (hashMod - 1) 1 ∧ clockwise (hashMod - 1) 1 < turn (hashMod - 1) 3) ∧
    Xor (between (hashMod - 1) 1 3 false = true) (between 1 (hashMod - 1) 3 false = true) := by
  have hs : hashMod - 1 < hashMod := by decide
  have he : 1 < hashMod := by decide
  have hd : 3 < hashMod := by decide
  obtain ⟨hopen, -, hxor⟩ := between_clockwise hs he hd
  exact ⟨hopen, hxor (by decide) (by decide) (by decide)⟩

/-! ### Who is told -/

variable {net : Network} {a : Address} {m : Node}

/-- The predecessor of the successor is taken if it is on the way there. -/
theorem settled_eq_predecessor_iff (hm : net.lookup (firstSuccessor net a) = some m)
    (hp : m.predecessor ≠ "") (hps : m.predecessor ≠ firstSuccessor net a) :
    settled net a = m.predecessor ↔
      between (hash a) (hash m.predecessor) (hash (firstSuccessor net a)) false = true := by
  unfold settled
  dsimp only
  rw [hm]
  dsimp only
  by_cases hbetween :
      between (hash a) (hash m.predecessor) (hash (firstSuccessor net a)) false = true
  · simp [hp, hbetween]
  · simp [hbetween, hps.symm]

/-- A node takes the caller for its predecessor if it comes after the one it has. -/
theorem notify_predecessor_iff (ha : a ≠ "") (hp : m.predecessor ≠ "") (hne : m.predecessor ≠ a) :
    (m.notify a).predecessor = a ↔
      between (hash m.predecessor) (hash a) m.id false = true := by
  unfold Node.notify
  rw [if_neg ha, if_neg hp]
  by_cases hbetween : between (hash m.predecessor) (hash a) m.id false = true
  · simp [hbetween]
  · simp [hbetween, hne]

/-- **`stabilize` and `Notify` are decisive**: a node moves to the predecessor of its
successor, or the successor takes the node for its predecessor, and not both. -/
theorem settled_xor_notified (hident : Identified net)
    (hm : net.lookup (firstSuccessor net a) = some m) (ha : a ≠ "") (hp : m.predecessor ≠ "")
    (hap : hash a ≠ hash m.predecessor)
    (hps : hash m.predecessor ≠ hash (firstSuccessor net a)) :
    Xor (settled net a = m.predecessor) ((m.notify a).predecessor = a) := by
  rw [settled_eq_predecessor_iff hm hp fun heq => hps (congrArg hash heq),
    notify_predecessor_iff ha hp fun heq => hap (congrArg hash heq.symm), hident.id_eq _ m hm]
  exact between_xor (hash_lt a) (hash_lt _) (hash_lt _) hap

end ExchangeLabs.Chord
