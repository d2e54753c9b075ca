import ExchangeLabs.Porcupine.KvModel

/-!
# The check of a history of operations

For any model whose equality of states is sound, and whatever the order in which `sort.Sort`
leaves equal elements: `checkSingle` returns, its verdict is right, and the partial
linearizations that it remembers are the longest ones.

## Main definitions

* `IsPartial model history order` — `order` is a partial linearization of the history.

## Main results

* `checkSingle_correct` — **the verdict is `true` if and only if the history is linearizable.**
* `checkSingle_longest` — **the partial linearizations are the longest ones.**
-/

namespace ExchangeLabs.Porcupine

open ExchangeLabs.Linearization

variable {S I O : Type} {model : Model S I O} {history : List (Operation I O)}
  {sort : List (Entry I O) → List (Entry I O)}

/-- A partial linearization: some of the operations, in an order in which the object can execute
them and no operation comes before one that was over when it began; with an operation it contains
all that were over before. -/
abbrev IsPartial (model : Model S I O) (history : List (Operation I O)) (order : List ℕ) : Prop :=
  Begins (precedes history) (execAt model history) model.init (List.range history.length) order

/-! ### A sort by time -/

theorem less_total (a b : Entry I O) : less b a = false ∨ less a b = false := by
  cases hb : less b a with
  | false => exact .inl rfl
  | true =>
    right
    unfold less at hb ⊢
    by_cases hne : a.time = b.time
    · simp_all
    · rw [if_pos (Ne.symm hne)] at hb
      rw [if_pos hne]
      have := of_decide_eq_true hb
      exact decide_eq_false (by omega)

/-- What is not later: an earlier time, or the same time and not a return before a call. -/
theorem less_eq_false_iff {a b : Entry I O} : less b a = false ↔
    a.time < b.time ∨ a.time = b.time ∧ (a.kind = .callEntry ∨ b.kind = .returnEntry) := by
  unfold less
  by_cases hne : a.time = b.time
  · rw [if_neg (fun h => h hne.symm)]
    cases a.kind <;> cases b.kind <;> simp [hne]
  · rw [if_pos (Ne.symm hne), decide_eq_false_iff_not]
    constructor
    · intro hle
      exact .inl (by omega)
    · rintro (hlt | ⟨heq, -⟩)
      · omega
      · exact absurd heq hne

theorem less_trans {a b c : Entry I O} (hab : less b a = false) (hbc : less c b = false) :
    less c a = false := by
  rw [less_eq_false_iff] at hab hbc ⊢
  -- the times decide, and at one time the kinds
  rcases hab with hab | ⟨hab, hkind⟩
  · rcases hbc with hbc | ⟨hbc, -⟩
    · exact .inl (by omega)
    · exact .inl (by omega)
  · rcases hbc with hbc | ⟨hbc, hkind'⟩
    · exact .inl (by omega)
    · refine .inr ⟨by omega, ?_⟩
      rcases hkind with hkind | hkind
      · exact .inl hkind
      · rcases hkind' with hkind' | hkind'
        · rw [hkind] at hkind'
          cases hkind'
        · exact .inr hkind'

/-- A sort by time. -/
def sortByTime (es : List (Entry I O)) : List (Entry I O) :=
  es.insertionSort fun a b => less b a = false

/-- `sort.Sort` may be a stable sort. -/
theorem sortsByTime_sortByTime :
    SortsByTime (sortByTime : List (Entry I O) → List (Entry I O)) where
  perm := fun es => List.perm_insertionSort _ es
  sorted := by
    have htotal : Std.Total fun a b : Entry I O => less b a = false := ⟨less_total⟩
    have htrans : IsTrans (Entry I O) fun a b => less b a = false :=
      ⟨fun _ _ _ hab hbc => less_trans hab hbc⟩
    exact fun es => List.pairwise_insertionSort _ es

/-! ### The check of one history -/

/-- **The checker decides linearizability**: if it is not told to stop it returns, and it returns
`true` if and only if the history is linearizable. -/
theorem checkSingle_correct [Inhabited I] [Inhabited O] (hequal : EqualSound model)
    (hsort : SortsByTime sort) (htime : ∀ elem ∈ history, elem.call ≤ elem.ret)
    (computePartial : Bool) : ∃ bound, ∀ fuel, bound ≤ fuel → ∃ ok longest,
      checkSingle model (makeEntries sort history) computePartial (fun _ => false) fuel =
        some (ok, longest) ∧
      (ok = true ↔ Linearizable (fun a b => a.ret < b.call) (exec model) model.init history) := by
  obtain ⟨bound, hbound⟩ := makeEntries_verdict hequal hsort htime computePartial
  refine ⟨bound, fun fuel hfuel => ?_⟩
  obtain ⟨ok, longest, hcheck, hverdict⟩ := hbound (fun _ => false) fuel hfuel
  refine ⟨ok, longest, hcheck, ?_⟩
  rw [← linearizable_range_iff]
  constructor
  · exact hverdict.linearizable
  · intro hlin
    cases ok with
    | true => rfl
    | false => exact absurd hlin (hverdict.notLinearizable rfl (by simp))

/-- A put and a get of its value, at the same time. -/
theorem checkSingle_correct_put_get : ∃ bound, ∀ fuel, bound ≤ fuel → ∃ ok longest,
    checkSingle KvModel (makeEntries sortByTime
        [⟨0, ⟨1, "k", "a"⟩, 0, ⟨""⟩, 10⟩, ⟨1, ⟨0, "k", ""⟩, 5, ⟨"a"⟩, 15⟩])
      false (fun _ => false) fuel = some (ok, longest) ∧
    (ok = true ↔ Linearizable (fun a b => a.ret < b.call) (exec KvModel) KvModel.init
      [⟨0, ⟨1, "k", "a"⟩, 0, ⟨""⟩, 10⟩, ⟨1, ⟨0, "k", ""⟩, 5, ⟨"a"⟩, 15⟩]) :=
  checkSingle_correct (equalSound_fillDefault _ _ _) sortsByTime_sortByTime (by decide) false

/-- **The partial linearizations are the longest ones**: for every operation of the history there
is remembered a longest partial linearization that includes it, or nothing if there is none. -/
theorem checkSingle_longest [Inhabited I] [Inhabited O] (hequal : EqualSound model)
    (hsort : SortsByTime sort) (htime : ∀ elem ∈ history, elem.call ≤ elem.ret) :
    ∃ bound, ∀ fuel, bound ≤ fuel → ∃ ok longest,
      checkSingle model (makeEntries sort history) true (fun _ => false) fuel =
        some (ok, longest) ∧
      longest.length = history.length ∧ ∀ i < history.length,
        (longest[i]? = some none ∧ ∀ order, IsPartial model history order → i ∉ order) ∨
        ∃ order, longest[i]? = some (some (order.map Nat.cast)) ∧ i ∈ order ∧
          IsPartial model history order ∧
          ∀ order', IsPartial model history order' → i ∈ order' →
            order'.length ≤ order.length := by
  obtain ⟨bound, hbound⟩ := makeEntries_verdict hequal hsort htime true
  refine ⟨bound, fun fuel hfuel => ?_⟩
  obtain ⟨ok, longest, hcheck, hverdict⟩ := hbound (fun _ => false) fuel hfuel
  exact ⟨ok, longest, hcheck, hverdict.length, hverdict.longest_or_none (by simp)⟩

/-- A get that reads what was overwritten before it. -/
theorem checkSingle_longest_stale_get : ∃ bound, ∀ fuel, bound ≤ fuel → ∃ ok longest,
    checkSingle KvModel (makeEntries sortByTime
        [⟨0, ⟨1, "k", "a"⟩, 0, ⟨""⟩, 1⟩, ⟨0, ⟨0, "k", ""⟩, 2, ⟨""⟩, 3⟩])
      true (fun _ => false) fuel = some (ok, longest) ∧
    longest.length = 2 ∧ ∀ i < 2,
      (longest[i]? = some none ∧ ∀ order, IsPartial KvModel
        [⟨0, ⟨1, "k", "a"⟩, 0, ⟨""⟩, 1⟩, ⟨0, ⟨0, "k", ""⟩, 2, ⟨""⟩, 3⟩] order → i ∉ order) ∨
      ∃ order, longest[i]? = some (some (order.map Nat.cast)) ∧ i ∈ order ∧
        IsPartial KvModel
          [⟨0, ⟨1, "k", "a"⟩, 0, ⟨""⟩, 1⟩, ⟨0, ⟨0, "k", ""⟩, 2, ⟨""⟩, 3⟩] order ∧
        ∀ order', IsPartial KvModel
          [⟨0, ⟨1, "k", "a"⟩, 0, ⟨""⟩, 1⟩, ⟨0, ⟨0, "k", ""⟩, 2, ⟨""⟩, 3⟩] order' →
            i ∈ order' → order'.length ≤ order.length :=
  checkSingle_longest (equalSound_fillDefault _ _ _) sortsByTime_sortByTime (by decide)

end ExchangeLabs.Porcupine
