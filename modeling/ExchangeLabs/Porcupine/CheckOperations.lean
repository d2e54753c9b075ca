import ExchangeLabs.Porcupine.Parallel

/-!
# The check of the parts of a history

`checkOperations` partitions a history and checks its parts at once.  Whatever the order in which
the goroutines go on, what it returns is right, and it returns unless there is nothing to check.

## Main definitions

* `checkOperations` — the runs of `checkParallel` on the parts of a history.
* `IsLongest` — the longest partial linearizations that include an operation.

## Main results

* `checkOperations_verdict` — what is returned, in terms of the parts.
* `checkOperations_verbose` — **with the partial linearizations**: what is returned are the longest
  ones, for every operation that has any.
* `checkOperations_returns` — **it returns**, but for a history without parts and no timeout.
* `check_kvStore` — **the verdict on a history of the key/value store** is exact.
-/

namespace ExchangeLabs.Porcupine

open ExchangeLabs.Linearization

variable {S I O : Type} {model : Model S I O} {history part : List (Operation I O)}
  {sort : List (Entry I O) → List (Entry I O)} {computeInfo : Bool} {timeout : ℤ}
  {events : List ParallelEvent} {p : Parallel S I O}

/-- The entries of the parts. -/
def subhistories (model : Model S I O) (sort : List (Entry I O) → List (Entry I O))
    (history : List (Operation I O)) : List (List (Entry I O)) :=
  (model.partition history).map (makeEntries sort)

/-- `checkOperations`, after the events `events`. -/
def checkOperations (model : Model S I O) (sort : List (Entry I O) → List (Entry I O))
    (history : List (Operation I O)) (computeInfo : Bool) (timeout : ℤ)
    (events : List ParallelEvent) : Option (Parallel S I O) :=
  run (fun p e => p.step model (subhistories model sort history) computeInfo timeout e)
    (.start (subhistories model sort history)) events

/-- The operations of the parts. -/
def partOp [Inhabited I] [Inhabited O] (model : Model S I O) (history : List (Operation I O))
    (i : ℕ) : ℕ → I × O :=
  opAt ((model.partition history)[i]?.getD [])

theorem getElem?_subhistories {i : ℕ} :
    (subhistories model sort history)[i]? = (model.partition history)[i]?.map (makeEntries sort) :=
  List.getElem?_map

theorem subhistories_eq_nil_iff :
    subhistories model sort history = [] ↔ model.partition history = [] :=
  List.map_eq_nil_iff

section

variable [Inhabited I] [Inhabited O] (hsort : SortsByTime sort)
include hsort

/-- The parts are histories. -/
theorem allHistories_subhistories
    (htime : ∀ part ∈ model.partition history, ∀ elem ∈ part, elem.call ≤ elem.ret) :
    AllHistories (partOp model history) (subhistories model sort history) := by
  intro i es hes
  rw [getElem?_subhistories] at hes
  obtain ⟨part, hpart, rfl⟩ := Option.map_eq_some_iff.mp hes
  rw [partOp, hpart]
  exact isHistory_makeEntries hsort (htime part (List.mem_of_getElem? hpart))

/-- A part is linearizable as entries if and only if it is as operations. -/
theorem partLinearizable_iff (model : Model S I O) (part : List (Operation I O)) :
    PartLinearizable model (opAt part) (makeEntries sort part) ↔
      Linearizable (fun a b => a.ret < b.call) (exec model) model.init part := by
  have hlength : (makeEntries sort part).length / 2 = part.length := by
    rw [length_makeEntries hsort, Nat.mul_div_cancel_left _ (by decide)]
  rw [PartLinearizable, hlength, ← linearizable_range_iff]
  constructor
  · intro h
    exact h.of_congr (fun a _ b _ => before_makeEntries hsort)
      fun a ha state => opStep_opAt (List.mem_range.mp ha) state
  · intro h
    exact h.of_congr (fun a _ b _ => (before_makeEntries hsort).symm)
      fun a ha state => (opStep_opAt (List.mem_range.mp ha) state).symm

/-- A verdict on the entries is one on the operations. -/
theorem makeEntries_partVerdict {killed : Prop} {ok : Bool} {longest : List (Option (List ℤ))}
    (h : PartVerdict model (opAt part) (makeEntries sort part) computeInfo killed ok longest) :
    Verdict (precedes part) (execAt model part) model.init (List.range part.length) part.length
      computeInfo killed ok longest := by
  have hlength : (makeEntries sort part).length / 2 = part.length := by
    rw [length_makeEntries hsort, Nat.mul_div_cancel_left _ (by decide)]
  rw [PartVerdict, hlength] at h
  exact h.of_congr (fun a _ b _ => before_makeEntries hsort)
    fun a ha state => opStep_opAt (List.mem_range.mp ha) state

/-- The invariant holds after every run. -/
theorem exists_inv_of_run (hequal : EqualSound model)
    (htime : ∀ part ∈ model.partition history, ∀ elem ∈ part, elem.call ≤ elem.ret)
    (hrun : checkOperations model sort history computeInfo timeout events = some p) :
    ∃ fin ms, p.Inv model (partOp model history) (subhistories model sort history) computeInfo
      timeout fin ms := by
  obtain ⟨fin, ms, hinv, -⟩ :=
    (Parallel.inv_start model (partOp model history) (subhistories model sort history) computeInfo
      timeout).run hequal (allHistories_subhistories hsort htime) hrun
  exact ⟨fin, ms, hinv⟩

end

/-- What is returned, in terms of the parts. -/
theorem checkOperations_verdict [Inhabited I] [Inhabited O] (hequal : EqualSound model)
    (hsort : SortsByTime sort)
    (htime : ∀ part ∈ model.partition history, ∀ elem ∈ part, elem.call ≤ elem.ret)
    (hrun : checkOperations model sort history computeInfo timeout events = some p)
    {result : CheckResult} (hreturned : p.phase = .returned result) :
    (result = .ok → ∀ part ∈ model.partition history,
      Linearizable (fun a b => a.ret < b.call) (exec model) model.init part) ∧
    (result = .illegal → ∃ part ∈ model.partition history,
      ¬ Linearizable (fun a b => a.ret < b.call) (exec model) model.init part) ∧
    (result = .unknown → 0 < timeout) := by
  obtain ⟨fin, ms, h⟩ := exists_inv_of_run hsort hequal htime hrun
  obtain ⟨rfl, -⟩ := h.returned result hreturned
  unfold Parallel.result
  cases hok : p.ok with
  | false =>
    refine ⟨fun hne => by (cases hne), fun _ => ?_, fun hne => by (cases hne)⟩
    obtain ⟨i, es, hes, hnot⟩ := h.illegal hok
    rw [getElem?_subhistories] at hes
    obtain ⟨part, hpart, rfl⟩ := Option.map_eq_some_iff.mp hes
    rw [partOp, hpart, Option.getD_some, partLinearizable_iff hsort] at hnot
    exact ⟨part, List.mem_of_getElem? hpart, hnot⟩
  | true =>
    cases htimed : p.timedOut with
    | true =>
      exact ⟨fun hne => by (cases hne), fun hne => by (cases hne), fun _ => h.timedOut htimed⟩
    | false =>
      refine ⟨fun _ part hpart => ?_, fun hne => by (cases hne), fun hne => by (cases hne)⟩
      obtain ⟨i, hi⟩ := List.getElem?_of_mem hpart
      have hes : (subhistories model sort history)[i]? = some (makeEntries sort part) := by
        rw [getElem?_subhistories, hi]
        rfl
      have hlin := h.passed (by rw [hreturned]; simp) hok htimed i _ hes
      rw [partOp, hi, Option.getD_some] at hlin
      exact (partLinearizable_iff hsort model part).mp hlin

/-- **`checkOperations` returns**: no run is longer than some bound, and something can happen until
it returns, unless there is no part to check and no timeout; then nothing ever happens. -/
theorem checkOperations_returns [Inhabited I] [Inhabited O] (hequal : EqualSound model)
    (hsort : SortsByTime sort)
    (htime : ∀ part ∈ model.partition history, ∀ elem ∈ part, elem.call ≤ elem.ret)
    (computeInfo : Bool) (timeout : ℤ) :
    (∃ bound, ∀ events p,
      checkOperations model sort history computeInfo timeout events = some p →
        events.length ≤ bound) ∧
    (model.partition history ≠ [] ∨ 0 < timeout → ∀ events p,
      checkOperations model sort history computeInfo timeout events = some p →
        (∃ result, p.phase = .returned result) ∨ ∃ e p',
          p.step model (subhistories model sort history) computeInfo timeout e = some p') ∧
    (model.partition history = [] → timeout ≤ 0 → ∀ events p,
      checkOperations model sort history computeInfo timeout events = some p → events = []) := by
  have hhistory : AllHistories (partOp model history) (subhistories model sort history) :=
    allHistories_subhistories hsort htime
  obtain ⟨ms₀, hstart⟩ : ∃ ms₀, (Parallel.start (subhistories model sort history)).Inv model
      (partOp model history) (subhistories model sort history) computeInfo timeout [] ms₀ :=
    ⟨_, Parallel.inv_start ..⟩
  refine ⟨⟨(Parallel.start (subhistories model sort history) : Parallel S I O).left
    (subhistories model sort history) ms₀, fun events p hrun => ?_⟩, fun hne events p hrun => ?_,
    fun hnil htimeout events p hrun => ?_⟩
  · obtain ⟨fin, ms, -, hle⟩ := hstart.run hequal hhistory hrun
    exact (Nat.le_add_left _ _).trans hle
  · obtain ⟨fin, ms, h⟩ := exists_inv_of_run hsort hequal htime hrun
    by_cases hreturned : ∃ result, p.phase = .returned result
    · exact .inl hreturned
    · refine .inr (h.progress hequal hhistory ?_ fun result hresult => hreturned ⟨result, hresult⟩)
      exact hne.imp_left (mt subhistories_eq_nil_iff.mp)
  · cases events with
    | nil => rfl
    | cons e events =>
      rw [checkOperations, subhistories_eq_nil_iff.mpr hnil, run] at hrun
      obtain ⟨p', hstep, -⟩ := Option.bind_eq_some_iff.mp hrun
      cases e with
      | worker i => cases hstep
      | receive => cases hstep
      | timeout =>
        rw [Parallel.step, if_neg (fun h => absurd h.1 (Int.not_lt.mpr htimeout))] at hstep
        cases hstep
      | finish => cases hstep

/-- A put, a get that reads what was overwritten before it, one that reads what was put, and a get
of another key. -/
def gets : List (Operation KvInput KvOutput) :=
  [⟨0, ⟨1, "k", "a"⟩, 0, ⟨""⟩, 1⟩, ⟨0, ⟨0, "k", ""⟩, 2, ⟨""⟩, 3⟩, ⟨1, ⟨0, "k", ""⟩, 2, ⟨"a"⟩, 3⟩,
    ⟨2, ⟨0, "j", ""⟩, 2, ⟨""⟩, 3⟩]

/-- The check of these operations returns, and the one of none does not even begin. -/
theorem checkOperations_returns_gets :
    (∃ bound, ∀ events p, checkOperations KvModel sortByTime gets false 0 events = some p →
      events.length ≤ bound) ∧
    (∀ events p, checkOperations KvModel sortByTime gets false 0 events = some p →
      (∃ result, p.phase = .returned result) ∨ ∃ e p',
        p.step KvModel (subhistories KvModel sortByTime gets) false 0 e = some p') ∧
    ∀ events p, checkOperations KvModel sortByTime [] false 0 events = some p → events = [] := by
  have htime : ∀ part ∈ KvModel.partition gets, ∀ elem ∈ part, elem.call ≤ elem.ret := by decide
  have hnil : ∀ part ∈ KvModel.partition [], ∀ elem ∈ part, elem.call ≤ elem.ret := by decide
  obtain ⟨hbound, hprogress, -⟩ :=
    checkOperations_returns (equalSound_fillDefault _ _ _) sortsByTime_sortByTime htime false 0
  obtain ⟨-, -, hnone⟩ :=
    checkOperations_returns (equalSound_fillDefault _ _ _) sortsByTime_sortByTime hnil false 0
  exact ⟨hbound, hprogress (.inl (by decide)), hnone (by decide) le_rfl⟩

/-- `order` is a longest partial linearization that includes the operation `k`. -/
structure IsLongest (model : Model S I O) (part : List (Operation I O)) (k : ℕ)
    (order : List ℕ) : Prop where
  isPartial : IsPartial model part order
  mem : k ∈ order
  longest : ∀ order', IsPartial model part order' → k ∈ order' → order'.length ≤ order.length

/-- What was remembered of a part when `checkOperations` returns. -/
theorem exists_verdict_of_returned [Inhabited I] [Inhabited O] (hsort : SortsByTime sort)
    {fin : List (ℕ × Bool)} {ms : List ℕ}
    (h : p.Inv model (partOp model history) (subhistories model sort history) true timeout fin ms)
    {result : CheckResult} (hreturned : p.phase = .returned result) (htimed : p.timedOut = false)
    {i : ℕ} (hi : (model.partition history)[i]? = some part) :
    ∃ ok l, p.longest[i]? = some (some l) ∧ ¬ p.kill = true ∧
      Verdict (precedes part) (execAt model part) model.init (List.range part.length) part.length
        true (p.kill = true) ok l := by
  have hes : (subhistories model sort history)[i]? = some (makeEntries sort part) := by
    rw [getElem?_subhistories, hi]
    rfl
  have hcount := ((h.returned result hreturned).2 rfl).1
  have hfin := h.mem_fin (hcount.trans h.count) (List.getElem?_eq_some_iff.mp hes).1
  obtain ⟨⟨j, b⟩, hmem, rfl⟩ := List.mem_map.mp hfin
  obtain ⟨l, hl, hverdict⟩ := h.verdict j _ b hes hmem
  rw [partOp, hi, Option.getD_some] at hverdict
  refine ⟨b, l, hl, fun hkill => ?_, makeEntries_partVerdict hsort hverdict⟩
  -- with `computeInfo` only a timeout tells the goroutines to stop
  rcases h.killed hkill with hkill | hkill
  · rw [htimed] at hkill
    cases hkill
  · cases hkill

/-- **With the partial linearizations**: if there was no timeout, the result is `Ok` if and only if
all parts are linearizable.  The information that is returned has for every operation of every part
a longest partial linearization that includes it, unless there is none, and nothing else. -/
theorem checkOperations_verbose [Inhabited I] [Inhabited O] (hequal : EqualSound model)
    (hsort : SortsByTime sort)
    (htime : ∀ part ∈ model.partition history, ∀ elem ∈ part, elem.call ≤ elem.ret)
    (hrun : checkOperations model sort history true timeout events = some p)
    {result : CheckResult} (hreturned : p.phase = .returned result) (htimed : p.timedOut = false) :
    (result = .ok ↔ ∀ part ∈ model.partition history,
      Linearizable (fun a b => a.ret < b.call) (exec model) model.init part) ∧
    p.info.history = subhistories model sort history ∧
    p.info.partialLinearizations.length = (model.partition history).length ∧
    ∀ (i : ℕ) part, (model.partition history)[i]? = some part → ∃ partials,
      p.info.partialLinearizations[i]? = some partials ∧ partials.Nodup ∧
      (∀ seq ∈ partials, ∃ k order, seq = order.map Nat.cast ∧ IsLongest model part k order) ∧
      ∀ k < part.length,
        (∃ order, order.map Nat.cast ∈ partials ∧ IsLongest model part k order) ∨
        ∀ order, IsPartial model part order → k ∉ order := by
  obtain ⟨fin, ms, h⟩ := exists_inv_of_run hsort hequal htime hrun
  obtain ⟨hresult, hcollected⟩ := h.returned result hreturned
  obtain ⟨-, hinfo⟩ := hcollected rfl
  refine ⟨?_, hinfo.1, ?_, fun i part hi => ?_⟩
  · obtain ⟨hok, hillegal, -⟩ := checkOperations_verdict hequal hsort htime hrun hreturned
    refine ⟨hok, fun hall => ?_⟩
    rw [Parallel.result, htimed] at hresult
    cases hpok : p.ok with
    | true => rw [hresult, hpok]; rfl
    | false =>
      rw [hpok] at hresult
      obtain ⟨part, hpart, hnot⟩ := hillegal hresult
      exact absurd (hall part hpart) hnot
  · rw [hinfo.2.length_eq, List.length_map, h.length_longest]
    exact List.length_map _
  · obtain ⟨ok, l, hl, hkill, hverdict⟩ := exists_verdict_of_returned hsort h hreturned htimed hi
    obtain ⟨partials, hpartials, hperm⟩ := hinfo.exists_perm hl
    have hmem {seq : List ℤ} : seq ∈ partials ↔ ∃ k : ℕ, l[k]? = some (some seq) :=
      hperm.mem_iff.trans mem_linearizations
    refine ⟨partials, hpartials, hperm.nodup_iff.mpr (List.nodup_dedup _), fun seq hseq => ?_,
      fun k hk => ?_⟩
    · obtain ⟨k, hseq⟩ := hmem.mp hseq
      have hk : k < part.length := hverdict.length ▸ (List.getElem?_eq_some_iff.mp hseq).1
      rcases hverdict.longest_or_none hkill k hk with ⟨hnone, -⟩ | ⟨order, horder, h₁, h₂, h₃⟩
      · rw [hseq] at hnone
        cases hnone
      · rw [hseq] at horder
        exact ⟨k, order, Option.some.inj (Option.some.inj horder), h₂, h₁, h₃⟩
    · rcases hverdict.longest_or_none hkill k hk with ⟨-, hnone⟩ | ⟨order, horder, h₁, h₂, h₃⟩
      · exact .inr hnone
      · exact .inl ⟨order, hmem.mpr ⟨k, horder⟩, h₂, h₁, h₃⟩

/-- The part of these operations with the stale get is not linearizable, and its one longest partial
linearization is the put and the other get. -/
theorem checkOperations_verbose_gets : ∃ p : Parallel String KvInput KvOutput,
    checkOperations KvModel sortByTime gets true 0 (List.replicate 8 (.worker 1) ++ [.receive] ++
      List.replicate 3 (.worker 0) ++ [.receive, .finish [[[0]], [[0, 2]]]]) = some p ∧
    (CheckResult.illegal = .ok ↔ ∀ part ∈ KvModel.partition gets,
      Linearizable (fun a b => a.ret < b.call) (exec KvModel) KvModel.init part) ∧
    p.info.partialLinearizations = [[[0]], [[0, 2]]] ∧
    ∀ (i : ℕ) part, (KvModel.partition gets)[i]? = some part → ∃ partials,
      p.info.partialLinearizations[i]? = some partials ∧ partials.Nodup ∧
      (∀ seq ∈ partials, ∃ k order, seq = order.map Nat.cast ∧ IsLongest KvModel part k order) ∧
      ∀ k < part.length,
        (∃ order, order.map Nat.cast ∈ partials ∧ IsLongest KvModel part k order) ∨
        ∀ order, IsPartial KvModel part order → k ∉ order := by
  have hmap : (checkOperations KvModel sortByTime gets true 0 (List.replicate 8 (.worker 1) ++
      [.receive] ++ List.replicate 3 (.worker 0) ++ [.receive, .finish [[[0]], [[0, 2]]]])).map
        (fun p => (p.phase, p.timedOut, p.info.partialLinearizations)) =
      some (.returned .illegal, false, [[[0]], [[0, 2]]]) := by decide
  obtain ⟨p, hrun, hp⟩ := Option.map_eq_some_iff.mp hmap
  obtain ⟨hphase, hp⟩ := Prod.mk.inj hp
  obtain ⟨htimed, hpartials⟩ := Prod.mk.inj hp
  obtain ⟨hresult, -, -, hparts⟩ := checkOperations_verbose (equalSound_fillDefault _ _ _)
    sortsByTime_sortByTime (by decide) hrun hphase htimed
  exact ⟨p, hrun, hresult, hpartials, hparts⟩

/-- **The verdict on a history of the key/value store**: `Ok` means that the history of all keys
is linearizable, `Illegal` that it is not, and without a timeout there is no other result. -/
theorem check_kvStore {history : List (Operation KvInput KvOutput)}
    {sort : List (Entry KvInput KvOutput) → List (Entry KvInput KvOutput)}
    {p : Parallel String KvInput KvOutput} (hsort : SortsByTime sort)
    (htime : ∀ v ∈ history, v.call ≤ v.ret)
    (hrun : checkOperations KvModel sort history computeInfo timeout events = some p)
    {result : CheckResult} (hreturned : p.phase = .returned result) :
    (result = .ok → Linearizable (fun a b => a.ret < b.call) kvStore (fun _ => "") history) ∧
    (result = .illegal → ¬ Linearizable (fun a b => a.ret < b.call) kvStore (fun _ => "") history) ∧
    (timeout ≤ 0 → result ≠ .unknown) := by
  have htimeParts : ∀ part ∈ KvModel.partition history, ∀ v ∈ part, v.call ≤ v.ret := by
    intro part hpart v hv
    obtain ⟨k, -, rfl⟩ := List.mem_map.mp hpart
    exact htime v (List.mem_filter.mp hv).1
  rw [linearizable_kvPartition_iff htime]
  obtain ⟨hok, hillegal, hunknown⟩ := checkOperations_verdict (equalSound_fillDefault _ _ _) hsort
    htimeParts hrun hreturned
  refine ⟨hok, fun heq hall => ?_, fun htimeout heq => ?_⟩
  · obtain ⟨part, hpart, hnot⟩ := hillegal heq
    exact hnot (hall part hpart)
  · exact absurd (hunknown heq) (Int.not_lt.mpr htimeout)

/-- A get that reads what was overwritten before it, and a get of another key. -/
theorem check_kvStore_stale_get : ∃ p : Parallel String KvInput KvOutput,
    checkOperations KvModel sortByTime [⟨0, ⟨1, "k", "a"⟩, 0, ⟨""⟩, 1⟩,
        ⟨0, ⟨0, "k", ""⟩, 2, ⟨""⟩, 3⟩, ⟨1, ⟨0, "j", ""⟩, 2, ⟨""⟩, 3⟩] false 0
      [.worker 1, .worker 1, .worker 1, .worker 1, .worker 1, .receive, .finish []] = some p ∧
    ¬ Linearizable (fun a b => a.ret < b.call) kvStore (fun _ => "")
      [⟨0, ⟨1, "k", "a"⟩, 0, ⟨""⟩, 1⟩,
      ⟨0, ⟨0, "k", ""⟩, 2, ⟨""⟩, 3⟩, ⟨1, ⟨0, "j", ""⟩, 2, ⟨""⟩, 3⟩] := by
  have hmap : (checkOperations KvModel sortByTime [⟨0, ⟨1, "k", "a"⟩, 0, ⟨""⟩, 1⟩,
        ⟨0, ⟨0, "k", ""⟩, 2, ⟨""⟩, 3⟩, ⟨1, ⟨0, "j", ""⟩, 2, ⟨""⟩, 3⟩] false 0
      [.worker 1, .worker 1, .worker 1, .worker 1, .worker 1, .receive, .finish []]).map
        Parallel.phase = some (.returned .illegal) := by decide
  obtain ⟨p, hrun, hphase⟩ := Option.map_eq_some_iff.mp hmap
  exact ⟨p, hrun,
    (check_kvStore sortsByTime_sortByTime (by decide) hrun hphase).2.1 rfl⟩

end ExchangeLabs.Porcupine
