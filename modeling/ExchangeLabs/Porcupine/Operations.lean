import Mathlib.Data.List.FinRange
import ExchangeLabs.Porcupine.Verdict

/-!
# Checking a list of operations

`makeEntries` makes the entries of a history of a list of operations: it sorts their calls and
returns by time, and a call before a return of the same time.  The order of equal elements is up
to `sort.Sort`.

## Main definitions

* `makeEntries sort history` — the entries, sorted by `sort`.
* `SortsByTime sort` — `sort` sorts by `byTime`.
* `exec model`, `execAt model history` — an operation is done to the object.

## Main results

* `isHistory_makeEntries` — **the entries are a history of the operations.**
* `makeEntries_verdict` — **`checkSingle` returns with a verdict on the operations.**
* `linearizable_range_iff` — it is the same to linearize the operations or their numbers.
-/

namespace ExchangeLabs.Porcupine

open ExchangeLabs.Linearization

variable {S I O : Type} {model : Model S I O} {history : List (Operation I O)}
  {sort : List (Entry I O) → List (Entry I O)} {es : List (Entry I O)} {x y : Entry I O}

/-- `byTime.Less`. -/
def less (a b : Entry I O) : Bool :=
  if a.time ≠ b.time then decide (a.time < b.time)
  else decide (a.kind = .callEntry) && decide (b.kind = .returnEntry)

/-- The call and the return of the operation with the number `id`. -/
def Operation.entries (elem : Operation I O) (id : ℕ) : List (Entry I O) :=
  [{ kind := .callEntry, value := .inl elem.input, id := id, time := elem.call,
     clientId := elem.clientId },
   { kind := .returnEntry, value := .inr elem.output, id := id, time := elem.ret,
     clientId := elem.clientId }]

/-- The entries before they are sorted. -/
def unsortedEntries (history : List (Operation I O)) : List (Entry I O) :=
  history.zipIdx.flatMap fun elem => elem.1.entries elem.2

def makeEntries (sort : List (Entry I O) → List (Entry I O)) (history : List (Operation I O)) :
    List (Entry I O) :=
  sort (unsortedEntries history)

/-- `sort.Sort` sorts by `byTime`. -/
structure SortsByTime (sort : List (Entry I O) → List (Entry I O)) : Prop where
  perm : ∀ es, (sort es).Perm es
  sorted : ∀ es, (sort es).Pairwise fun a b => less b a = false

/-- An operation is done to the object. -/
def exec (model : Model S I O) (state : S) (elem : Operation I O) : Option S :=
  let (ok, newState) := model.step state elem.input elem.output
  if ok then some newState else none

/-- The operation with the number `i` is done to the object. -/
def execAt (model : Model S I O) (history : List (Operation I O)) (state : S) (i : ℕ) : Option S :=
  history[i]?.bind (exec model state)

/-- One operation was over before the other began. -/
def precedes (history : List (Operation I O)) (i j : ℕ) : Prop :=
  ∃ a b, history[i]? = some a ∧ history[j]? = some b ∧ a.ret < b.call

/-- The inputs and outputs of the operations. -/
def opAt [Inhabited I] [Inhabited O] (history : List (Operation I O)) (i : ℕ) : I × O :=
  match history[i]? with
  | some elem => (elem.input, elem.output)
  | none => default

/-! ### Sorting -/

theorem less_self (a : Entry I O) : less a a = false := by
  unfold less
  rw [if_neg (fun h => h rfl)]
  cases a.kind <;> rfl

/-- Entries that are sorted in one way only. -/
theorem sublist_of_less (hsorted : es.Pairwise fun a b => less b a = false) (hx : x ∈ es)
    (hy : y ∈ es) (hless : less x y = true) : [x, y].Sublist es := by
  induction es with
  | nil => cases hx
  | cons z es ih =>
    rw [List.pairwise_cons] at hsorted
    rcases List.mem_cons.mp hx with rfl | hxs
    · rcases List.mem_cons.mp hy with rfl | hys
      · rw [less_self] at hless
        cases hless
      · exact (List.singleton_sublist.mpr hys).cons_cons x
    · rcases List.mem_cons.mp hy with rfl | hys
      · -- it would be sorted the other way
        have := hsorted.1 x hxs
        rw [hless] at this
        cases this
      · exact (ih hsorted.2 hxs hys).cons z

/-- What comes first is not later. -/
theorem not_less_of_sublist (hsorted : es.Pairwise fun a b => less b a = false)
    (hxy : [x, y].Sublist es) : less y x = false := by
  have := hsorted.sublist hxy
  rw [List.pairwise_cons] at this
  exact this.1 y (List.mem_singleton_self y)

theorem mem_unsortedEntries : x ∈ unsortedEntries history ↔
    ∃ (i : ℕ) (elem : Operation I O), history[i]? = some elem ∧ x ∈ elem.entries i := by
  simp only [unsortedEntries, List.mem_flatMap, Prod.exists, List.mk_mem_zipIdx_iff_getElem?]
  exact exists_comm

/-- The calls and returns before they are sorted. -/
theorem map_event_unsortedEntries (history : List (Operation I O)) :
    (unsortedEntries history).map Entry.event =
      (List.range history.length).flatMap fun i => [.call i, .ret i] := by
  rw [unsortedEntries, List.map_flatMap, List.range_eq_range', ← List.zipIdx_map_snd 0 history,
    List.flatMap_map]
  rfl

theorem length_unsortedEntries (history : List (Operation I O)) :
    (unsortedEntries history).length = 2 * history.length := by
  have hlength := congrArg List.length (map_event_unsortedEntries history)
  rw [List.length_map, List.length_flatMap] at hlength
  rw [hlength]
  simp [Nat.mul_comm]

theorem nodup_map_event_unsortedEntries (history : List (Operation I O)) :
    ((unsortedEntries history).map Entry.event).Nodup := by
  rw [map_event_unsortedEntries, List.nodup_flatMap]
  refine ⟨fun i _ => by simp, ?_⟩
  refine List.nodup_range.imp fun {i j} hij => ?_
  simp [Function.onFun, List.disjoint_left, hij]

/-! ### The history -/

section History

variable (hsort : SortsByTime sort) (htime : ∀ elem ∈ history, elem.call ≤ elem.ret)
include hsort

theorem mem_makeEntries : x ∈ makeEntries sort history ↔
    ∃ (i : ℕ) (elem : Operation I O), history[i]? = some elem ∧ x ∈ elem.entries i :=
  (hsort.perm _).mem_iff.trans mem_unsortedEntries

theorem length_makeEntries (history : List (Operation I O)) :
    (makeEntries sort history).length = 2 * history.length :=
  (hsort.perm _).length_eq.trans (length_unsortedEntries history)

/-- The entry of a call. -/
theorem event_eq_call {a : ℕ} (hx : x ∈ makeEntries sort history) (hevent : x.event = .call a) :
    ∃ elem, history[a]? = some elem ∧
      x = ⟨.callEntry, .inl elem.input, a, elem.call, elem.clientId⟩ := by
  obtain ⟨i, elem, helem, hx⟩ := (mem_makeEntries hsort).mp hx
  rcases List.mem_pair.mp hx with rfl | rfl
  · obtain rfl : i = a := Event.call.inj hevent
    exact ⟨elem, helem, rfl⟩
  · cases hevent

/-- The entry of a return. -/
theorem event_eq_ret {a : ℕ} (hx : x ∈ makeEntries sort history) (hevent : x.event = .ret a) :
    ∃ elem, history[a]? = some elem ∧
      x = ⟨.returnEntry, .inr elem.output, a, elem.ret, elem.clientId⟩ := by
  obtain ⟨i, elem, helem, hx⟩ := (mem_makeEntries hsort).mp hx
  rcases List.mem_pair.mp hx with rfl | rfl
  · cases hevent
  · obtain rfl : i = a := Event.ret.inj hevent
    exact ⟨elem, helem, rfl⟩

theorem mem_of_getElem? {i : ℕ} {elem : Operation I O} (helem : history[i]? = some elem)
    (hx : x ∈ elem.entries i) : x ∈ makeEntries sort history :=
  (mem_makeEntries hsort).mpr ⟨i, elem, helem, hx⟩

/-- **One operation is recorded to be over before the other** if and only if it was. -/
theorem before_makeEntries {i j : ℕ} :
    Before ((makeEntries sort history).map Entry.event) i j ↔ precedes history i j := by
  constructor
  · intro hbefore
    obtain ⟨xy, hxy, hmap⟩ := List.sublist_map_iff.mp hbefore
    obtain ⟨x, ys, rfl, hx, hys⟩ := List.map_eq_cons_iff.mp hmap.symm
    obtain ⟨y, zs, rfl, hy, hzs⟩ := List.map_eq_cons_iff.mp hys
    obtain rfl := List.map_eq_nil_iff.mp hzs
    obtain ⟨a, ha, rfl⟩ := event_eq_ret hsort (hxy.subset (by simp)) hx
    obtain ⟨b, hb, rfl⟩ := event_eq_call hsort (hxy.subset (by simp)) hy
    refine ⟨a, b, ha, hb, ?_⟩
    have hless := not_less_of_sublist (hsort.sorted _) hxy
    unfold less at hless
    split at hless
    · next hne =>
      have := of_decide_eq_false hless
      dsimp only at hne this
      omega
    · cases hless
  · rintro ⟨a, b, ha, hb, hlt⟩
    have hx : (⟨.returnEntry, .inr a.output, i, a.ret, a.clientId⟩ : Entry I O) ∈
        makeEntries sort history := mem_of_getElem? hsort ha (by simp [Operation.entries])
    have hy : (⟨.callEntry, .inl b.input, j, b.call, b.clientId⟩ : Entry I O) ∈
        makeEntries sort history := mem_of_getElem? hsort hb (by simp [Operation.entries])
    refine (sublist_of_less (hsort.sorted _) hx hy ?_).map Entry.event
    unfold less
    rw [if_pos hlt.ne]
    exact decide_eq_true hlt

include htime

/-- **The entries are a history of the operations.** -/
theorem isHistory_makeEntries [Inhabited I] [Inhabited O] :
    IsHistory (opAt history) (makeEntries sort history) := by
  have hevents : ((makeEntries sort history).map Entry.event).Perm
      ((unsortedEntries history).map Entry.event) := (hsort.perm _).map _
  refine ⟨⟨?_, fun a ha => ?_, fun a ha => ?_⟩, fun e he => ?_, fun e he hkind => ?_,
    fun e he hkind => ?_⟩
  · exact hevents.nodup_iff.mpr (nodup_map_event_unsortedEntries history)
  · obtain ⟨x, hx, hevent⟩ := List.mem_map.mp ha
    obtain ⟨elem, helem, rfl⟩ := event_eq_call hsort hx hevent
    have hy : (⟨.returnEntry, .inr elem.output, a, elem.ret, elem.clientId⟩ : Entry I O) ∈
        makeEntries sort history := mem_of_getElem? hsort helem (by simp [Operation.entries])
    refine (sublist_of_less (hsort.sorted _) hx hy ?_).map Entry.event
    have hle := htime elem (List.mem_of_getElem? helem)
    unfold less
    split
    · next hne => exact decide_eq_true (lt_of_le_of_ne hle hne)
    · rfl
  · obtain ⟨x, hx, hevent⟩ := List.mem_map.mp ha
    obtain ⟨elem, helem, rfl⟩ := event_eq_ret hsort hx hevent
    exact List.mem_map.mpr ⟨⟨.callEntry, .inl elem.input, a, elem.call, elem.clientId⟩,
      mem_of_getElem? hsort helem (by simp [Operation.entries]), rfl⟩
  · obtain ⟨i, elem, helem, he⟩ := (mem_makeEntries hsort).mp he
    have hid : e.id = i := by rcases List.mem_pair.mp he with rfl | rfl <;> rfl
    rw [length_makeEntries hsort, hid, Nat.mul_div_cancel_left _ (by decide)]
    exact (List.getElem?_eq_some_iff.mp helem).1
  · obtain ⟨i, elem, helem, he⟩ := (mem_makeEntries hsort).mp he
    rcases List.mem_pair.mp he with rfl | rfl
    · simp [opAt, helem]
    · cases hkind
  · obtain ⟨i, elem, helem, he⟩ := (mem_makeEntries hsort).mp he
    rcases List.mem_pair.mp he with rfl | rfl
    · cases hkind
    · simp [opAt, helem]

end History

/-! ### The check -/

theorem opStep_opAt [Inhabited I] [Inhabited O] {i : ℕ} (hi : i < history.length) (state : S) :
    opStep model (opAt history) state i = execAt model history state i := by
  rw [execAt, List.getElem?_eq_getElem hi, Option.bind_some, opStep, exec, opAt,
    List.getElem?_eq_getElem hi]

/-- **The result of `checkSingle`** for the operations of a history. -/
theorem makeEntries_verdict [Inhabited I] [Inhabited O] (hequal : EqualSound model)
    (hsort : SortsByTime sort) (htime : ∀ elem ∈ history, elem.call ≤ elem.ret)
    (computePartial : Bool) : ∃ bound, ∀ kill fuel, bound ≤ fuel → ∃ ok longest,
      checkSingle model (makeEntries sort history) computePartial kill fuel = some (ok, longest) ∧
      Verdict (precedes history) (execAt model history) model.init (List.range history.length)
        history.length computePartial (∃ t, kill t = true) ok longest := by
  have hes := isHistory_makeEntries hsort htime
  obtain ⟨bound, hbound⟩ := checkSingle_verdict hequal hes computePartial
  have hlength : (makeEntries sort history).length / 2 = history.length := by
    rw [length_makeEntries hsort, Nat.mul_div_cancel_left _ (by decide)]
  rw [hlength] at hbound
  refine ⟨bound, fun kill fuel hfuel => ?_⟩
  obtain ⟨ok, longest, hcheck, hverdict⟩ := hbound kill fuel hfuel
  refine ⟨ok, longest, hcheck, hverdict.of_congr (fun a _ b _ => before_makeEntries hsort)
    fun a ha state => opStep_opAt (List.mem_range.mp ha) state⟩

/-- The numbers of the operations and the operations have the same linearizations. -/
theorem linearizable_range_iff (model : Model S I O) (history : List (Operation I O)) (state : S) :
    Linearizable (precedes history) (execAt model history) state (List.range history.length) ↔
      Linearizable (fun a b => a.ret < b.call) (exec model) state history := by
  have hrange : List.range history.length = (List.finRange history.length).map Fin.val := by
    rw [List.map_coe_finRange_eq_range]
  have hhistory : history = (List.finRange history.length).map history.get :=
    (List.map_get_finRange history).symm
  have hprecedes : ∀ i j : Fin history.length,
      precedes history i j ↔ (history.get i).ret < (history.get j).call := by
    intro i j
    constructor
    · rintro ⟨a, b, ha, hb, hlt⟩
      rw [List.getElem?_eq_getElem i.isLt] at ha
      rw [List.getElem?_eq_getElem j.isLt] at hb
      obtain rfl := Option.some.inj ha
      obtain rfl := Option.some.inj hb
      exact hlt
    · intro hlt
      exact ⟨_, _, List.getElem?_eq_getElem i.isLt, List.getElem?_eq_getElem j.isLt, hlt⟩
  have hexec : ∀ (i : Fin history.length) (s : S),
      execAt model history s i = exec model s (history.get i) := by
    intro i s
    rw [execAt, List.getElem?_eq_getElem i.isLt]
    rfl
  rw [hrange, linearizable_map_iff]
  conv_rhs => rw [hhistory]
  rw [linearizable_map_iff]
  exact ⟨fun h => h.of_congr (fun i _ j _ => hprecedes i j) fun i _ => hexec i,
    fun h => h.of_congr (fun i _ j _ => (hprecedes i j).symm) fun i _ s => (hexec i s).symm⟩

end ExchangeLabs.Porcupine
