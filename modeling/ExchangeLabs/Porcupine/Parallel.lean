import Mathlib.Data.List.Dedup
import Mathlib.Data.List.ReduceOption
import ExchangeLabs.Porcupine.Correctness

/-!
# Checking the parts of a history at once

`checkParallel` starts a goroutine for every part of the history and waits for their results, in
whatever order they come, or for a timeout.  The goroutines share `kill` and send their results
over a channel that never fills.  If the caller asks for it, `checkParallel` also returns what
they have remembered: for every part the set of the lists that the pointers in `longest` lead to.

## Main definitions

* `Parallel`, `Parallel.step` — the goroutines and the one that waits for them.
* `linearizations`, `Parallel.Informed` — the partial linearizations that are returned.
* `Parallel.Inv` — the invariant.

## Main results

* `Parallel.Inv.step` — the invariant is kept, and what is left to do goes down.
* `Parallel.Inv.run` — it holds after every run.
* `Parallel.Inv.progress` — something can happen until `checkParallel` returns.
-/

namespace ExchangeLabs.Porcupine

open ExchangeLabs.Linearization

variable {S I O : Type}

/-- A goroutine that checks a part. -/
inductive Worker (S I O : Type)
  | ready
  | running (headEntry n : ℕ) (s : Search S I O)
  | finished

/-- `CheckResult`. -/
inductive CheckResult
  | unknown
  | ok
  | illegal
  deriving DecidableEq

/-- Where `checkParallel` is. -/
inductive Phase
  /-- In its loop. -/
  | selecting
  /-- Behind its loop, where it waits for the other goroutines if `computeInfo` is set. -/
  | collecting
  | returned (result : CheckResult)
  deriving DecidableEq

/-- `linearizationInfo`. -/
structure LinearizationInfo (I O : Type) where
  /-- For each partition, a list of entries. -/
  history : List (List (Entry I O))
  /-- For each partition, a set of histories, as lists of operations. -/
  partialLinearizations : List (List (List ℤ))

/-- The variables of `checkParallel`. -/
structure Parallel (S I O : Type) where
  workers : List (Worker S I O)
  longest : List (Option (List (Option (List ℤ))))
  /-- The channel `results`. -/
  results : List Bool
  kill : Bool
  ok : Bool
  timedOut : Bool
  count : ℕ
  /-- What is returned with the result. -/
  info : LinearizationInfo I O
  phase : Phase

inductive ParallelEvent
  /-- The goroutine with this number goes on. -/
  | worker (i : ℕ)
  /-- A result is received. -/
  | receive
  | timeout
  /-- `checkParallel` returns.  The loops over the sets of partial linearizations come by their
  elements in this order. -/
  | finish (partialLinearizations : List (List (List ℤ)))

/-- The next step of a goroutine, and what it sends. -/
def workerStep (model : Model S I O) (computeInfo kill : Bool) (subhistory : List (Entry I O)) :
    Worker S I O → Option (Worker S I O × Option (Bool × List (Option (List ℤ))))
  | .ready => (prepare model subhistory).map fun (headEntry, n, s) => (.running headEntry n s, none)
  | .running headEntry n s =>
    (iterate model computeInfo headEntry n kill s).map fun
      | .again s' => (.running headEntry n s', none)
      | .result ok longest => (.finished, some (ok, longest))
  | .finished => none

def Parallel.start (history : List (List (Entry I O))) : Parallel S I O where
  workers := history.map fun _ => .ready
  longest := history.map fun _ => none
  results := []
  kill := false
  ok := true
  timedOut := false
  count := 0
  info := { history := [], partialLinearizations := [] }
  phase := .selecting

/-- What is returned. -/
def Parallel.result (p : Parallel S I O) : CheckResult :=
  if !p.ok then .illegal else if p.timedOut then .unknown else .ok

/-- The lists that the pointers in `longest[i]` lead to.  No two of the pointers lead to equal
lists, because a list that is remembered is not stored again (`Covered.noteLongest_eq_self`). -/
def linearizations (longest : Option (List (Option (List ℤ)))) : List (List ℤ) :=
  ((longest.getD []).reduceOption).dedup

def Parallel.step (model : Model S I O) (history : List (List (Entry I O))) (computeInfo : Bool)
    (timeout : ℤ) (p : Parallel S I O) : ParallelEvent → Option (Parallel S I O)
  | .worker i => do
    let w ← p.workers[i]?
    let subhistory ← history[i]?
    let (w', sent) ← workerStep model computeInfo p.kill subhistory w
    match sent with
    | none => some { p with workers := p.workers.set i w' }
    | some (ok, l) => some { p with
        workers := p.workers.set i w'
        longest := p.longest.set i (some l)
        results := p.results ++ [ok] }
  | .receive =>
    match p.results with
    | [] => none
    | result :: rest =>
      match p.phase with
      | .selecting =>
        let count := p.count + 1
        let ok := p.ok && result
        let p := { p with results := rest, count := count, ok := ok }
        if !ok && !computeInfo then some { p with kill := true, phase := .collecting }
        else if history.length ≤ count then some { p with phase := .collecting }
        else some p
      | .collecting =>
        if computeInfo && decide (p.count < history.length) then
          some { p with results := rest, count := p.count + 1 }
        else none
      | .returned _ => none
  | .timeout =>
    if 0 < timeout ∧ p.phase = .selecting then
      -- if we time out, we might get a false positive
      some { p with timedOut := true, kill := true, phase := .collecting }
    else none
  | .finish partialLinearizations =>
    -- unless `computeInfo` is set, `info` stays what it was at the start
    if p.phase = .collecting ∧ (computeInfo = true → history.length ≤ p.count) then
      if computeInfo then
        -- a loop over a map comes by its keys in any order
        if List.Forall₂ List.Perm partialLinearizations (p.longest.map linearizations) then
          some { p with
            info := { history := history, partialLinearizations := partialLinearizations }
            phase := .returned p.result }
        else none
      else some { p with phase := .returned p.result }
    else none

/-! ### The invariant -/

variable {model : Model S I O} {op : ℕ → ℕ → I × O} {history : List (List (Entry I O))}
  {computeInfo : Bool} {timeout : ℤ} {p p' : Parallel S I O} {es : List (Entry I O)}
  {w : Worker S I O} {m : ℕ}

/-- What is returned are the parts and, in some order, what was remembered of each. -/
def Parallel.Informed (history : List (List (Entry I O))) (p : Parallel S I O) : Prop :=
  p.info.history = history ∧
    List.Forall₂ List.Perm p.info.partialLinearizations (p.longest.map linearizations)

theorem mem_linearizations {l : List (Option (List ℤ))} {seq : List ℤ} :
    seq ∈ linearizations (some l) ↔ ∃ k : ℕ, l[k]? = some (some seq) := by
  rw [linearizations, List.mem_dedup, Option.getD_some, List.reduceOption_mem_iff,
    List.mem_iff_getElem?]

/-- **What is returned for a part** is the set of what was remembered of it. -/
theorem Parallel.Informed.exists_perm (h : p.Informed history) {i : ℕ}
    {l : Option (List (Option (List ℤ)))} (hl : p.longest[i]? = some l) :
    ∃ partials, p.info.partialLinearizations[i]? = some partials ∧
      partials.Perm (linearizations l) := by
  have hmap : (p.longest.map linearizations)[i]? = some (linearizations l) := by
    rw [List.getElem?_map, hl, Option.map_some]
  obtain ⟨hi, hget⟩ := List.getElem?_eq_some_iff.mp hmap
  have hi' : i < p.info.partialLinearizations.length := by rwa [h.2.length_eq]
  exact ⟨_, List.getElem?_eq_getElem hi', hget ▸ h.2.get hi' hi⟩

/-- A part is linearizable; `op` are its operations. -/
def PartLinearizable (model : Model S I O) (op : ℕ → I × O) (es : List (Entry I O)) : Prop :=
  Linearizable (Before (es.map Entry.event)) (opStep model op) model.init
    (List.range (es.length / 2))

/-- What can be said of a result for a part. -/
def PartVerdict (model : Model S I O) (op : ℕ → I × O) (es : List (Entry I O)) (computeInfo : Bool)
    (killed : Prop) (ok : Bool) (longest : List (Option (List ℤ))) : Prop :=
  Verdict (Before (es.map Entry.event)) (opStep model op) model.init (List.range (es.length / 2))
    (es.length / 2) computeInfo killed ok longest

/-- A goroutine, which has at most `m` steps to go. -/
inductive WorkerInv (model : Model S I O) (op : ℕ → I × O) (es : List (Entry I O))
    (computeInfo : Bool) : Worker S I O → ℕ → Prop
  | ready : WorkerInv model op es computeInfo .ready
      (weight (es.map Entry.event).length (Config.start model.init (es.map Entry.event)) + 2)
  | running {nodes : List (Node I O)} {s : Search S I O} {c : Config ℕ S} {ft fr : List ℕ}
      (hset : Setting op es.length (es.length / 2) nodes)
      (hrunning : Running model op es.length (es.length / 2) nodes computeInfo (es.map Entry.event)
        s c ft fr) :
      WorkerInv model op es computeInfo (.running es.length (es.length / 2) s)
        (weight (es.map Entry.event).length c + 1)
  | finished : WorkerInv model op es computeInfo .finished 0

/-- The parts are histories. -/
def AllHistories (op : ℕ → ℕ → I × O) (history : List (List (Entry I O))) : Prop :=
  ∀ (i : ℕ) es, history[i]? = some es → IsHistory (op i) es

/-- The invariant: `fin` are the goroutines that have sent their results, in that order, and `ms`
is what the goroutines have left to do. -/
structure Parallel.Inv (model : Model S I O) (op : ℕ → ℕ → I × O)
    (history : List (List (Entry I O))) (computeInfo : Bool) (timeout : ℤ) (p : Parallel S I O)
    (fin : List (ℕ × Bool)) (ms : List ℕ) : Prop where
  length : p.workers.length = history.length
  length_longest : p.longest.length = history.length
  worker : ∀ (i : ℕ) es w, history[i]? = some es → p.workers[i]? = some w → ∃ m, ms[i]? = some m ∧
    WorkerInv model (op i) es computeInfo w m
  nodup : (fin.map Prod.fst).Nodup
  finished : ∀ i, i ∈ fin.map Prod.fst ↔ p.workers[i]? = some .finished
  verdict : ∀ (i : ℕ) es b, history[i]? = some es → (i, b) ∈ fin → ∃ l,
    p.longest[i]? = some (some l) ∧
      PartVerdict model (op i) es computeInfo (p.kill = true) b l
  count : p.count ≤ fin.length
  results : p.results = (fin.drop p.count).map Prod.snd
  selecting : p.phase = .selecting → p.kill = false ∧ p.timedOut = false ∧
    p.ok = (fin.take p.count).all Prod.snd ∧ (p.count < history.length ∨ history = [])
  illegal : p.ok = false → ∃ (i : ℕ) (es : List (Entry I O)), history[i]? = some es ∧
    ¬ PartLinearizable model (op i) es
  passed : p.phase ≠ .selecting → p.ok = true → p.timedOut = false → ∀ (i : ℕ) es,
    history[i]? = some es → PartLinearizable model (op i) es
  timedOut : p.timedOut = true → 0 < timeout
  killed : p.kill = true → p.timedOut = true ∨ computeInfo = false
  returned : ∀ result, p.phase = .returned result → result = p.result ∧
    (computeInfo = true → history.length ≤ p.count ∧ p.Informed history)

/-- How far `checkParallel` is from its return. -/
def Phase.rank : Phase → ℕ
  | .selecting => 2
  | .collecting => 1
  | .returned _ => 0

/-- What is left to do. -/
def Parallel.left (history : List (List (Entry I O))) (p : Parallel S I O) (ms : List ℕ) : ℕ :=
  ms.sum + (history.length - p.count) + p.phase.rank

/-! ### The goroutines -/

/-- **A goroutine goes on**, until it has sent what can be said of its part. -/
theorem WorkerInv.step {op : ℕ → I × O} (hequal : EqualSound model) (hes : IsHistory op es)
    (h : WorkerInv model op es computeInfo w m) (hw : w ≠ .finished) (kill : Bool) :
    (∃ w' m', workerStep model computeInfo kill es w = some (w', none) ∧ w' ≠ .finished ∧
      WorkerInv model op es computeInfo w' m' ∧ m' < m) ∨
    ∃ ok l, workerStep model computeInfo kill es w = some (.finished, some (ok, l)) ∧
      PartVerdict model op es computeInfo (kill = true) ok l ∧ 0 < m := by
  cases h with
  | ready =>
    obtain ⟨s, hprepare, hset, hrunning⟩ := hes.running model computeInfo
    refine .inl ⟨.running es.length (es.length / 2) s, _, ?_, by simp, .running hset hrunning, ?_⟩
    · rw [workerStep, hprepare]
      rfl
    · omega
  | @running nodes s c ft fr hset hrunning =>
    have hkilled : kill = true → kill = true := id
    rcases hrunning.iterate hset hequal hes.wellFormed hes.ops_perm kill hkilled with
      ⟨ok, l, hiterate, hverdict⟩ | ⟨s', c', ft', fr', hiterate, hweight, hrunning'⟩
    · refine .inr ⟨ok, l, ?_, hverdict.congr hes.ops_perm, Nat.succ_pos _⟩
      rw [workerStep, hiterate]
      rfl
    · refine .inl ⟨.running es.length (es.length / 2) s', _, ?_, by simp, .running hset hrunning',
        by omega⟩
      rw [workerStep, hiterate]
      rfl
  | finished => exact absurd rfl hw

theorem sum_set_lt {ms : List ℕ} {i m m' : ℕ} (hi : ms[i]? = some m) (hlt : m' < m) :
    (ms.set i m').sum < ms.sum := by
  induction ms generalizing i with
  | nil => cases hi
  | cons k ms ih =>
    cases i with
    | zero =>
      obtain rfl := Option.some.inj hi
      simpa using hlt
    | succ i =>
      have := ih (i := i) hi
      simpa using this

variable {fin : List (ℕ × Bool)} {ms : List ℕ}

theorem Parallel.inv_start (model : Model S I O) (op : ℕ → ℕ → I × O)
    (history : List (List (Entry I O))) (computeInfo : Bool) (timeout : ℤ) :
    Parallel.Inv model op history computeInfo timeout (.start history) []
      (history.map fun es =>
        weight (es.map Entry.event).length (Config.start model.init (es.map Entry.event)) + 2) where
  length := List.length_map _
  length_longest := List.length_map _
  worker := by
    intro i es w hes hw
    rw [Parallel.start, List.getElem?_map, hes] at hw
    obtain rfl := Option.some.inj hw
    exact ⟨_, by rw [List.getElem?_map, hes]; rfl, .ready⟩
  nodup := List.nodup_nil
  finished := by
    intro i
    rw [Parallel.start, List.getElem?_map]
    cases history[i]? with
    | none => simp
    | some es => simp
  verdict := fun _ _ _ _ hmem => absurd hmem List.not_mem_nil
  count := le_rfl
  results := rfl
  selecting := by
    intro _
    refine ⟨rfl, rfl, rfl, ?_⟩
    cases history with
    | nil => exact .inr rfl
    | cons es history => exact .inl (Nat.succ_pos _)
  illegal := fun hok => by cases hok
  passed := fun hphase => absurd rfl hphase
  timedOut := fun h => by cases h
  killed := fun h => by cases h
  returned := fun _ h => by cases h

/-- The goroutines that have sent their results are some of all. -/
theorem Parallel.Inv.subset_range (h : p.Inv model op history computeInfo timeout fin ms) :
    fin.map Prod.fst ⊆ List.range history.length := by
  intro i hi
  rw [List.mem_range, ← h.length]
  exact (List.getElem?_eq_some_iff.mp ((h.finished i).mp hi)).1

theorem Parallel.Inv.length_fin_le (h : p.Inv model op history computeInfo timeout fin ms) :
    fin.length ≤ history.length := by
  have := (h.nodup.subperm h.subset_range).length_le
  rwa [List.length_map, List.length_range] at this

/-- All goroutines have sent their results. -/
theorem Parallel.Inv.mem_fin (h : p.Inv model op history computeInfo timeout fin ms)
    (hlength : history.length ≤ fin.length) {i : ℕ} (hi : i < history.length) :
    i ∈ fin.map Prod.fst := by
  have hperm := (h.nodup.subperm h.subset_range).perm_of_length_le
    (by rwa [List.length_map, List.length_range])
  exact hperm.symm.subset (List.mem_range.mpr hi)

/-- **A goroutine** makes a step. -/
theorem Parallel.Inv.worker_step (hequal : EqualSound model) (hhistory : AllHistories op history)
    (h : p.Inv model op history computeInfo timeout fin ms) {i : ℕ} {w : Worker S I O}
    {es : List (Entry I O)} (hw : p.workers[i]? = some w) (hes : history[i]? = some es)
    (hne : w ≠ .finished) :
    ∃ p' fin' ms', p.step model history computeInfo timeout (.worker i) = some p' ∧
      p'.Inv model op history computeInfo timeout fin' ms' ∧
      p'.left history ms' < p.left history ms := by
  obtain ⟨m, hm, hworker⟩ := h.worker i es w hes hw
  have hi : i < p.workers.length := (List.getElem?_eq_some_iff.mp hw).1
  have hims : i < ms.length := (List.getElem?_eq_some_iff.mp hm).1
  have hnew : i ∉ fin.map Prod.fst := by
    intro hmem
    rw [(h.finished i).mp hmem] at hw
    exact hne (Option.some.inj hw).symm
  -- what is known of the goroutines when this one is in another state
  have hset : ∀ w' m', WorkerInv model (op i) es computeInfo w' m' → ∀ (j : ℕ) es' w₂,
      history[j]? = some es' → (p.workers.set i w')[j]? = some w₂ → ∃ m₂,
        (ms.set i m')[j]? = some m₂ ∧ WorkerInv model (op j) es' computeInfo w₂ m₂ := by
    intro w' m' hw' j es' w₂ hes' hw₂
    by_cases hij : i = j
    · subst hij
      rw [List.getElem?_set_self hi] at hw₂
      obtain rfl := Option.some.inj hw₂
      obtain rfl := Option.some.inj (hes.symm.trans hes')
      exact ⟨m', List.getElem?_set_self hims, hw'⟩
    · rw [List.getElem?_set_ne hij] at hw₂ ⊢
      exact h.worker j es' w₂ hes' hw₂
  rcases hworker.step hequal (hhistory i es hes) hne p.kill with
    ⟨w', m', hstep, hne', hworker', hlt⟩ | ⟨ok, l, hstep, hverdict, hpos⟩
  · refine ⟨{ p with workers := p.workers.set i w' }, fin, ms.set i m', ?_,
      ⟨by simpa using h.length, h.length_longest, hset w' m' hworker', h.nodup, fun j => ?_,
        h.verdict, h.count, h.results, h.selecting, h.illegal, h.passed, h.timedOut, h.killed,
        h.returned⟩, ?_⟩
    · simp only [Parallel.step, hw, hes, hstep, Option.bind_eq_bind, Option.bind_some]
    · by_cases hij : i = j
      · subst hij
        rw [List.getElem?_set_self hi]
        exact ⟨fun hmem => absurd hmem hnew, fun heq => absurd (Option.some.inj heq) hne'⟩
      · rw [List.getElem?_set_ne hij]
        exact h.finished j
    · have := sum_set_lt hm hlt
      simp only [Parallel.left]
      omega
  · refine ⟨{ p with
        workers := p.workers.set i .finished
        longest := p.longest.set i (some l)
        results := p.results ++ [ok] }, fin ++ [(i, ok)], ms.set i 0, ?_,
      ⟨by simpa using h.length, by simpa using h.length_longest, hset _ 0 .finished, ?_,
        fun j => ?_, fun j es' b hes' hmem => ?_, ?_, ?_, fun hphase => ?_, h.illegal, h.passed,
        h.timedOut, h.killed, fun r hr => ⟨(h.returned r hr).1, fun hinfo => ?_⟩⟩, ?_⟩
    · simp only [Parallel.step, hw, hes, hstep, Option.bind_eq_bind, Option.bind_some]
    · rw [List.map_append, List.map_singleton, List.nodup_append]
      refine ⟨h.nodup, List.nodup_singleton _, ?_⟩
      rintro j hj j' hj' rfl
      obtain rfl : j = i := List.mem_singleton.mp hj'
      exact hnew hj
    · rw [List.map_append, List.map_singleton, List.mem_append, List.mem_singleton]
      by_cases hij : i = j
      · subst hij
        rw [List.getElem?_set_self hi]
        simp
      · rw [List.getElem?_set_ne hij, ← h.finished j]
        exact or_iff_left (Ne.symm hij)
    · have hil : i < p.longest.length := by rwa [h.length_longest, ← h.length]
      rcases List.mem_append.mp hmem with hmem | hmem
      · have hij : i ≠ j := by
          rintro rfl
          exact hnew (List.mem_map_of_mem hmem)
        obtain ⟨l', hl', hverdict'⟩ := h.verdict j es' b hes' hmem
        exact ⟨l', by rwa [List.getElem?_set_ne hij], hverdict'⟩
      · obtain ⟨rfl, rfl⟩ := Prod.mk.inj (List.mem_singleton.mp hmem)
        obtain rfl := Option.some.inj (hes.symm.trans hes')
        exact ⟨l, List.getElem?_set_self hil, hverdict⟩
    · rw [List.length_append]
      exact h.count.trans (Nat.le_add_right _ _)
    · show p.results ++ [ok] = _
      rw [h.results, List.drop_append_of_le_length h.count, List.map_append]
      rfl
    · obtain ⟨hkill, htimed, hok, hcount⟩ := h.selecting hphase
      refine ⟨hkill, htimed, ?_, hcount⟩
      rw [List.take_append_of_le_length h.count]
      exact hok
    · -- `checkParallel` does not return with `info` while a goroutine is running
      have hcollected := ((h.returned r hr).2 hinfo).1.trans h.count
      exact absurd (h.mem_fin hcollected (List.getElem?_eq_some_iff.mp hes).1) hnew
    · have := sum_set_lt hm hpos
      simp only [Parallel.left]
      omega

/-! ### The goroutine that waits for them -/

/-- What is received is the result of a part. -/
theorem Parallel.Inv.received (h : p.Inv model op history computeInfo timeout fin ms)
    {result : Bool} {rest : List Bool} (hresults : p.results = result :: rest) :
    ∃ i, (i, result) ∈ fin ∧ p.count < fin.length ∧
      rest = (fin.drop (p.count + 1)).map Prod.snd ∧
      fin.take (p.count + 1) = fin.take p.count ++ [(i, result)] := by
  rw [h.results] at hresults
  have hlt : p.count < fin.length := by
    by_contra hle
    rw [List.drop_eq_nil_of_le (Nat.not_lt.mp hle)] at hresults
    cases hresults
  rw [List.drop_eq_getElem_cons hlt, List.map_cons] at hresults
  obtain ⟨hresult, hrest⟩ := List.cons.inj hresults
  have heq : fin[p.count] = (fin[p.count].1, result) := Prod.ext rfl hresult
  refine ⟨fin[p.count].1, heq ▸ List.getElem_mem hlt, hlt, hrest.symm, ?_⟩
  rw [← heq, List.take_append_getElem]

/-- A part whose goroutine was not told to stop and has sent `false` is not linearizable. -/
theorem Parallel.Inv.not_partLinearizable (h : p.Inv model op history computeInfo timeout fin ms)
    (hkill : p.kill = false) {i : ℕ} (hi : (i, false) ∈ fin) :
    ∃ (i : ℕ) (es : List (Entry I O)), history[i]? = some es ∧
      ¬ PartLinearizable model (op i) es := by
  have hlt : i < history.length :=
    List.mem_range.mp (h.subset_range (List.mem_map_of_mem hi))
  obtain ⟨l, -, hverdict⟩ := h.verdict i _ false (List.getElem?_eq_getElem hlt) hi
  exact ⟨i, _, List.getElem?_eq_getElem hlt, hverdict.notLinearizable rfl (by simp [hkill])⟩

/-- If all goroutines have sent `true`, all parts are linearizable. -/
theorem Parallel.Inv.partLinearizable (h : p.Inv model op history computeInfo timeout fin ms)
    {k : ℕ} (hk : history.length ≤ k) (hk' : k ≤ fin.length)
    (hall : (fin.take k).all Prod.snd = true) {i : ℕ} (hes : history[i]? = some es) :
    PartLinearizable model (op i) es := by
  have hi := h.mem_fin (hk.trans hk') (List.getElem?_eq_some_iff.mp hes).1
  obtain ⟨⟨j, b⟩, hmem, rfl⟩ := List.mem_map.mp hi
  obtain ⟨l, -, hverdict⟩ := h.verdict j es b hes hmem
  rw [List.take_of_length_le (h.length_fin_le.trans hk)] at hall
  exact hverdict.linearizable (List.all_eq_true.mp hall _ hmem)

/-- **A result** is received. -/
theorem Parallel.Inv.receive_step (h : p.Inv model op history computeInfo timeout fin ms)
    (hstep : p.step model history computeInfo timeout .receive = some p') :
    p'.Inv model op history computeInfo timeout fin ms ∧
      p'.left history ms < p.left history ms := by
  rw [Parallel.step] at hstep
  cases hresults : p.results with
  | nil =>
    rw [hresults] at hstep
    cases hstep
  | cons result rest =>
    obtain ⟨i, hi, hcount, hrest, htake⟩ := h.received hresults
    have hlength := h.length_fin_le
    rw [hresults] at hstep
    cases hphase : p.phase with
    | selecting =>
      obtain ⟨hkill, htimed, hok, -⟩ := h.selecting hphase
      have hok' : (p.ok && result) = (fin.take (p.count + 1)).all Prod.snd := by
        rw [htake, List.all_append, hok]
        simp
      have hillegal : (p.ok && result) = false → ∃ (i : ℕ) (es : List (Entry I O)),
          history[i]? = some es ∧ ¬ PartLinearizable model (op i) es := by
        intro hfalse
        cases hresult : result with
        | false =>
          rw [hresult] at hi
          exact h.not_partLinearizable hkill hi
        | true =>
          rw [hresult, Bool.and_true] at hfalse
          exact h.illegal hfalse
      simp only [hphase] at hstep
      split at hstep
      · -- the others are told to stop
        next hstop =>
        cases hstep
        refine ⟨⟨h.length, h.length_longest, h.worker, h.nodup, h.finished, ?_, hcount, hrest,
          fun hne => by (cases hne), hillegal, fun _ hpass => ?_, h.timedOut,
          fun _ => .inr ?_, fun _ hne => by (cases hne)⟩, ?_⟩
        · intro j es b hes hmem
          obtain ⟨l, hl, hverdict⟩ := h.verdict j es b hes hmem
          exact ⟨l, hl, hverdict.mono fun _ => rfl⟩
        · have hpass : (p.ok && result) = true := hpass
          rw [hpass] at hstop
          cases hstop
        · rw [Bool.and_eq_true, Bool.not_eq_true', Bool.not_eq_true'] at hstop
          exact hstop.2
        · simp only [Parallel.left, hphase, Phase.rank]
          omega
      · split at hstep
        · -- this was the last one
          next hlast =>
          cases hstep
          refine ⟨⟨h.length, h.length_longest, h.worker, h.nodup, h.finished, h.verdict, hcount,
            hrest, fun hne => by (cases hne), hillegal, fun _ hpass _ j es hes => ?_, h.timedOut,
            h.killed, fun _ hne => by (cases hne)⟩, ?_⟩
          · exact h.partLinearizable hlast hcount (hok'.symm.trans hpass) hes
          · simp only [Parallel.left, hphase, Phase.rank]
            omega
        · next hmore =>
          cases hstep
          refine ⟨⟨h.length, h.length_longest, h.worker, h.nodup, h.finished, h.verdict, hcount,
            hrest, fun _ => ⟨hkill, htimed, hok', .inl (Nat.not_le.mp hmore)⟩, hillegal,
            fun hne => absurd rfl hne, h.timedOut, h.killed, fun _ hne => by (cases hne)⟩, ?_⟩
          simp only [Parallel.left, hphase, Phase.rank]
          omega
    | collecting =>
      simp only [hphase] at hstep
      split at hstep
      · next hmore =>
        rw [Bool.and_eq_true, decide_eq_true_eq] at hmore
        cases hstep
        refine ⟨⟨h.length, h.length_longest, h.worker, h.nodup, h.finished, h.verdict, hcount,
          hrest, fun hne => by (cases hne), h.illegal, fun _ => h.passed (by rw [hphase]; simp),
          h.timedOut, h.killed, fun _ hne => by (cases hne)⟩, ?_⟩
        simp only [Parallel.left, hphase, Phase.rank]
        omega
      · cases hstep
    | returned r =>
      simp only [hphase] at hstep
      cases hstep

/-- **The timeout** expires. -/
theorem Parallel.Inv.timeout_step (h : p.Inv model op history computeInfo timeout fin ms)
    (hstep : p.step model history computeInfo timeout .timeout = some p') :
    p'.Inv model op history computeInfo timeout fin ms ∧
      p'.left history ms < p.left history ms := by
  rw [Parallel.step] at hstep
  split at hstep
  · next hcond =>
    obtain ⟨htimeout, hphase⟩ := hcond
    cases hstep
    refine ⟨⟨h.length, h.length_longest, h.worker, h.nodup, h.finished, ?_, h.count, h.results,
      fun hne => by (cases hne), h.illegal, fun _ _ hne => by (cases hne), fun _ => htimeout,
      fun _ => .inl rfl, fun _ hne => by (cases hne)⟩, ?_⟩
    · intro j es b hes hmem
      obtain ⟨l, hl, hverdict⟩ := h.verdict j es b hes hmem
      exact ⟨l, hl, hverdict.mono fun _ => rfl⟩
    · simp only [Parallel.left, hphase, Phase.rank]
      omega
  · cases hstep

/-- **`checkParallel` returns.** -/
theorem Parallel.Inv.finish_step (h : p.Inv model op history computeInfo timeout fin ms)
    {partialLinearizations : List (List (List ℤ))}
    (hstep : p.step model history computeInfo timeout (.finish partialLinearizations) = some p') :
    p'.Inv model op history computeInfo timeout fin ms ∧
      p'.left history ms < p.left history ms := by
  rw [Parallel.step] at hstep
  split at hstep
  · next hcond =>
    obtain ⟨hphase, hall⟩ := hcond
    have hleft : Phase.rank (.returned p.result) < p.phase.rank := by
      rw [hphase]
      exact Nat.zero_lt_one
    have hpassed := h.passed (by rw [hphase]; simp)
    cases hinfo : computeInfo with
    | true =>
      subst hinfo
      rw [if_pos rfl] at hstep
      split at hstep
      · next hperm =>
        cases hstep
        exact ⟨⟨h.length, h.length_longest, h.worker, h.nodup, h.finished, h.verdict, h.count,
          h.results, fun hne => by (cases hne), h.illegal, fun _ => hpassed, h.timedOut, h.killed,
          fun r hr => ⟨(Phase.returned.inj hr).symm, fun _ => ⟨hall rfl, rfl, hperm⟩⟩⟩,
          Nat.add_lt_add_left hleft _⟩
      · cases hstep
    | false =>
      subst hinfo
      rw [if_neg Bool.false_ne_true] at hstep
      cases hstep
      exact ⟨⟨h.length, h.length_longest, h.worker, h.nodup, h.finished, h.verdict, h.count,
        h.results, fun hne => by (cases hne), h.illegal, fun _ => hpassed, h.timedOut, h.killed,
        fun r hr => ⟨(Phase.returned.inj hr).symm, fun hne => by (cases hne)⟩⟩,
        Nat.add_lt_add_left hleft _⟩
  · cases hstep

/-- **The invariant is kept**, and what is left to do goes down. -/
theorem Parallel.Inv.step (hequal : EqualSound model) (hhistory : AllHistories op history)
    (h : p.Inv model op history computeInfo timeout fin ms) {e : ParallelEvent}
    (hstep : p.step model history computeInfo timeout e = some p') :
    ∃ fin' ms', p'.Inv model op history computeInfo timeout fin' ms' ∧
      p'.left history ms' < p.left history ms := by
  cases e with
  | worker i =>
    have hstep' := hstep
    rw [Parallel.step] at hstep
    obtain ⟨w, hw, hstep⟩ := Option.bind_eq_some_iff.mp hstep
    obtain ⟨es, hes, hstep⟩ := Option.bind_eq_some_iff.mp hstep
    have hne : w ≠ .finished := by
      rintro rfl
      cases hstep
    obtain ⟨p₂, fin', ms', hstep₂, hinv, hlt⟩ := h.worker_step hequal hhistory hw hes hne
    obtain rfl := Option.some.inj (hstep₂.symm.trans hstep')
    exact ⟨fin', ms', hinv, hlt⟩
  | receive => exact ⟨fin, ms, h.receive_step hstep⟩
  | timeout => exact ⟨fin, ms, h.timeout_step hstep⟩
  | finish partialLinearizations => exact ⟨fin, ms, h.finish_step hstep⟩

/-- **Every run** keeps the invariant, and no run is longer than what there is to do. -/
theorem Parallel.Inv.run (hequal : EqualSound model) (hhistory : AllHistories op history)
    (h : p.Inv model op history computeInfo timeout fin ms) {events : List ParallelEvent}
    (hrun : ExchangeLabs.run (fun p e => p.step model history computeInfo timeout e) p events =
      some p') :
    ∃ fin' ms', p'.Inv model op history computeInfo timeout fin' ms' ∧
      p'.left history ms' + events.length ≤ p.left history ms := by
  induction events generalizing p fin ms with
  | nil =>
    cases hrun
    exact ⟨fin, ms, h, le_rfl⟩
  | cons e events ih =>
    rw [ExchangeLabs.run] at hrun
    obtain ⟨p₁, hp₁, hrun⟩ := Option.bind_eq_some_iff.mp hrun
    obtain ⟨fin₁, ms₁, h₁, hlt⟩ := h.step hequal hhistory hp₁
    obtain ⟨fin', ms', h', hle⟩ := ih h₁ hrun
    exact ⟨fin', ms', h', by rw [List.length_cons]; omega⟩

/-- **Something can happen** until `checkParallel` returns. -/
theorem Parallel.Inv.progress (hequal : EqualSound model) (hhistory : AllHistories op history)
    (h : p.Inv model op history computeInfo timeout fin ms)
    (hne : history ≠ [] ∨ 0 < timeout) (hphase : ∀ result, p.phase ≠ .returned result) :
    ∃ e p', p.step model history computeInfo timeout e = some p' := by
  by_cases hall : ∃ i < history.length, p.workers[i]? ≠ some .finished
  · -- a goroutine goes on
    obtain ⟨i, hi, hworker⟩ := hall
    have hw := List.getElem?_eq_getElem (h.length.symm ▸ hi : i < p.workers.length)
    have hes := List.getElem?_eq_getElem hi
    obtain ⟨p', -, -, hstep, -⟩ := h.worker_step hequal hhistory hw hes fun heq =>
      hworker (heq ▸ hw)
    exact ⟨.worker i, p', hstep⟩
  · -- all have sent their results
    have hfin : history.length ≤ fin.length := by
      have hsubset : List.range history.length ⊆ fin.map Prod.fst := by
        intro i hi
        by_contra hnot
        exact hall ⟨i, List.mem_range.mp hi, fun heq => hnot ((h.finished i).mpr heq)⟩
      have := (List.nodup_range.subperm hsubset).length_le
      rwa [List.length_range, List.length_map] at this
    have hreceive : p.count < fin.length → ∃ result rest, p.results = result :: rest := by
      intro hlt
      rw [h.results, List.drop_eq_getElem_cons hlt]
      exact ⟨_, _, rfl⟩
    cases hp : p.phase with
    | selecting =>
      obtain ⟨-, -, -, hcount⟩ := h.selecting hp
      by_cases htimeout : 0 < timeout
      · exact ⟨.timeout, _, by rw [Parallel.step, if_pos ⟨htimeout, hp⟩]⟩
      · have hlt := hcount.resolve_right (hne.resolve_right htimeout)
        obtain ⟨result, rest, hresults⟩ := hreceive (hlt.trans_le hfin)
        refine ⟨.receive, ?_⟩
        simp only [Parallel.step, hresults, hp]
        split
        · exact ⟨_, rfl⟩
        · split
          · exact ⟨_, rfl⟩
          · exact ⟨_, rfl⟩
    | collecting =>
      by_cases hcollected : computeInfo = true → history.length ≤ p.count
      · -- it may come by the partial linearizations in the order of the operations
        refine ⟨.finish (p.longest.map linearizations), ?_⟩
        rw [Parallel.step, if_pos ⟨hp, hcollected⟩]
        cases computeInfo with
        | true =>
          rw [if_pos rfl, if_pos (List.forall₂_same.mpr fun l _ => List.Perm.refl l)]
          exact ⟨_, rfl⟩
        | false => exact ⟨_, rfl⟩
      · rw [Classical.not_imp, Nat.not_le] at hcollected
        obtain ⟨hinfo, hlt⟩ := hcollected
        obtain ⟨result, rest, hresults⟩ := hreceive (hlt.trans_le hfin)
        refine ⟨.receive, { p with results := rest, count := p.count + 1 }, ?_⟩
        simp only [Parallel.step, hresults, hp]
        rw [if_pos (by simp [hinfo, hlt])]
    | returned result => exact absurd hp (hphase result)

end ExchangeLabs.Porcupine
