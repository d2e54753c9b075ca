import ExchangeLabs.Raft.Server

/-!
# What the loop of `AppendEntries` does to a log

The loop passes over the entries of a request that the log has already, as far as
their terms tell.  At the first that it has not, it cuts the log, if it goes on there,
and appends this entry and all after it; one by one beyond the end of the log, and at
once behind a cut.

## Main definitions

* `Server.entryAt rf i` — the entry at the logical index `i`, above the snapshot.
* `Server.Merged rf k entries log m` — `log` is the outcome of the loop from the index
  `k + 1` on, which has passed over `m` entries.

## Main results

* `Server.exists_merged` — the loop does this, and never indexes out of range.
* `Server.Merged.entryAt_of_cut` — the entries of the outcome.
-/

namespace ExchangeLabs.Raft

variable {n : ℕ} {α β : Type}

namespace Server

variable {rf rf' : Server n α β} {i k : ℤ} {m : ℕ} {entries log : List (LogEntry α)}

/-! ### Entries by logical index -/

/-- The entry that a server holds at a logical index above its snapshot. -/
def entryAt (rf : Server n α β) (i : ℤ) : Option (LogEntry α) :=
  if rf.lastIncludedIndex < i then elemAt rf.log (i - rf.lastIncludedIndex) else none

theorem entryAt_of_lt (hi : rf.lastIncludedIndex < i) :
    rf.entryAt i = rf.log[(i - rf.lastIncludedIndex).toNat]? := by
  unfold entryAt
  rw [if_pos hi, elemAt_of_nonneg (by omega)]

/-- The entries of a server with another log. -/
theorem entryAt_of_log (log : List (LogEntry α)) (hi : rf.lastIncludedIndex < i) :
    ({ rf with log := log } : Server n α β).entryAt i =
      log[(i - rf.lastIncludedIndex).toNat]? := entryAt_of_lt hi

theorem entryAt_congr (hlog : rf'.log = rf.log)
    (hindex : rf'.lastIncludedIndex = rf.lastIncludedIndex) (i : ℤ) :
    rf'.entryAt i = rf.entryAt i := by
  unfold entryAt
  rw [hlog, hindex]

theorem getLogTerm_of_lt (hi : rf.lastIncludedIndex < i) :
    rf.getLogTerm i = (rf.entryAt i).map LogEntry.term := by
  unfold getLogTerm entryAt
  rw [if_neg (by omega), if_neg (by omega), if_pos hi]

theorem exists_entryAt (hlt : rf.lastIncludedIndex < i) (hle : i ≤ rf.getLastLogIndex) :
    ∃ e, rf.entryAt i = some e := by
  unfold getLastLogIndex at hle
  rw [entryAt_of_lt hlt]
  exact ⟨_, List.getElem?_eq_getElem (by omega)⟩

theorem entryAt_eq_none (hlt : rf.getLastLogIndex < i) : rf.entryAt i = none := by
  unfold getLastLogIndex at hlt
  unfold entryAt
  split
  · rw [elemAt_of_nonneg (by omega), List.getElem?_eq_none_iff]
    omega
  · rfl

theorem getLogTerm_lastIncludedIndex (rf : Server n α β) :
    rf.getLogTerm rf.lastIncludedIndex = some rf.lastIncludedTerm := by
  unfold getLogTerm
  rw [if_neg (lt_irrefl _), if_pos rfl]

/-- The term at the snapshot's own index or above it, within the log. -/
theorem exists_getLogTerm (rf : Server n α β) {i : ℤ} (hle : rf.lastIncludedIndex ≤ i)
    (hlast : i ≤ rf.getLastLogIndex) :
    ∃ t, rf.getLogTerm i = some t := by
  rcases eq_or_lt_of_le hle with rfl | hlt
  · exact ⟨rf.lastIncludedTerm, rf.getLogTerm_lastIncludedIndex⟩
  · obtain ⟨e, he⟩ := exists_entryAt hlt hlast
    exact ⟨e.term, by rw [getLogTerm_of_lt hlt, he]; rfl⟩

/-- The backward scan of a rejection stays within the log. -/
theorem exists_scanConflict (rf : Server n α β) (t : ℤ) : ∀ k : ℕ,
    rf.lastIncludedIndex + k ≤ rf.getLastLogIndex →
    ∃ i, rf.scanConflict t k = some i ∧ i ≤ rf.lastIncludedIndex + k := by
  intro k
  induction k with
  | zero => exact fun _ => ⟨_, rfl, by omega⟩
  | succ k ih =>
    intro hk
    push_cast at hk
    obtain ⟨u, hu⟩ := rf.exists_getLogTerm (i := rf.lastIncludedIndex + (k + 1)) (by omega) hk
    unfold scanConflict
    rw [hu]
    simp only [Option.bind_eq_bind, Option.bind_some]
    split
    · obtain ⟨i, hi, hle⟩ := ih (by omega)
      exact ⟨i, hi, by omega⟩
    · exact ⟨_, rfl, by omega⟩

/-! ### The loop -/

/-- The first `m` of the entries have the terms that the log has after `k`.  Either these are all
of them and the log is left as it is, or the log ends there or has another term there, and the
other entries replace what comes after. -/
structure Merged (rf : Server n α β) (k : ℤ) (entries log : List (LogEntry α)) (m : ℕ) : Prop where
  le : k + m ≤ rf.getLastLogIndex
  same : ∀ j < m, ∃ x e, rf.entryAt (k + 1 + j) = some x ∧ entries[j]? = some e ∧ x.term = e.term
  outcome : m = entries.length ∧ log = rf.log ∨
    m < entries.length ∧
      log = rf.log.take (k + m + 1 - rf.lastIncludedIndex).toNat ++ entries.drop m ∧
      ∀ x e, rf.entryAt (k + 1 + m) = some x → entries[m]? = some e → x.term ≠ e.term

/-- Beyond the end of the log, the entries are appended one by one. -/
theorem mergeEntries_of_last_lt : ∀ (entries : List (LogEntry α)) (rf : Server n α β) (i : ℤ),
    rf.getLastLogIndex < i →
      rf.mergeEntries i entries = some { rf with log := rf.log ++ entries } := by
  intro entries
  induction entries with
  | nil =>
    intro rf i _
    rw [List.append_nil]
    rfl
  | cons entry entries ih =>
    intro rf i hi
    unfold mergeEntries
    rw [if_neg (not_le.mpr hi), ih]
    · simp only [List.append_assoc, List.singleton_append]
    · unfold getLastLogIndex at hi ⊢
      simp only [List.length_append, List.length_singleton]
      push_cast
      omega

/-- The log is cut behind `k`, or ends there, and all entries are new. -/
theorem Merged.cut {entry : LogEntry α} (hlast : k ≤ rf.getLastLogIndex)
    (hdiff : ∀ x, rf.entryAt (k + 1) = some x → x.term ≠ entry.term) :
    rf.Merged k (entry :: entries)
      (rf.log.take (k + 1 - rf.lastIncludedIndex).toNat ++ entry :: entries) 0 := by
  have hpos : k + ((0 : ℕ) : ℤ) + 1 - rf.lastIncludedIndex = k + 1 - rf.lastIncludedIndex := by
    push_cast
    omega
  refine ⟨?_, fun j hj => absurd hj (Nat.not_lt_zero j), Or.inr ⟨Nat.succ_pos _, ?_, ?_⟩⟩
  · push_cast
    omega
  · rw [hpos]
    rfl
  · intro x e hx he
    cases he
    rw [Nat.cast_zero, add_zero] at hx
    exact hdiff x hx

/-- The log has the first entry already. -/
theorem Merged.pass {x entry : LogEntry α} (hx : rf.entryAt (k + 1) = some x)
    (hterm : x.term = entry.term) (h : rf.Merged (k + 1) entries log m) :
    rf.Merged k (entry :: entries) log (m + 1) := by
  have hshift : ∀ j : ℕ, k + 1 + ((j + 1 : ℕ) : ℤ) = k + 1 + 1 + j := by
    intro j
    push_cast
    omega
  refine ⟨?_, ?_, ?_⟩
  · have := h.le
    push_cast
    omega
  · intro j hj
    cases j with
    | zero => exact ⟨x, entry, by rw [Nat.cast_zero, add_zero, hx], rfl, hterm⟩
    | succ j =>
      rw [hshift]
      exact h.same j (by omega)
  · rcases h.outcome with ⟨hall, hlog⟩ | ⟨hlt, hlog, hdiff⟩
    · exact Or.inl ⟨by rw [hall, List.length_cons], hlog⟩
    · refine Or.inr ⟨by rw [List.length_cons]; omega, ?_, ?_⟩
      · rw [hlog, List.drop_succ_cons]
        congr 3
        push_cast
        omega
      · rw [hshift]
        exact hdiff

/-- **The loop of `AppendEntries`.** -/
theorem exists_merged (rf : Server n α β) : ∀ (entries : List (LogEntry α)) (k : ℤ),
    rf.lastIncludedIndex ≤ k → k ≤ rf.getLastLogIndex →
    ∃ log m, rf.mergeEntries (k + 1) entries = some { rf with log := log } ∧
      rf.Merged k entries log m := by
  intro entries
  induction entries with
  | nil =>
    intro k _ hlast
    refine ⟨rf.log, 0, rfl, ⟨?_, fun j hj => absurd hj (Nat.not_lt_zero j), Or.inl ⟨rfl, rfl⟩⟩⟩
    push_cast
    omega
  | cons entry entries ih =>
    intro k hle hlast
    have hlen : rf.getLastLogIndex = rf.lastIncludedIndex + rf.log.length - 1 := rfl
    by_cases hin : k + 1 ≤ rf.getLastLogIndex
    · obtain ⟨x, hx⟩ := exists_entryAt (by omega) hin
      have hterm : rf.getLogTerm (k + 1) = some x.term := by
        rw [getLogTerm_of_lt (by omega), hx]
        rfl
      unfold mergeEntries
      rw [if_pos hin, hterm]
      simp only [Option.bind_eq_bind, Option.bind_some]
      by_cases hne : x.term ≠ entry.term
      · -- another term: the log is cut here
        rw [if_pos hne, subslice_zero (by omega) (by omega)]
        refine ⟨_, 0, rfl, .cut hlast fun x' hx' => ?_⟩
        rw [hx] at hx'
        cases hx'
        exact hne
      · -- the log has this entry already
        rw [if_neg hne]
        obtain ⟨log, m, hmerge, hm⟩ := ih (k + 1) (by omega) hin
        exact ⟨log, m + 1, hmerge, .pass hx (not_not.mp hne) hm⟩
    · -- the log ends here
      rw [mergeEntries_of_last_lt _ _ _ (not_le.mp hin)]
      have htake : rf.log.take (k + 1 - rf.lastIncludedIndex).toNat = rf.log :=
        List.take_of_length_le (by omega)
      have hdiff : ∀ x, rf.entryAt (k + 1) = some x → x.term ≠ entry.term := by
        intro x hx
        rw [entryAt_eq_none (not_le.mp hin)] at hx
        cases hx
      have hcut : rf.Merged k (entry :: entries) _ 0 := .cut hlast hdiff
      rw [htake] at hcut
      exact ⟨_, 0, rfl, hcut⟩

/-- The entries behind a cut. -/
theorem Merged.entryAt_of_cut (h : rf.Merged k entries log m) (hk : rf.lastIncludedIndex ≤ k)
    (hlog : log = rf.log.take (k + m + 1 - rf.lastIncludedIndex).toNat ++ entries.drop m) (i : ℤ) :
    ({ rf with log := log } : Server n α β).entryAt i =
      if i ≤ k + m then rf.entryAt i else entries[(i - k - 1).toNat]? := by
  have hle := h.le
  unfold getLastLogIndex at hle
  have hlen : (rf.log.take (k + m + 1 - rf.lastIncludedIndex).toNat).length =
      (k + m + 1 - rf.lastIncludedIndex).toNat := by
    rw [List.length_take]
    omega
  split
  · next hold =>
    by_cases hi : rf.lastIncludedIndex < i
    · rw [entryAt_of_lt hi, entryAt_of_log log hi, hlog,
        List.getElem?_append_left (by omega), List.getElem?_take_of_lt (by omega)]
    · unfold entryAt
      rw [if_neg hi, if_neg hi]
  · next hnew =>
    have hi : rf.lastIncludedIndex < i := by omega
    rw [entryAt_of_log log hi, hlog, List.getElem?_append_right (by omega), hlen,
      List.getElem?_drop]
    congr 1
    omega

end Server

end ExchangeLabs.Raft
