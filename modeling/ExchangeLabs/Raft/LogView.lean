import ExchangeLabs.Lib.Replication
import ExchangeLabs.Raft.Merge

/-!
# The full log behind a compacted one

A server keeps only the part of its log above its snapshot, behind a dummy entry
that carries the snapshot's last term.  `Holds rf F` says that `F` is the log as
it would be had nothing been compacted.  Seen through it, the index arithmetic of
`raft.go` disappears: a logical index is a length of a prefix of `F`, a term test
at an index compares the last terms of two prefixes, and the log operations of
the handlers are operations on `F`.

## Main definitions

* `Server.Holds rf F` — `F` is the full log of `rf`.
* `Towards L F F'` — `F'` comes from `F` by a move towards the log `L`.

## Main results

* `Holds.mergeEntries_eq` — the loop of `AppendEntries` moves towards the
  sender's log and reaches the end of the request.
* `Holds.installSnapshotLog_eq` — so does the body of `InstallSnapshot`.
* `Holds.takeSnapshot_eq` — `Snapshot` leaves the full log as it is.
* `Holds.of_buildAppendEntries` — a request is a slice of the sender's log.
-/

namespace ExchangeLabs.Raft

variable {n : ℕ} {α β : Type}

/-! ### Last terms of prefixes -/

/-- The last term of a log or a prefix of it. -/
abbrev logTerm (F : List (LogEntry α)) : ℤ := lastTerm LogEntry.term F

theorem logTerm_take_succ {F : List (LogEntry α)} {k : ℕ} {e : LogEntry α} (he : F[k]? = some e) :
    logTerm (F.take (k + 1)) = e.term := by
  rw [List.take_add_one, he]
  exact lastTerm_concat _ _ e

theorem take_succ_eq {F : List (LogEntry α)} {k : ℕ} {e : LogEntry α} (he : F[k]? = some e) :
    F.take (k + 1) = F.take k ++ [e] := by
  rw [List.take_add_one, he]
  rfl

/-- A nonempty prefix ends in an entry. -/
theorem exists_take_eq {F : List (LogEntry α)} {k : ℕ} (hk : k < F.length) :
    ∃ e, F[k]? = some e ∧ F.take (k + 1) = F.take k ++ [e] ∧ logTerm (F.take (k + 1)) = e.term :=
  ⟨F[k], List.getElem?_eq_getElem hk, take_succ_eq (List.getElem?_eq_getElem hk),
    logTerm_take_succ (List.getElem?_eq_getElem hk)⟩

/-- **Log matching for prefixes**: two valid logs whose prefixes of one length
have the same last term agree on these prefixes. -/
theorem take_eq_of_logTerm_eq {h : History (Fin n) (LogEntry α)} {F L : List (LogEntry α)} {k : ℕ}
    (hF : Valid LogEntry.term h F) (hL : Valid LogEntry.term h L) (hkF : k ≤ F.length)
    (hkL : k ≤ L.length) (hterm : logTerm (F.take k) = logTerm (L.take k)) :
    F.take k = L.take k := by
  cases k with
  | zero => rfl
  | succ k =>
    obtain ⟨e, -, he, het⟩ := exists_take_eq hkF
    obtain ⟨f, -, hf, hft⟩ := exists_take_eq hkL
    rw [het, hft] at hterm
    rw [he, hf]
    refine Valid.eq_of_term_eq hF hL (he ▸ List.take_prefix _ _) (hf ▸ List.take_prefix _ _)
      ?_ hterm
    rw [List.length_take, List.length_take]
    omega

theorem take_eq_of_isPrefix {p F : List (LogEntry α)} {k : ℕ} (hp : p <+: F) (hk : k ≤ p.length) :
    F.take k = p.take k := by
  obtain ⟨x, rfl⟩ := hp
  exact List.take_append_of_le_length hk

/-- The entries of a request that is a slice of `L`. -/
theorem getElem?_of_isPrefix_drop {entries L : List (LogEntry α)} {k j : ℕ} {x : LogEntry α}
    (hent : entries <+: L.drop k)
    (hx : entries[j]? = some x) : L[k + j]? = some x := by
  obtain ⟨hj, rfl⟩ := List.getElem?_eq_some_iff.mp hx
  rw [← List.getElem?_drop]
  exact List.prefix_iff_getElem?.mp hent j hj

/-! ### Moves towards a log -/

/-- `F'` is `F`, or a prefix of `L` that keeps what `F` and `L` share. -/
structure Towards (L F F' : List (LogEntry α)) : Prop where
  eq_or_isPrefix : F' = F ∨ F' <+: L
  keep : ∀ p, p <+: F → p <+: L → p <+: F'

theorem Towards.refl (L F : List (LogEntry α)) : Towards L F F :=
  ⟨Or.inl rfl, fun _ hp _ => hp⟩

/-- Cutting a log where it first disagrees with `L`, and going on with `L`. -/
theorem towards_take {L F : List (LogEntry α)} {k m : ℕ} (hkm : k ≤ m)
    (hdiff : F.take (k + 1) ≠ L.take (k + 1) ∨ F.length ≤ k) : Towards L F (L.take m) := by
  refine ⟨Or.inr (List.take_prefix _ _), fun p hpF hpL => ?_⟩
  have hpk : p.length ≤ k := by
    by_contra hlong
    rcases hdiff with hne | hle
    · exact hne
        ((take_eq_of_isPrefix hpF (by omega)).trans (take_eq_of_isPrefix hpL (by omega)).symm)
    · have := hpF.length_le
      omega
  exact List.prefix_take_iff.mpr ⟨hpL, hpk.trans hkm⟩

/-! ### Requests -/

/-- The request asks to append a slice of the log `L`. -/
structure AppendingEntriesArgs.SliceOf (args : AppendingEntriesArgs n α)
    (L : List (LogEntry α)) : Prop where
  nonneg : 0 ≤ args.prevLogIndex
  le : args.prevLogIndex ≤ L.length
  term : args.prevLogTerm = logTerm (L.take args.prevLogIndex.toNat)
  entries : args.entries <+: L.drop args.prevLogIndex.toNat

/-- The length of the log that a request has been filled up to. -/
def AppendingEntriesArgs.lastNew (args : AppendingEntriesArgs n α) : ℕ :=
  args.prevLogIndex.toNat + args.entries.length

/-- The request carries a snapshot of a prefix of the log `L`. -/
structure InstallSnapshotArgs.PrefixOf (args : InstallSnapshotArgs n β)
    (L : List (LogEntry α)) : Prop where
  nonneg : 0 ≤ args.lastIncludedIndex
  le : args.lastIncludedIndex ≤ L.length
  term : args.lastIncludedTerm = logTerm (L.take args.lastIncludedIndex.toNat)

namespace Server

/-- The log of `rf` is the part of `F` above its snapshot, behind a dummy entry
with the snapshot's last term. -/
structure Holds (rf : Server n α β) (F : List (LogEntry α)) : Prop where
  nonneg : 0 ≤ rf.lastIncludedIndex
  le : rf.lastIncludedIndex ≤ F.length
  log : ∃ d, rf.log = d :: F.drop rf.lastIncludedIndex.toNat ∧ d.term = rf.lastIncludedTerm
  term : rf.lastIncludedTerm = logTerm (F.take rf.lastIncludedIndex.toNat)

variable {rf rf' : Server n α β} {F L : List (LogEntry α)}

theorem Holds.congr (hF : rf.Holds F) (hlog : rf'.log = rf.log)
    (hi : rf'.lastIncludedIndex = rf.lastIncludedIndex)
    (ht : rf'.lastIncludedTerm = rf.lastIncludedTerm) : rf'.Holds F := by
  obtain ⟨h1, h2, h3, h4⟩ := hF
  exact ⟨hi ▸ h1, hi ▸ h2, by rw [hlog, hi, ht]; exact h3, by rw [ht, hi]; exact h4⟩

theorem Holds.length (hF : rf.Holds F) :
    (rf.log.length : ℤ) = F.length - rf.lastIncludedIndex + 1 := by
  obtain ⟨d, hd, -⟩ := hF.log
  have := hF.nonneg
  have := hF.le
  rw [hd, List.length_cons, List.length_drop]
  omega

theorem Holds.getLastLogIndex_eq (hF : rf.Holds F) : rf.getLastLogIndex = F.length := by
  have := hF.length
  unfold getLastLogIndex
  omega

/-- The entry at a physical index above the dummy. -/
theorem Holds.elemAt_log (hF : rf.Holds F) {i : ℤ} (hi : rf.lastIncludedIndex < i) :
    elemAt rf.log (i - rf.lastIncludedIndex) = F[(i - 1).toNat]? := by
  obtain ⟨d, hd, -⟩ := hF.log
  have h0 := hF.nonneg
  rw [elemAt_of_nonneg (by omega), hd]
  have hpos : (i - rf.lastIncludedIndex).toNat = (i - 1 - rf.lastIncludedIndex).toNat + 1 := by
    omega
  rw [hpos, List.getElem?_cons_succ, List.getElem?_drop]
  congr 1
  omega

theorem Holds.getLogTerm_eq (hF : rf.Holds F) {i : ℤ} (hlo : rf.lastIncludedIndex ≤ i)
    (hhi : i ≤ F.length) : rf.getLogTerm i = some (logTerm (F.take i.toNat)) := by
  unfold getLogTerm
  rw [if_neg (not_lt.mpr hlo)]
  split
  · next heq => rw [hF.term, heq]
  · next hne =>
    have h0 := hF.nonneg
    rw [hF.elemAt_log (by omega)]
    obtain ⟨e, he, -, het⟩ := exists_take_eq (F := F) (k := (i - 1).toNat) (by omega)
    have hi : i.toNat = (i - 1).toNat + 1 := by omega
    rw [he, hi, het]
    rfl

/-- A term is read out of range only above the end of the log. -/
theorem Holds.le_of_getLogTerm (hF : rf.Holds F) {i t : ℤ} (hlo : rf.lastIncludedIndex ≤ i)
    (ht : rf.getLogTerm i = some t) : i ≤ F.length := by
  rcases eq_or_lt_of_le hlo with rfl | hlt
  · exact hF.le
  · unfold getLogTerm at ht
    rw [if_neg (by omega), if_neg (by omega), hF.elemAt_log hlt, Option.map_eq_some_iff] at ht
    obtain ⟨e, he, -⟩ := ht
    have := (List.getElem?_eq_some_iff.mp he).1
    have := hF.nonneg
    omega

theorem Holds.getLastLogTerm_eq (hF : rf.Holds F) : rf.getLastLogTerm = logTerm F := by
  obtain ⟨d, hd, hdt⟩ := hF.log
  unfold getLastLogTerm
  rw [hd]
  by_cases hlen : F.length ≤ rf.lastIncludedIndex.toNat
  · rw [List.drop_eq_nil_of_le hlen]
    simp only [List.getLast?_singleton]
    rw [hdt, hF.term, List.take_of_length_le hlen]
  · obtain ⟨F', e, rfl⟩ := (List.eq_nil_or_concat' F).resolve_left (by rintro rfl; simp at hlen)
    rw [List.length_append, List.length_singleton] at hlen
    rw [List.drop_append_of_le_length (by omega), ← List.cons_append, List.getLast?_concat]
    exact (lastTerm_concat LogEntry.term F' e).symm

/-! ### AppendEntries -/

/-- The log `F` cut after `k` entries and continued with `entries`. -/
theorem Holds.append_entries (hF : rf.Holds F) {k : ℕ} (entries : List (LogEntry α))
    (hlo : rf.lastIncludedIndex ≤ k) (hhi : k ≤ F.length) :
    ({ rf with log := rf.log.take (k + 1 - rf.lastIncludedIndex).toNat ++ entries }
      : Server n α β).Holds (F.take k ++ entries) := by
  obtain ⟨d, hd, hdt⟩ := hF.log
  have h0 := hF.nonneg
  have hlen : (F.take k).length = k := by
    rw [List.length_take]
    omega
  refine ⟨h0, ?_, ⟨d, ?_, hdt⟩, ?_⟩
  · change rf.lastIncludedIndex ≤ _
    rw [List.length_append, hlen]
    omega
  · have hpos : (k + 1 - rf.lastIncludedIndex).toNat = k - rf.lastIncludedIndex.toNat + 1 := by
      omega
    simp only [hd, hpos, List.take_succ_cons, List.cons_append]
    rw [List.drop_append_of_le_length (by omega), List.drop_take]
  · change rf.lastIncludedTerm = logTerm ((F.take k ++ entries).take rf.lastIncludedIndex.toNat)
    rw [hF.term, List.take_append_of_le_length (by omega), List.take_take,
      min_eq_left (by omega)]

/-- The entry at a logical index. -/
theorem Holds.entryAt_eq (hF : rf.Holds F) {i : ℤ} (hi : rf.lastIncludedIndex < i) :
    rf.entryAt i = F[(i - 1).toNat]? := by
  unfold entryAt
  rw [if_pos hi, hF.elemAt_log hi]

/-- **The loop of `AppendEntries`**: where the log agrees with the sender's log
`L` up to the start of the request, the loop moves it towards `L` and reaches the
end of the request. -/
theorem Holds.mergeEntries_eq {h : History (Fin n) (LogEntry α)} (hL : Valid LogEntry.term h L)
    {entries : List (LogEntry α)} {k : ℕ} (hF : rf.Holds F) (hFv : Valid LogEntry.term h F)
    (hlo : rf.lastIncludedIndex ≤ k) (hhi : k ≤ F.length) (hFL : F.take k = L.take k)
    (hent : entries <+: L.drop k) :
    ∃ log F', rf.mergeEntries (k + 1) entries = some { rf with log := log } ∧
      ({ rf with log := log } : Server n α β).Holds F' ∧ Towards L F F' ∧
      L.take (k + entries.length) <+: F' := by
  obtain ⟨log, m, hmerge, hm⟩ := exists_merged rf entries k hlo (by
    rw [hF.getLastLogIndex_eq]
    exact_mod_cast hhi)
  have hle := hm.le
  rw [hF.getLastLogIndex_eq] at hle
  have hLk : ∀ {j : ℕ} {e : LogEntry α}, entries[j]? = some e → L[k + j]? = some e :=
    getElem?_of_isPrefix_drop hent
  have hFk : ∀ {j : ℕ} {x : LogEntry α}, F[k + j]? = some x → rf.entryAt (k + 1 + j) = some x := by
    intro j x hx
    rw [hF.entryAt_eq (by omega), ← hx]
    congr 1
    omega
  -- the entries that were passed over are those of `L`
  have hpassed : F.take (k + m) = L.take (k + m) := by
    cases m with
    | zero => exact hFL
    | succ m =>
      obtain ⟨x, e, hx, he, hterm⟩ := hm.same m (Nat.lt_succ_self m)
      obtain ⟨x', hx', -, -⟩ := exists_take_eq (F := F) (k := k + m) (by omega)
      rw [hFk hx'] at hx
      cases hx
      refine take_eq_of_logTerm_eq hFv hL (by omega)
        (List.getElem?_eq_some_iff.mp (hLk he)).1 ?_
      rw [← Nat.add_assoc, logTerm_take_succ hx', logTerm_take_succ (hLk he), hterm]
  rcases hm.outcome with ⟨hall, rfl⟩ | ⟨hlt, rfl, hdiff⟩
  · refine ⟨rf.log, F, hmerge, hF, Towards.refl L F, ?_⟩
    rw [← hall, ← hpassed]
    exact List.take_prefix _ _
  · -- what follows is cut off, and the rest of the request takes its place
    have hrest : F.take (k + m) ++ entries.drop m = L.take (k + entries.length) := by
      have htail : entries.drop m = (L.drop (k + m)).take (entries.length - m) := by
        conv_lhs => rw [List.prefix_iff_eq_take.mp hent]
        rw [List.drop_take, List.drop_drop]
      rw [hpassed, htail, ← List.take_add]
      congr 1
      omega
    have hnew := hF.append_entries (k := k + m) (entries.drop m) (by omega) (by omega)
    refine ⟨_, _, hmerge, ?_, ?_, ⟨[], (List.append_nil _).trans hrest.symm⟩⟩
    · push_cast at hnew
      exact hnew
    · rw [hrest]
      refine towards_take (by omega : k + m ≤ k + entries.length) ?_
      by_cases hshort : F.length ≤ k + m
      · exact Or.inr hshort
      · obtain ⟨x, hx, -, hxt⟩ := exists_take_eq (not_le.mp hshort)
        obtain ⟨e, he⟩ : ∃ e, entries[m]? = some e := ⟨_, List.getElem?_eq_getElem hlt⟩
        refine Or.inl fun heq => hdiff x e (hFk hx) he ?_
        rw [← hxt, heq, logTerm_take_succ (hLk he)]

/-- The backward scan of a rejection stops at the snapshot, or where another term is. -/
theorem Holds.scanConflict_eq (hF : rf.Holds F) (t : ℤ) : ∀ k : ℕ,
    rf.lastIncludedIndex + k ≤ F.length → ∃ i, rf.scanConflict t k = some i ∧
      rf.lastIncludedIndex ≤ i ∧ i ≤ rf.lastIncludedIndex + k ∧
      (i = rf.lastIncludedIndex ∨ logTerm (F.take i.toNat) ≠ t) := by
  intro k
  induction k with
  | zero => exact fun _ => ⟨_, rfl, le_rfl, by omega, Or.inl rfl⟩
  | succ k ih =>
    intro hk
    obtain ⟨i, hi, hlo, hhi, hstop⟩ := ih (by omega)
    unfold scanConflict
    rw [hF.getLogTerm_eq (by omega) (by exact_mod_cast hk)]
    simp only [Option.bind_eq_bind, Option.bind_some]
    split
    · exact ⟨i, hi, hlo, by omega, hstop⟩
    · next hother => exact ⟨_, rfl, by omega, by push_cast; omega, Or.inr hother⟩

/-- **The body of `AppendEntries`** either rejects and leaves the server alone,
or moves its log towards the sender's and reaches the end of the request. -/
theorem Holds.appendEntriesLog_eq {h : History (Fin n) (LogEntry α)} (hF : rf.Holds F)
    (hFv : Valid LogEntry.term h F) (hL : Valid LogEntry.term h L)
    {args : AppendingEntriesArgs n α} (hargs : args.SliceOf L) :
    (∃ reply, rf.appendEntriesLog args = some (rf, reply) ∧ reply.success = false ∧
      reply.term = rf.currentTerm) ∨
    ∃ log F', rf.appendEntriesLog args =
        some (({ rf with log := log } : Server n α β).advanceCommit args,
          { term := rf.currentTerm, success := true }) ∧
      ({ rf with log := log } : Server n α β).Holds F' ∧ Towards L F F' ∧
      L.take args.lastNew <+: F' := by
  obtain ⟨h0, hle, hterm, hent⟩ := hargs
  unfold appendEntriesLog
  by_cases hA : args.prevLogIndex < rf.lastIncludedIndex
  · rw [if_pos hA]
    exact Or.inl ⟨_, rfl, rfl, rfl⟩
  rw [if_neg hA]
  by_cases hB : args.prevLogIndex > rf.getLastLogIndex
  · rw [if_pos hB]
    exact Or.inl ⟨_, rfl, rfl, rfl⟩
  rw [if_neg hB]
  rw [hF.getLastLogIndex_eq] at hB
  rw [hF.getLogTerm_eq (by omega) (by omega)]
  simp only [Option.bind_eq_bind, Option.bind_some]
  have hnn := hF.nonneg
  by_cases hC : logTerm (F.take args.prevLogIndex.toNat) ≠ args.prevLogTerm
  · rw [if_pos hC]
    obtain ⟨i, hi, -⟩ := hF.scanConflict_eq (logTerm (F.take args.prevLogIndex.toNat))
      (args.prevLogIndex - rf.lastIncludedIndex).toNat (by omega)
    rw [hi]
    exact Or.inl ⟨_, rfl, rfl, rfl⟩
  · rw [if_neg hC]
    push Not at hC
    have hFL : F.take args.prevLogIndex.toNat = L.take args.prevLogIndex.toNat :=
      take_eq_of_logTerm_eq hFv hL (by omega) (by omega) (hC.trans hterm)
    obtain ⟨log, F', h1, h2, h3, h4⟩ :=
      hF.mergeEntries_eq hL hFv (k := args.prevLogIndex.toNat) (by omega) (by omega) hFL hent
    rw [Int.toNat_of_nonneg h0] at h1
    rw [h1]
    exact Or.inr ⟨log, F', rfl, h2, h3, h4⟩

/-! ### Snapshots -/

/-- A trimmed log: a dummy entry, and what comes after the offset. -/
theorem trimLog_eq (rf : Server n α β) {offset : ℤ} (hlo : 0 ≤ offset)
    (hhi : offset < rf.log.length) (t : ℤ) :
    rf.trimLog offset t =
      some ({ command := none, term := t } :: rf.log.drop (offset + 1).toNat) := by
  unfold trimLog
  split
  · rw [subslice_length (by omega) (by omega)]
    rfl
  · rw [List.drop_eq_nil_of_le (by omega)]

/-- Trimming the log behind a dummy entry of the right term keeps the full log. -/
theorem Holds.trimLog_eq (hF : rf.Holds F) {k t : ℤ} (hlo : rf.lastIncludedIndex ≤ k)
    (hhi : k ≤ F.length) (ht : t = logTerm (F.take k.toNat)) :
    ∃ log, rf.trimLog (k - rf.lastIncludedIndex) t = some log ∧
      ∀ rf' : Server n α β, rf'.log = log → rf'.lastIncludedIndex = k →
        rf'.lastIncludedTerm = t → rf'.Holds F := by
  have hlen := hF.length
  have h0 := hF.nonneg
  obtain ⟨d, hd, -⟩ := hF.log
  have hdrop : rf.log.drop (k - rf.lastIncludedIndex + 1).toNat = F.drop k.toNat := by
    have hpos : (k - rf.lastIncludedIndex + 1).toNat = (k - rf.lastIncludedIndex).toNat + 1 := by
      omega
    rw [hd, hpos, List.drop_succ_cons, List.drop_drop]
    congr 1
    omega
  have hlog := rf.trimLog_eq (show 0 ≤ k - rf.lastIncludedIndex by omega) (by omega) t
  rw [hdrop] at hlog
  refine ⟨_, hlog, fun rf' h1 h2 h3 => ?_⟩
  subst h2 h3
  exact ⟨by omega, hhi, ⟨_, h1, rfl⟩, ht⟩

/-- **The body of `InstallSnapshot`** ignores an old snapshot; a newer one moves
the log towards the sender's and covers the snapshot. -/
theorem Holds.installSnapshotLog_eq {h : History (Fin n) (LogEntry α)} (hF : rf.Holds F)
    (hFv : Valid LogEntry.term h F) (hL : Valid LogEntry.term h L)
    {args : InstallSnapshotArgs n β} (hargs : args.PrefixOf L)
    (hnew : rf.lastIncludedIndex < args.lastIncludedIndex) :
    ∃ log F', ∃ rf' : Server n α β, rf.installSnapshotLog args = some (rf'.save args.data) ∧
      rf' = { rf with
        log := log
        lastIncludedIndex := args.lastIncludedIndex
        lastIncludedTerm := args.lastIncludedTerm
        commitIndex := max rf.commitIndex args.lastIncludedIndex } ∧
      rf'.Holds F' ∧ Towards L F F' ∧ L.take args.lastIncludedIndex.toNat <+: F' := by
  obtain ⟨h0, hle, hterm⟩ := hargs
  have hnn := hF.nonneg
  have hmax : (if rf.commitIndex < args.lastIncludedIndex then args.lastIncludedIndex
      else rf.commitIndex) = max rf.commitIndex args.lastIncludedIndex := by
    rw [max_def]
    split <;> split <;> omega
  unfold installSnapshotLog snapshotLog
  rw [if_neg (not_le.mpr hnew), hmax]
  -- whether the log has the snapshot's last entry
  have hhas : ∃ b, rf.hasEntry args = some b ∧ (b = true ↔ args.lastIncludedIndex ≤ F.length ∧
      F.take args.lastIncludedIndex.toNat = L.take args.lastIncludedIndex.toNat) := by
    unfold hasEntry
    rw [hF.getLastLogIndex_eq]
    by_cases hin : args.lastIncludedIndex ≤ F.length
    · rw [if_pos hin, hF.getLogTerm_eq hnew.le hin, hterm]
      refine ⟨_, rfl, ?_⟩
      rw [decide_eq_true_iff]
      exact ⟨fun heq => ⟨hin, take_eq_of_logTerm_eq hFv hL (by omega) (by omega) heq⟩,
        fun heq => by rw [heq.2]⟩
    · rw [if_neg hin]
      exact ⟨_, rfl, by simp [hin]⟩
  obtain ⟨b, hb, hbiff⟩ := hhas
  rw [hb]
  simp only [Option.bind_eq_bind, Option.bind_some]
  cases b with
  | true =>
    obtain ⟨hin, hkeep⟩ := hbiff.mp rfl
    rw [if_pos rfl]
    obtain ⟨log, h1, h2⟩ := hF.trimLog_eq hnew.le hin (hterm.trans (by rw [hkeep]))
    rw [h1]
    exact ⟨log, F, _, rfl, rfl, h2 _ rfl rfl rfl, Towards.refl L F, hkeep ▸ List.take_prefix _ _⟩
  | false =>
    have hkeep : ¬ (args.lastIncludedIndex ≤ F.length ∧
        F.take args.lastIncludedIndex.toNat = L.take args.lastIncludedIndex.toNat) :=
      fun hx => Bool.false_ne_true (hbiff.mpr hx)
    rw [if_neg Bool.false_ne_true]
    have hlenL : (L.take args.lastIncludedIndex.toNat).length = args.lastIncludedIndex.toNat := by
      rw [List.length_take]
      omega
    refine ⟨_, L.take args.lastIncludedIndex.toNat, _, rfl, rfl,
      ⟨h0, ?_, ⟨{ command := none, term := args.lastIncludedTerm }, ?_, rfl⟩, ?_⟩, ?_,
      List.prefix_rfl⟩
    · change args.lastIncludedIndex ≤ _
      rw [hlenL]
      omega
    · change _ = _ :: List.drop args.lastIncludedIndex.toNat _
      rw [List.drop_eq_nil_of_le hlenL.le]
    · change args.lastIncludedTerm = logTerm (List.take args.lastIncludedIndex.toNat _)
      rw [List.take_take, min_self, hterm]
    · obtain ⟨k, hk⟩ : ∃ k : ℕ, args.lastIncludedIndex.toNat = k + 1 :=
        ⟨args.lastIncludedIndex.toNat - 1, by omega⟩
      refine hk ▸ towards_take (Nat.le_succ k) ?_
      by_cases hshort : F.length ≤ k
      · exact Or.inr hshort
      · refine Or.inl fun heq => hkeep ⟨by omega, by rw [hk, heq]⟩

/-- **`Snapshot`** of an index above the present snapshot compacts the log and
leaves the full log as it is. -/
theorem Holds.takeSnapshot_eq (hF : rf.Holds F) {index : ℤ} (hnew : rf.lastIncludedIndex < index)
    (data : Option β) :
    ∃ rf' : Server n α β, rf.takeSnapshot index data = some (rf'.save data) ∧ rf'.Holds F ∧
      rf' = { rf with
        log := rf'.log
        lastIncludedIndex := min index F.length
        lastIncludedTerm := rf'.lastIncludedTerm } := by
  have hnn := hF.nonneg
  have hle := hF.le
  unfold takeSnapshot
  rw [if_neg (not_le.mpr hnew), hF.getLastLogIndex_eq]
  have hmin : (if index > (F.length : ℤ) then (F.length : ℤ) else index) = min index F.length := by
    rw [min_def]
    split <;> split <;> omega
  simp only [hmin]
  have hlo : rf.lastIncludedIndex ≤ min index F.length := le_min hnew.le hle
  -- the entry at the cut, or the dummy when nothing is above it
  have helem : ∃ e, elemAt rf.log (min index F.length - rf.lastIncludedIndex) = some e ∧
      e.term = logTerm (F.take (min index (F.length : ℤ)).toNat) := by
    rcases eq_or_lt_of_le hlo with heq | hlt
    · obtain ⟨d, hd, hdt⟩ := hF.log
      rw [← heq, sub_self, hd]
      exact ⟨d, rfl, hdt.trans hF.term⟩
    · rw [hF.elemAt_log hlt]
      obtain ⟨e, he, -, het⟩ := exists_take_eq (F := F) (k := (min index F.length - 1).toNat)
        (by omega)
      have hk : (min index (F.length : ℤ)).toNat = (min index F.length - 1).toNat + 1 := by omega
      exact ⟨e, he, by rw [hk, het]⟩
  obtain ⟨e, he, het⟩ := helem
  obtain ⟨log, h1, h2⟩ := hF.trimLog_eq hlo (min_le_right _ _) het
  rw [he]
  simp only [Option.bind_eq_bind, Option.bind_some]
  rw [h1]
  exact ⟨_, rfl, h2 _ rfl rfl rfl, rfl⟩

/-! ### The leader's side -/

theorem Holds.append (hF : rf.Holds F) (e : LogEntry α) :
    ({ rf with log := rf.log ++ [e] } : Server n α β).Holds (F ++ [e]) := by
  have := hF.append_entries [e] hF.le le_rfl
  rw [List.take_length] at this
  refine this.congr ?_ rfl rfl
  have hlen := hF.length
  simp only
  rw [List.take_of_length_le (by omega)]

/-- **The request of a leader** carries all it has from the next index of the follower on. -/
theorem Holds.buildAppendEntries_eq (hF : rf.Holds F) {server : Fin n} (hst : rf.state = .leader)
    (hlo : rf.lastIncludedIndex ≤ rf.nextIndex server - 1)
    (hhi : rf.nextIndex server - 1 ≤ F.length) :
    rf.buildAppendEntries server = some (.append
      { term := rf.currentTerm
        leaderId := rf.me
        prevLogIndex := rf.nextIndex server - 1
        prevLogTerm := logTerm (F.take (rf.nextIndex server - 1).toNat)
        entries := F.drop (rf.nextIndex server - 1).toNat
        leaderCommit := rf.commitIndex }) := by
  have h0 := hF.nonneg
  have hlen := hF.length
  have hentries : rf.pendingEntries server = some (F.drop (rf.nextIndex server - 1).toNat) := by
    unfold pendingEntries
    rw [hF.getLastLogIndex_eq]
    split
    · -- the rest of the log, from the next index on
      obtain ⟨d, hd, -⟩ := hF.log
      dsimp only
      rw [if_neg (by omega), subslice_length (by omega) (by omega)]
      have hpos : (rf.nextIndex server - rf.lastIncludedIndex).toNat
          = (rf.nextIndex server - 1 - rf.lastIncludedIndex).toNat + 1 := by omega
      rw [hd, hpos, List.drop_succ_cons, List.drop_drop]
      congr 2
      omega
    · rw [List.drop_eq_nil_of_le (by omega)]
  unfold buildAppendEntries
  rw [if_neg (not_not.mpr hst)]
  dsimp only
  rw [if_neg (not_lt.mpr hlo), hF.getLogTerm_eq hlo hhi, hentries]
  rfl

/-- **A request is a slice of the sender's log.** -/
theorem Holds.of_buildAppendEntries (hF : rf.Holds F) {server : Fin n}
    {args : AppendingEntriesArgs n α} (hb : rf.buildAppendEntries server = some (.append args)) :
    rf.state = .leader ∧ args.term = rf.currentTerm ∧ args.leaderCommit = rf.commitIndex ∧
      args.SliceOf F := by
  have hb' := hb
  unfold buildAppendEntries at hb'
  by_cases hst : rf.state ≠ .leader
  · rw [if_pos hst] at hb'
    cases hb'
  rw [if_neg hst] at hb'
  by_cases hsnap : rf.nextIndex server - 1 < rf.lastIncludedIndex
  · rw [if_pos hsnap] at hb'
    cases hb'
  rw [if_neg hsnap] at hb'
  obtain ⟨t, ht, -⟩ := Option.bind_eq_some_iff.mp hb'
  have hle := hF.le_of_getLogTerm (not_lt.mp hsnap) ht
  have h0 := hF.nonneg
  rw [hF.buildAppendEntries_eq (not_not.mp hst) (not_lt.mp hsnap) hle] at hb
  cases hb
  refine ⟨not_not.mp hst, rfl, rfl, ⟨?_, hle, rfl, List.prefix_rfl⟩⟩
  show 0 ≤ rf.nextIndex server - 1
  omega

end Server

end ExchangeLabs.Raft
