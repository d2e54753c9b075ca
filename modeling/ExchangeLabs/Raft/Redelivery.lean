import ExchangeLabs.Raft.Cluster
import ExchangeLabs.Raft.LogView

/-!
# Requests of one leader in any order

`AppendEntries` requests may arrive late, twice, or after longer ones that were sent
later.  The log `L` of the leader of one term only grows, so each of its requests is a
slice of `L`; a follower whose log matches `L` never loses by a late one what an
earlier one brought.

## Main definitions

* `Server.AgreesUpTo rf L e` — the entries above the snapshot up to `e` are those of `L`.
* `Server.Matches rf L` — log matching: an entry of the term that `L` has there comes
  with agreement up to it.
* `Server.appendAll rf reqs` — the requests handled one after the other.

## Main results

* `Server.Merged.agrees` — the loop reaches the end of the request and keeps agreement.
* `Server.exists_delivered` — so does one request, if it is accepted.
* `redelivery` — **any requests in any order**: what was accepted stays.
-/

namespace ExchangeLabs.Raft

variable {n : ℕ} {α β : Type}

namespace Server

variable {rf rf' : Server n α β} {L : List (LogEntry α)} {e e' k : ℤ} {m : ℕ}
  {entries log : List (LogEntry α)} {args : AppendingEntriesArgs n α}

/-! ### Agreement with a leader's log -/

/-- The entries above the snapshot up to the index `e` are those of `L`. -/
def AgreesUpTo (rf : Server n α β) (L : List (LogEntry α)) (e : ℤ) : Prop :=
  ∀ i, 0 < i → rf.lastIncludedIndex < i → i ≤ e → rf.entryAt i = L[(i - 1).toNat]?

/-- Log matching with `L`: where the terms are the same, everything up to there is. -/
def Matches (rf : Server n α β) (L : List (LogEntry α)) : Prop :=
  ∀ i x y, 0 < i → rf.entryAt i = some x → L[(i - 1).toNat]? = some y → x.term = y.term →
    rf.AgreesUpTo L i

/-- The entries of a request are in the log, or below the snapshot. -/
def HasEntries (rf : Server n α β) (args : AppendingEntriesArgs n α) : Prop :=
  ∀ j e, args.entries[j]? = some e →
    args.prevLogIndex + 1 + (j : ℕ) ≤ rf.lastIncludedIndex ∨
      rf.entryAt (args.prevLogIndex + 1 + (j : ℕ)) = some e

theorem AgreesUpTo.mono (h : rf.AgreesUpTo L e) (hle : e' ≤ e) : rf.AgreesUpTo L e' :=
  fun i hpos hi hie => h i hpos hi (hie.trans hle)

theorem AgreesUpTo.congr (h : rf.AgreesUpTo L e) (hlog : rf'.log = rf.log)
    (hindex : rf'.lastIncludedIndex = rf.lastIncludedIndex) : rf'.AgreesUpTo L e := by
  intro i hpos hi hie
  rw [hindex] at hi
  rw [entryAt_congr hlog hindex]
  exact h i hpos hi hie

theorem Matches.congr (h : rf.Matches L) (hlog : rf'.log = rf.log)
    (hindex : rf'.lastIncludedIndex = rf.lastIncludedIndex) : rf'.Matches L := by
  intro i x y hpos hx hy hterm
  rw [entryAt_congr hlog hindex] at hx
  exact (h i x y hpos hx hy hterm).congr hlog hindex

/-! ### The loop -/

/-- The entries that the loop passes over are those of `L`. -/
theorem Merged.agrees_passed (h : rf.Merged k entries log m) (hmatch : rf.Matches L) (h0 : 0 ≤ k)
    (hk : rf.AgreesUpTo L k) (hent : entries <+: L.drop k.toNat) : rf.AgreesUpTo L (k + m) := by
  cases m with
  | zero => exact hk.mono (by push_cast; omega)
  | succ m =>
    obtain ⟨x, y, hx, hy, hterm⟩ := h.same m (Nat.lt_succ_self m)
    refine (hmatch (k + 1 + m) x y (by omega) hx ?_ hterm).mono (by push_cast; omega)
    rw [← getElem?_of_isPrefix_drop hent hy]
    congr 1
    omega

/-- **The loop of `AppendEntries`** reaches the end of the request, keeps log matching, and never
takes back what agrees with `L`; where the log has all the entries, it leaves the log alone. -/
theorem Merged.agrees (h : rf.Merged k entries log m) (hle : rf.lastIncludedIndex ≤ k)
    (hmatch : rf.Matches L) (h0 : 0 ≤ k) (hk : rf.AgreesUpTo L k)
    (hent : entries <+: L.drop k.toNat) :
    ({ rf with log := log } : Server n α β).AgreesUpTo L (k + entries.length) ∧
      ({ rf with log := log } : Server n α β).Matches L ∧
      (∀ e ≤ (L.length : ℤ), rf.AgreesUpTo L e →
        ({ rf with log := log } : Server n α β).AgreesUpTo L e) ∧
      ((∀ (j : ℕ) x, entries[j]? = some x → rf.entryAt (k + 1 + j) = some x) → log = rf.log) := by
  have hpassed := h.agrees_passed hmatch h0 hk hent
  rcases h.outcome with ⟨hall, rfl⟩ | ⟨hlt, hlog, hdiff⟩
  · rw [hall] at hpassed
    exact ⟨hpassed, hmatch, fun _ _ he => he, fun _ => rfl⟩
  have hentry := h.entryAt_of_cut hle hlog
  obtain ⟨y, hy⟩ : ∃ y, entries[m]? = some y := ⟨_, List.getElem?_eq_getElem hlt⟩
  have hLy := getElem?_of_isPrefix_drop hent hy
  have hagree : ({ rf with log := log } : Server n α β).AgreesUpTo L (k + entries.length) := by
    intro i hpos hi hie
    rw [hentry]
    split
    · next hold => exact hpassed i hpos hi hold
    · next hnew =>
      have hj : (i - k - 1).toNat < entries.length := by omega
      rw [List.getElem?_eq_getElem hj,
        ← getElem?_of_isPrefix_drop hent (List.getElem?_eq_getElem hj)]
      congr 1
      omega
  -- agreement with `L` ends where the cut is
  have hcut : ∀ e ≤ (L.length : ℤ), rf.AgreesUpTo L e → e ≤ k + m := by
    intro e heL he
    by_contra hbeyond
    have hx := he (k + 1 + m) (by omega) (by omega) (by omega)
    rw [show (k + 1 + m - 1).toNat = k.toNat + m by omega, hLy] at hx
    exact hdiff y y hx hy rfl
  refine ⟨hagree, ?_, ?_, ?_⟩
  · intro i x z hpos hx hz hterm
    refine hagree.mono ?_
    by_contra hbeyond
    rw [hentry, if_neg (by omega), List.getElem?_eq_none (by omega)] at hx
    cases hx
  · intro e heL he
    exact hagree.mono ((hcut e heL he).trans (by omega))
  · intro hhas
    exact absurd rfl (hdiff y y (hhas m y hy) hy)

/-! ### One request -/

/-- What a request that is a slice of `L` does. -/
structure Delivered (rf : Server n α β) (L : List (LogEntry α)) (args : AppendingEntriesArgs n α)
    (rf' : Server n α β) (reply : AppendingEntriesReply) : Prop where
  lastIncludedIndex : rf'.lastIncludedIndex = rf.lastIncludedIndex
  rejected : reply.success = false → rf'.log = rf.log ∧ rf'.commitIndex = rf.commitIndex
  accepted : reply.success = true →
    rf'.AgreesUpTo L (args.prevLogIndex + args.entries.length)
  keep : ∀ e ≤ (L.length : ℤ), rf.AgreesUpTo L e → rf'.AgreesUpTo L e
  matching : rf'.Matches L
  present : rf.HasEntries args → rf'.log = rf.log

theorem delivered_of_rejected (hmatch : rf.Matches L) {reply : AppendingEntriesReply}
    (hreply : reply.success = false) (hlog : rf'.log = rf.log)
    (hindex : rf'.lastIncludedIndex = rf.lastIncludedIndex)
    (hcommit : rf'.commitIndex = rf.commitIndex) : rf.Delivered L args rf' reply where
  lastIncludedIndex := hindex
  rejected := fun _ => ⟨hlog, hcommit⟩
  accepted := fun h => by rw [hreply] at h; cases h
  keep := fun _ _ he => he.congr hlog hindex
  matching := hmatch.congr hlog hindex
  present := fun _ => hlog

/-- Where the term test at the start of the request succeeds, the log agrees with `L`. -/
theorem Matches.agrees_of_getLogTerm (hmatch : rf.Matches L) (hargs : args.SliceOf L)
    (hterm : rf.getLogTerm args.prevLogIndex = some args.prevLogTerm) :
    rf.AgreesUpTo L args.prevLogIndex := by
  intro i hpos hi hie
  have hlt := hi.trans_le hie
  rw [getLogTerm_of_lt hlt, Option.map_eq_some_iff] at hterm
  obtain ⟨x, hx, hxt⟩ := hterm
  have := hargs.le
  obtain ⟨y, hy, -, hyt⟩ :=
    exists_take_eq (F := L) (k := (args.prevLogIndex - 1).toNat) (by omega)
  refine hmatch args.prevLogIndex x y (by omega) hx hy ?_ i hpos hi hie
  rw [hxt, hargs.term, ← hyt]
  congr 2
  omega

theorem advanceCommit_fields (rf : Server n α β) (args : AppendingEntriesArgs n α) :
    (rf.advanceCommit args).log = rf.log ∧
      (rf.advanceCommit args).lastIncludedIndex = rf.lastIncludedIndex := by
  unfold advanceCommit
  split <;> exact ⟨rfl, rfl⟩

theorem acceptTerm_fields (rf : Server n α β) (term : ℤ) :
    (rf.acceptTerm term).log = rf.log ∧
      (rf.acceptTerm term).lastIncludedIndex = rf.lastIncludedIndex ∧
      (rf.acceptTerm term).commitIndex = rf.commitIndex := by
  unfold acceptTerm
  dsimp only
  split_ifs <;> exact ⟨rfl, rfl, rfl⟩

/-- The part of the handler behind the test of the request's term. -/
theorem exists_delivered_log (hmatch : rf.Matches L) (hargs : args.SliceOf L) :
    ∃ rf' reply, rf.appendEntriesLog args = some (rf', reply) ∧ rf.Delivered L args rf' reply := by
  unfold appendEntriesLog
  by_cases hA : args.prevLogIndex < rf.lastIncludedIndex
  · rw [if_pos hA]
    exact ⟨_, _, rfl, delivered_of_rejected hmatch rfl rfl rfl rfl⟩
  rw [if_neg hA]
  by_cases hB : args.prevLogIndex > rf.getLastLogIndex
  · rw [if_pos hB]
    exact ⟨_, _, rfl, delivered_of_rejected hmatch rfl rfl rfl rfl⟩
  rw [if_neg hB]
  obtain ⟨t, ht⟩ := rf.exists_getLogTerm (not_lt.mp hA) (not_lt.mp hB)
  rw [ht]
  simp only [Option.bind_eq_bind, Option.bind_some]
  by_cases hC : t ≠ args.prevLogTerm
  · rw [if_pos hC]
    obtain ⟨i, hi, -⟩ := exists_scanConflict rf t
      (args.prevLogIndex - rf.lastIncludedIndex).toNat (by omega)
    rw [hi]
    exact ⟨_, _, rfl, delivered_of_rejected hmatch rfl rfl rfl rfl⟩
  rw [if_neg hC]
  push Not at hC
  obtain ⟨log, m, hmerge, hm⟩ :=
    exists_merged rf args.entries args.prevLogIndex (not_lt.mp hA) (not_lt.mp hB)
  obtain ⟨hagree, hmatching, hkeep, hpresent⟩ := hm.agrees (not_lt.mp hA) hmatch hargs.nonneg
    (hmatch.agrees_of_getLogTerm hargs (hC ▸ ht)) hargs.entries
  obtain ⟨hlog, hindex⟩ := advanceCommit_fields { rf with log := log } args
  rw [hmerge]
  refine ⟨_, _, rfl, ⟨hindex, ?_, ?_, ?_, ?_, ?_⟩⟩
  · intro hreply
    cases hreply
  · exact fun _ => hagree.congr hlog hindex
  · exact fun e heL he => (hkeep e heL he).congr hlog hindex
  · exact hmatching.congr hlog hindex
  · intro hhas
    refine hlog.trans (hpresent fun j x hx => ?_)
    rcases hhas j x hx with hbelow | hx'
    · omega
    · exact hx'

/-- **One request** is rejected and changes neither the log nor the commit index, or the log agrees
with `L` up to its end afterwards; what agrees already stays. -/
theorem exists_delivered (hmatch : rf.Matches L) (hargs : args.SliceOf L) :
    ∃ rf' reply, rf.appendEntries args = some (rf', reply) ∧ rf.Delivered L args rf' reply := by
  unfold appendEntries
  split
  · exact ⟨_, _, rfl, delivered_of_rejected hmatch rfl rfl rfl rfl⟩
  · obtain ⟨hlog, hindex, hcommit⟩ := acceptTerm_fields rf args.term
    obtain ⟨rf', reply, hx, hd⟩ := exists_delivered_log (hmatch.congr hlog hindex) hargs
    rw [hx]
    refine ⟨_, _, rfl, ⟨hd.lastIncludedIndex.trans hindex, ?_, ?_, ?_, ?_, ?_⟩⟩
    · intro hreply
      exact ⟨(hd.rejected hreply).1.trans hlog, (hd.rejected hreply).2.trans hcommit⟩
    · exact fun hreply => (hd.accepted hreply).congr rfl rfl
    · exact fun e heL he => (hd.keep e heL (he.congr hlog hindex)).congr rfl rfl
    · exact hd.matching.congr rfl rfl
    · intro hhas
      refine (hd.present fun j x hx => ?_).trans hlog
      rw [hindex, entryAt_congr hlog hindex]
      exact hhas j x hx

/-! ### Any sequence of requests -/

/-- The requests handled one after the other. -/
def appendAll (rf : Server n α β) : List (AppendingEntriesArgs n α) → Option (Server n α β)
  | [] => some rf
  | args :: reqs => do
    let (rf', _) ← rf.appendEntries args
    rf'.appendAll reqs

/-- **Later requests** keep log matching, and what agrees with `L`. -/
theorem exists_appendAll : ∀ (reqs : List (AppendingEntriesArgs n α)) (rf : Server n α β),
    rf.Matches L → (∀ args ∈ reqs, args.SliceOf L) →
    ∃ rf', rf.appendAll reqs = some rf' ∧ rf'.Matches L ∧
      ∀ e ≤ (L.length : ℤ), rf.AgreesUpTo L e → rf'.AgreesUpTo L e := by
  intro reqs
  induction reqs with
  | nil => exact fun rf hmatch _ => ⟨rf, rfl, hmatch, fun _ _ he => he⟩
  | cons args reqs ih =>
    intro rf hmatch hreqs
    obtain ⟨rf₁, reply, hx, hd⟩ := exists_delivered hmatch (hreqs args List.mem_cons_self)
    obtain ⟨rf', hall, hmatch', hkeep⟩ :=
      ih rf₁ hd.matching fun a ha => hreqs a (List.mem_cons_of_mem _ ha)
    refine ⟨rf', ?_, hmatch', fun e heL he => hkeep e heL (hd.keep e heL he)⟩
    unfold appendAll
    rw [hx]
    exact hall

end Server

theorem AppendingEntriesArgs.SliceOf.end_le {args : AppendingEntriesArgs n α}
    {L : List (LogEntry α)} (h : args.SliceOf L) :
    args.prevLogIndex + args.entries.length ≤ L.length := by
  have hlen := h.entries.length_le
  rw [List.length_drop] at hlen
  have := h.nonneg
  have := h.le
  omega

/-- **Delivery in any order.**  Among any requests that are slices of `L`, in any order and any
number of times: a request that is rejected changes neither log nor commit index, one whose
entries are there already leaves the log as it is, and after one that is accepted the log agrees
with `L` up to its end, however many requests follow. -/
theorem redelivery {rf : Server n α β} {L : List (LogEntry α)} (hmatch : rf.Matches L)
    (before after : List (AppendingEntriesArgs n α)) (args : AppendingEntriesArgs n α)
    (hreqs : ∀ a ∈ before ++ args :: after, a.SliceOf L) :
    ∃ rf₁ rf₂ rf₃ reply, rf.appendAll before = some rf₁ ∧
      rf₁.appendEntries args = some (rf₂, reply) ∧ rf₂.appendAll after = some rf₃ ∧
      (reply.success = true → rf₃.AgreesUpTo L (args.prevLogIndex + args.entries.length)) ∧
      (reply.success = false → rf₂.log = rf₁.log ∧ rf₂.commitIndex = rf₁.commitIndex) ∧
      (rf₁.HasEntries args → rf₂.log = rf₁.log) := by
  have hargs : args.SliceOf L := hreqs args (by simp)
  obtain ⟨rf₁, hbefore, hmatch₁, -⟩ :=
    Server.exists_appendAll before rf hmatch fun a ha => hreqs a (by simp [ha])
  obtain ⟨rf₂, reply, hx, hd⟩ := Server.exists_delivered hmatch₁ hargs
  obtain ⟨rf₃, hafter, -, hkeep⟩ :=
    Server.exists_appendAll after rf₂ hd.matching fun a ha => hreqs a (by simp [ha])
  exact ⟨rf₁, rf₂, rf₃, reply, hbefore, hx, hafter,
    fun hreply => hkeep _ hargs.end_le (hd.accepted hreply), hd.rejected, hd.present⟩

/-- A follower whose second entry is not the leader's. -/
def divergedFollower : Server 2 ℕ Unit :=
  { Server.initial 0 { raftState := none, snapshot := none } with
    log := [⟨none, 0⟩, ⟨some 10, 1⟩, ⟨some 99, 1⟩] }

/-- A request of the whole log, and one of its first entry that was sent before it. -/
def wholeRequest : AppendingEntriesArgs 2 ℕ :=
  { term := 2, leaderId := 1, prevLogIndex := 0, prevLogTerm := 0, leaderCommit := 0,
    entries := [⟨some 10, 1⟩, ⟨some 11, 2⟩, ⟨some 12, 2⟩] }

def lateRequest : AppendingEntriesArgs 2 ℕ :=
  { wholeRequest with entries := [⟨some 10, 1⟩] }

theorem matches_divergedFollower : divergedFollower.Matches wholeRequest.entries := by
  intro i x y hpos hx hy hterm
  have hlast : i ≤ 2 := by
    by_contra hbeyond
    rw [Server.entryAt_eq_none (show divergedFollower.getLastLogIndex < i from not_le.mp hbeyond)]
      at hx
    cases hx
  obtain rfl | rfl : i = 1 ∨ i = 2 := by omega
  · intro i hpos _ hle
    obtain rfl : i = 1 := by omega
    rfl
  · cases hx
    cases hy
    exact absurd hterm (by decide)

theorem redelivery_lateRequest : ∃ rf₂ rf₃ reply,
    divergedFollower.appendEntries wholeRequest = some (rf₂, reply) ∧ reply.success = true ∧
      rf₂.appendAll [lateRequest] = some rf₃ ∧ rf₃.AgreesUpTo wholeRequest.entries 3 := by
  obtain ⟨rf₁, rf₂, rf₃, reply, hbefore, hx, hafter, haccepted, -⟩ :=
    redelivery matches_divergedFollower [] [lateRequest] wholeRequest (by
      intro a ha
      rcases List.mem_cons.mp ha with rfl | ha
      · exact ⟨by decide, by decide, by decide, List.prefix_rfl⟩
      · obtain rfl := List.mem_singleton.mp ha
        exact ⟨by decide, by decide, by decide, by decide⟩)
  cases hbefore
  have hreply : (divergedFollower.appendEntries wholeRequest).map (fun x => x.2.success) =
      some true := by decide
  rw [hx] at hreply
  exact ⟨rf₂, rf₃, reply, hx, Option.some.inj hreply, hafter, haccepted (Option.some.inj hreply)⟩

end ExchangeLabs.Raft
