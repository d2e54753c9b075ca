import Mathlib.Data.Fintype.Card
import Mathlib.Data.List.Infix
import Mathlib.Logic.Relation
import Mathlib.Tactic.Common

/-!
# Replicated logs with elected leaders

The history of a group of servers that replicate a log under leaders elected by
majority, one leader a term.  Nothing here is a message or a reply: a `History`
says which logs each server held term by term, whom it voted for, and what the
leader of each term had when elected and has written since.  A protocol refines
it by saying which of the five steps of `History.Step` each of its own steps
takes.

Two choices keep the invariant short.  A server's log is recorded *per term*
(`hlog s u` is what `s` held when it last was in a term `≤ u`), so that what an
acknowledgement promised is a fact about a frozen value.  And a follower's log
changes in one way only, towards its leader's: `adopt` keeps every common prefix.

## Main definitions

* `History`, `History.Step` — the history and its steps.
* `Valid tm h l` — every entry of `l` sits where the leader of its term put it.
* `History.Inv` — the invariant of all histories that the steps produce.

## Main results

* `History.Inv.of_step` — the invariant is preserved.
* `History.Step.frame` — a step of one server leaves the others alone.
* `Valid.eq_of_term_eq` — **log matching.**
* `History.Inv.elected_unique` — a second majority for a term elects nobody new.
-/

namespace ExchangeLabs

variable {S ε : Type*}

/-! ### Majorities -/

/-- More than half of all servers. -/
def IsMajority [Fintype S] (Q : Finset S) : Prop := Fintype.card S < 2 * Q.card

/-- Two majorities meet. -/
theorem IsMajority.exists_mem_inter [Fintype S] [DecidableEq S] {P Q : Finset S}
    (hP : IsMajority P) (hQ : IsMajority Q) : ∃ s, s ∈ P ∧ s ∈ Q := by
  by_contra hno
  push Not at hno
  have hdisj : Disjoint P Q := Finset.disjoint_left.mpr hno
  have hcard := Finset.card_le_univ (P ∪ Q)
  rw [Finset.card_union_of_disjoint hdisj] at hcard
  unfold IsMajority at hP hQ
  omega

/-! ### Comparing logs -/

/-- The term of the last entry of a log, and `0` for the empty log. -/
def lastTerm (tm : ε → ℤ) (l : List ε) : ℤ := (l.getLast?.map tm).getD 0

@[simp] theorem lastTerm_nil (tm : ε → ℤ) : lastTerm tm [] = 0 := rfl

@[simp] theorem lastTerm_concat (tm : ε → ℤ) (l : List ε) (e : ε) :
    lastTerm tm (l ++ [e]) = tm e := by
  simp [lastTerm]

/-- `l` is at least as up to date as `m`: a later last term, or the same last
term and no fewer entries. -/
def UpToDate (tm : ε → ℤ) (l m : List ε) : Prop :=
  lastTerm tm m < lastTerm tm l ∨ (lastTerm tm m = lastTerm tm l ∧ m.length ≤ l.length)

/-! ### Histories -/

/-- What has happened so far to the terms, votes and logs of the servers `S`. -/
structure History (S ε : Type*) where
  /-- The current term of each server. -/
  term : S → ℤ
  /-- Whom a server voted for in a term. -/
  vote : S → ℤ → Option S
  /-- The leader of a term, once there is one. -/
  elected : ℤ → Option S
  /-- The log of a term's leader at its election. -/
  base : ℤ → List ε
  /-- The log of a term's leader, with all it has appended in that term. -/
  tlog : ℤ → List ε
  /-- The log a server held when it last was in a term up to the given one. -/
  hlog : S → ℤ → List ε

namespace History

/-- The log a server holds now. -/
def log (h : History S ε) (s : S) : List ε := h.hlog s (h.term s)

/-- The history before anything has happened. -/
def init : History S ε where
  term := fun _ => 0
  vote := fun _ _ => none
  elected := fun _ => none
  base := fun _ => []
  tlog := fun _ => []
  hlog := fun _ _ => []

variable [DecidableEq S]

/-- Server `s` now holds the log `l`, in its current term and from then on. -/
def setLog (h : History S ε) (s : S) (l : List ε) : History S ε :=
  { h with hlog := fun s' u => if s' = s ∧ h.term s ≤ u then l else h.hlog s' u }

/-- Server `s` moves to the term `T`. -/
def setTerm (h : History S ε) (s : S) (T : ℤ) : History S ε :=
  { h with term := Function.update h.term s T }

/-- Server `s` votes for `c` in its current term. -/
def setVote (h : History S ε) (s c : S) : History S ε :=
  { h with vote := fun s' u => if s' = s ∧ u = h.term s then some c else h.vote s' u }

/-- Server `c` leads its current term, with the log it holds. -/
def setElected (h : History S ε) (c : S) : History S ε :=
  { h with
    elected := Function.update h.elected (h.term c) (some c)
    base := Function.update h.base (h.term c) (h.log c)
    tlog := Function.update h.tlog (h.term c) (h.log c) }

/-- The leader `c` appends `e` to the log of its term. -/
def setAppend (h : History S ε) (c : S) (e : ε) : History S ε :=
  { h.setLog c (h.log c ++ [e]) with
    tlog := Function.update h.tlog (h.term c) (h.log c ++ [e]) }

section Updates

variable {h : History S ε}

@[simp] theorem setLog_term (s : S) (l : List ε) : (h.setLog s l).term = h.term := rfl
@[simp] theorem setLog_vote (s : S) (l : List ε) : (h.setLog s l).vote = h.vote := rfl
@[simp] theorem setLog_elected (s : S) (l : List ε) : (h.setLog s l).elected = h.elected := rfl
@[simp] theorem setLog_base (s : S) (l : List ε) : (h.setLog s l).base = h.base := rfl
@[simp] theorem setLog_tlog (s : S) (l : List ε) : (h.setLog s l).tlog = h.tlog := rfl

theorem setLog_hlog (s s' : S) (l : List ε) (u : ℤ) :
    (h.setLog s l).hlog s' u = if s' = s ∧ h.term s ≤ u then l else h.hlog s' u := rfl

theorem setLog_hlog_of_le {s : S} {u : ℤ} (l : List ε) (hu : h.term s ≤ u) :
    (h.setLog s l).hlog s u = l := if_pos ⟨rfl, hu⟩

theorem setLog_hlog_of_not {s s' : S} {u : ℤ} (l : List ε) (hu : ¬ (s' = s ∧ h.term s ≤ u)) :
    (h.setLog s l).hlog s' u = h.hlog s' u := if_neg hu

theorem setVote_vote_of_some {s c v d : S} {T : ℤ} (hfree : h.vote s (h.term s) = none)
    (hv : h.vote v T = some d) : (h.setVote s c).vote v T = some d := by
  change (if v = s ∧ T = h.term s then some c else h.vote v T) = some d
  rw [if_neg, hv]
  rintro ⟨rfl, rfl⟩
  rw [hfree] at hv
  cases hv

end Updates

/-- One step of a history, taken by the server `s`. -/
inductive Step [Fintype S] (tm : ε → ℤ) (s : S) (h : History S ε) : History S ε → Prop
  /-- The server learns of a later term. -/
  | advance (T : ℤ) (hT : h.term s < T) : Step tm s h (h.setTerm s T)
  /-- A server that has not voted in its term votes. -/
  | castVote (c : S) (hfree : h.vote s (h.term s) = none) : Step tm s h (h.setVote s c)
  /-- A majority whose logs are no more up to date than the candidate's elects it. -/
  | elect (Q : Finset S) (hQ : IsMajority Q) (h0 : 0 < h.term s)
      (hfree : h.elected (h.term s) = none)
      (hvote : ∀ v ∈ Q, h.vote v (h.term s) = some s ∧
        UpToDate tm (h.log s) (h.hlog v (h.term s - 1))) :
      Step tm s h (h.setElected s)
  /-- The leader of a term appends an entry of that term. -/
  | append (e : ε) (hs : h.elected (h.term s) = some s) (he : tm e = h.term s) :
      Step tm s h (h.setAppend s e)
  /-- A server other than the leader moves its log towards the leader's. -/
  | adopt (c : S) (l : List ε) (hc : h.elected (h.term s) = some c) (hne : c ≠ s)
      (hl : l <+: h.tlog (h.term s))
      (hkeep : ∀ p, p <+: h.log s → p <+: h.tlog (h.term s) → p <+: l) :
      Step tm s h (h.setLog s l)

/-- Any number of steps of the server `s`. -/
def Steps [Fintype S] (tm : ε → ℤ) (s : S) : History S ε → History S ε → Prop :=
  Relation.ReflTransGen (Step tm s)

/-- What the steps of the server `s` leave alone. -/
structure Frame (s : S) (h h' : History S ε) : Prop where
  term : ∀ r ≠ s, h'.term r = h.term r
  vote : ∀ r ≠ s, h'.vote r = h.vote r
  hlog : ∀ r ≠ s, h'.hlog r = h.hlog r
  elected : ∀ T, h'.elected T = h.elected T ∨ (h.elected T = none ∧ h'.elected T = some s)

omit [DecidableEq S] in
theorem Frame.refl (s : S) (h : History S ε) : Frame s h h :=
  ⟨fun _ _ => rfl, fun _ _ => rfl, fun _ _ => rfl, fun _ => Or.inl rfl⟩

omit [DecidableEq S] in
theorem Frame.trans {s : S} {h h' h'' : History S ε} (h₁ : Frame s h h') (h₂ : Frame s h' h'') :
    Frame s h h'' where
  term := fun r hr => (h₂.term r hr).trans (h₁.term r hr)
  vote := fun r hr => (h₂.vote r hr).trans (h₁.vote r hr)
  hlog := fun r hr => (h₂.hlog r hr).trans (h₁.hlog r hr)
  elected := by
    intro T
    rcases h₂.elected T with h2 | ⟨h2n, h2⟩
    · rw [h2]
      exact h₁.elected T
    · rcases h₁.elected T with h1 | ⟨-, h1⟩
      · exact Or.inr ⟨h1 ▸ h2n, h2⟩
      · rw [h1] at h2n
        cases h2n

omit [DecidableEq S] in
theorem Frame.log {s : S} {h h' : History S ε} (hf : Frame s h h') {r : S} (hr : r ≠ s) :
    h'.log r = h.log r := by
  unfold History.log
  rw [hf.hlog r hr, hf.term r hr]

theorem Step.frame [Fintype S] {tm : ε → ℤ} {s : S} {h h' : History S ε} (hs : Step tm s h h') :
    Frame s h h' := by
  cases hs with
  | advance T hT =>
    exact ⟨fun r hr => Function.update_of_ne hr _ _, fun _ _ => rfl, fun _ _ => rfl,
      fun _ => Or.inl rfl⟩
  | castVote c hfree =>
    refine ⟨fun _ _ => rfl, fun r hr => ?_, fun _ _ => rfl, fun _ => Or.inl rfl⟩
    funext u
    simp [setVote, hr]
  | elect Q hQ h0 hfree hvote =>
    refine ⟨fun _ _ => rfl, fun _ _ => rfl, fun _ _ => rfl, fun T => ?_⟩
    by_cases hT : T = h.term s
    · subst hT
      exact Or.inr ⟨hfree, by simp [setElected]⟩
    · exact Or.inl (by simp [setElected, hT])
  | append e _ _ =>
    refine ⟨fun _ _ => rfl, fun _ _ => rfl, fun r hr => ?_, fun _ => Or.inl rfl⟩
    funext u
    simp [setAppend, setLog, hr]
  | adopt c l _ _ _ _ =>
    refine ⟨fun _ _ => rfl, fun _ _ => rfl, fun r hr => ?_, fun _ => Or.inl rfl⟩
    funext u
    simp [setLog, hr]

theorem Steps.frame [Fintype S] {tm : ε → ℤ} {s : S} {h h' : History S ε}
    (hs : Steps tm s h h') : Frame s h h' := by
  induction hs with
  | refl => exact Frame.refl s h
  | tail _ hlast ih => exact ih.trans hlast.frame

end History

/-! ### The invariant -/

/-- Every entry of the log `l` sits where the leader of its term put it, after
the same entries. -/
def Valid (tm : ε → ℤ) (h : History S ε) (l : List ε) : Prop :=
  ∀ p e, p ++ [e] <+: l → (h.elected (tm e)).isSome ∧ p ++ [e] <+: h.tlog (tm e)

/-- **Log matching**: two valid logs with entries of one term at one index agree
up to that index. -/
theorem Valid.eq_of_term_eq {tm : ε → ℤ} {h : History S ε} {l m p q : List ε} {e f : ε}
    (hl : Valid tm h l) (hm : Valid tm h m) (hp : p ++ [e] <+: l) (hq : q ++ [f] <+: m)
    (hlen : p.length = q.length) (hterm : tm e = tm f) : p ++ [e] = q ++ [f] := by
  have h1 := (hl p e hp).2
  have h2 := (hm q f hq).2
  rw [← hterm] at h2
  exact (List.prefix_of_prefix_length_le h1 h2 (by simp [hlen])).eq_of_length (by simp [hlen])

theorem Valid.of_isPrefix {tm : ε → ℤ} {h : History S ε} {l m : List ε} (hm : Valid tm h m)
    (hl : l <+: m) : Valid tm h l :=
  fun p e hp => hm p e (hp.trans hl)

namespace History

variable [Fintype S] {tm : ε → ℤ} {h h' : History S ε}

/-- What holds of every history that the steps produce. -/
structure Inv (tm : ε → ℤ) (h : History S ε) : Prop where
  /-- The log of later terms is the current one. -/
  stable : ∀ s u, h.term s ≤ u → h.hlog s u = h.hlog s (h.term s)
  valid_hlog : ∀ s u, Valid tm h (h.hlog s u)
  valid_tlog : ∀ T, Valid tm h (h.tlog T)
  /-- A server holds no entry of a term it has not reached. -/
  hlog_le : ∀ s u, ∀ e ∈ h.hlog s u, tm e ≤ u ∧ tm e ≤ h.term s
  base_lt : ∀ T, ∀ e ∈ h.base T, tm e < T
  /-- In its term a leader only appends entries of that term. -/
  tlog_eq : ∀ T, ∃ x, h.tlog T = h.base T ++ x ∧ ∀ e ∈ x, tm e = T
  elected_pos : ∀ T c, h.elected T = some c → 0 < T ∧ T ≤ h.term c
  quorum : ∀ T c, h.elected T = some c → ∃ Q : Finset S, IsMajority Q ∧
    ∀ v ∈ Q, h.vote v T = some c ∧ UpToDate tm (h.base T) (h.hlog v (T - 1))
  vote_le : ∀ v T c, h.vote v T = some c → T ≤ h.term v
  leader_log : ∀ T c, h.elected T = some c → h.hlog c T = h.tlog T
  /-- Without a leader a term changes no log. -/
  idle : ∀ s T, h.elected T = none → h.hlog s T = h.hlog s (T - 1)
  /-- With a leader it keeps what the leader had at its election. -/
  keep : ∀ s T p, p <+: h.hlog s (T - 1) → p <+: h.base T → p <+: h.hlog s T

theorem Inv.log_of_leader (hi : Inv tm h) {c : S} (hc : h.elected (h.term c) = some c) :
    h.log c = h.tlog (h.term c) := hi.leader_log _ c hc

theorem Inv.base_isPrefix (hi : Inv tm h) (T : ℤ) : h.base T <+: h.tlog T := by
  obtain ⟨x, hx, -⟩ := hi.tlog_eq T
  exact ⟨x, hx.symm⟩

theorem Inv.tlog_le (hi : Inv tm h) {T : ℤ} {e : ε} (he : e ∈ h.tlog T) : tm e ≤ T := by
  obtain ⟨x, hx, hxT⟩ := hi.tlog_eq T
  rw [hx, List.mem_append] at he
  rcases he with he | he
  · exact (hi.base_lt T e he).le
  · exact (hxT e he).le

/-- The terms along a valid log do not decrease. -/
theorem Inv.term_le_of_isPrefix (hi : Inv tm h) {l p : List ε} {e f : ε} (hl : Valid tm h l)
    (hp : p ++ [e] <+: l) (hf : f ∈ p) : tm f ≤ tm e := by
  have hmem : f ∈ p ++ [e] := List.mem_append_left _ hf
  exact hi.tlog_le ((hl p e hp).2.subset hmem)

/-- **Election safety**: when a majority voted for `c` in a term that has a
leader, that leader is `c`. -/
theorem Inv.elected_unique [DecidableEq S] (hi : Inv tm h) {T : ℤ} {c d : S} {Q : Finset S}
    (hQ : IsMajority Q) (hvote : ∀ v ∈ Q, h.vote v T = some c) (hd : h.elected T = some d) :
    d = c := by
  obtain ⟨P, hP, hPv⟩ := hi.quorum T d hd
  obtain ⟨v, hvP, hvQ⟩ := hP.exists_mem_inter hQ
  have h1 := (hPv v hvP).1
  rw [hvote v hvQ] at h1
  exact (Option.some.inj h1).symm

theorem inv_init : Inv tm (init : History S ε) where
  stable := by intros; rfl
  valid_hlog := by intro s u p e hp; simp [init] at hp
  valid_tlog := by intro T p e hp; simp [init] at hp
  hlog_le := by intro s u e he; simp [init] at he
  base_lt := by intro T e he; simp [init] at he
  tlog_eq := by intro T; exact ⟨[], rfl, by simp⟩
  elected_pos := by intro T c hc; simp [init] at hc
  quorum := by intro T c hc; simp [init] at hc
  vote_le := by intro v T c hv; simp [init] at hv
  leader_log := by intro T c hc; simp [init] at hc
  idle := by intros; rfl
  keep := by intro s T p hp _; simpa [init] using hp

/-! ### Preservation -/

variable [DecidableEq S]

/-- A server that has voted in `T` writes no log of a term before `T`. -/
private theorem Inv.setLog_hlog_voted (hi : Inv tm h) {v : S} {T : ℤ} {c : S}
    (hv : h.vote v T = some c) (s : S) (l : List ε) :
    (h.setLog s l).hlog v (T - 1) = h.hlog v (T - 1) := by
  refine setLog_hlog_of_not l ?_
  rintro ⟨rfl, hle⟩
  have := hi.vote_le v T c hv
  omega

theorem Inv.setLog_stable (hi : Inv tm h) (s : S) (l : List ε) {s' : S} {u : ℤ}
    (hu : h.term s' ≤ u) : (h.setLog s l).hlog s' u = (h.setLog s l).hlog s' (h.term s') := by
  rw [setLog_hlog, setLog_hlog]
  by_cases hs : s' = s
  · subst hs
    simp [hu]
  · simp [hs, hi.stable s' u hu]

/-- Nobody of the majority that elected a leader writes a log of a term before. -/
theorem Inv.setLog_quorum (hi : Inv tm h) (s : S) (l : List ε) {T : ℤ} {c : S}
    (hc : h.elected T = some c) : ∃ Q : Finset S, IsMajority Q ∧
      ∀ v ∈ Q, h.vote v T = some c ∧ UpToDate tm (h.base T) ((h.setLog s l).hlog v (T - 1)) := by
  obtain ⟨Q, hQ, hv⟩ := hi.quorum T c hc
  refine ⟨Q, hQ, fun v hvQ => ⟨(hv v hvQ).1, ?_⟩⟩
  rw [hi.setLog_hlog_voted (hv v hvQ).1 s l]
  exact (hv v hvQ).2

/-- A log is written in a term that has a leader. -/
theorem Inv.setLog_idle (hi : Inv tm h) {s c : S} (l : List ε)
    (hc : h.elected (h.term s) = some c) {s' : S} {T : ℤ} (hT : h.elected T = none) :
    (h.setLog s l).hlog s' T = (h.setLog s l).hlog s' (T - 1) := by
  have hne : T ≠ h.term s := by
    rintro rfl
    rw [hc] at hT
    cases hT
  have hiff : h.term s ≤ T ↔ h.term s ≤ T - 1 := by omega
  simp only [setLog_hlog, hiff, hi.idle s' T hT]

/-- A log that keeps what the leader had at its election is written. -/
theorem Inv.setLog_keep (hi : Inv tm h) {s : S} {l : List ε}
    (hkeep : ∀ p, p <+: h.log s → p <+: h.base (h.term s) → p <+: l) {s' : S} {T : ℤ}
    {p : List ε} (hp : p <+: (h.setLog s l).hlog s' (T - 1)) (hb : p <+: h.base T) :
    p <+: (h.setLog s l).hlog s' T := by
  rw [setLog_hlog] at hp ⊢
  by_cases hsT : s' = s ∧ h.term s ≤ T
  · rw [if_pos hsT]
    split at hp
    · exact hp
    · next hnot =>
      -- then `T` is the current term of the server
      obtain ⟨rfl, hle⟩ := hsT
      have hT : T = h.term s' := by
        by_contra hne
        exact hnot ⟨rfl, by omega⟩
      subst hT
      exact hkeep p (hi.keep s' _ p hp hb) hb
  · rw [if_neg hsT]
    rw [if_neg (fun hx => hsT ⟨hx.1, by omega⟩)] at hp
    exact hi.keep s' T p hp hb

theorem Inv.setTerm (hi : Inv tm h) {s : S} {T : ℤ} (hT : h.term s < T) :
    Inv tm (h.setTerm s T) := by
  have hle : ∀ s', h.term s' ≤ (h.setTerm s T).term s' := by
    intro s'
    rcases eq_or_ne s' s with rfl | hne
    · simpa [History.setTerm] using hT.le
    · simp [History.setTerm, hne]
  exact
    { hi with
      stable := by
        intro s' u hu
        have h1 := hle s'
        change h.hlog s' u = h.hlog s' ((h.setTerm s T).term s')
        rw [hi.stable s' u (h1.trans hu), hi.stable s' _ h1]
      hlog_le :=
        fun s' u e he => ⟨(hi.hlog_le s' u e he).1, (hi.hlog_le s' u e he).2.trans (hle s')⟩
      elected_pos := fun T' c hc =>
        ⟨(hi.elected_pos T' c hc).1, (hi.elected_pos T' c hc).2.trans (hle c)⟩
      vote_le := fun v T' c hv => (hi.vote_le v T' c hv).trans (hle v) }

theorem Inv.setVote (hi : Inv tm h) {s c : S} (hfree : h.vote s (h.term s) = none) :
    Inv tm (h.setVote s c) where
  stable := hi.stable
  valid_hlog := hi.valid_hlog
  valid_tlog := hi.valid_tlog
  hlog_le := hi.hlog_le
  base_lt := hi.base_lt
  tlog_eq := hi.tlog_eq
  elected_pos := hi.elected_pos
  quorum := by
    intro T d hd
    obtain ⟨Q, hQ, hv⟩ := hi.quorum T d hd
    exact ⟨Q, hQ, fun v hvQ => ⟨setVote_vote_of_some hfree (hv v hvQ).1, (hv v hvQ).2⟩⟩
  vote_le := by
    intro v T d hv
    change (if v = s ∧ T = h.term s then some c else h.vote v T) = some d at hv
    -- the new vote is in the term of the voter
    split at hv
    · next heq => rw [heq.1, heq.2]; exact le_rfl
    · exact hi.vote_le v T d hv
  leader_log := hi.leader_log
  idle := hi.idle
  keep := hi.keep

omit [DecidableEq S] in
theorem Inv.setElected (hi : Inv tm h) {c : S} {Q : Finset S} (hQ : IsMajority Q)
    (h0 : 0 < h.term c) (hfree : h.elected (h.term c) = none)
    (hvote : ∀ v ∈ Q, h.vote v (h.term c) = some c ∧
      UpToDate tm (h.log c) (h.hlog v (h.term c - 1))) :
    Inv tm (h.setElected c) := by
  have hlog : h.log c = h.hlog c (h.term c - 1) := hi.idle c _ hfree
  -- a term with a leader is not the new one
  have hne : ∀ {T d}, h.elected T = some d → T ≠ h.term c := by
    rintro T d hd rfl
    rw [hfree] at hd
    cases hd
  have hvalid : ∀ l, Valid tm h l → Valid tm (h.setElected c) l := by
    intro l hl p e hp
    obtain ⟨h1, h2⟩ := hl p e hp
    obtain ⟨d, hd⟩ := Option.isSome_iff_exists.mp h1
    have hT := hne hd
    simp only [History.setElected, Function.update_of_ne hT]
    exact ⟨h1, h2⟩
  refine
    { stable := hi.stable
      valid_hlog := fun s u => hvalid _ (hi.valid_hlog s u)
      valid_tlog := ?_
      hlog_le := hi.hlog_le
      base_lt := ?_
      tlog_eq := ?_
      elected_pos := ?_
      quorum := ?_
      vote_le := hi.vote_le
      leader_log := ?_
      idle := ?_
      keep := ?_ }
  · intro T
    by_cases hT : T = h.term c
    · subst hT
      have := hvalid _ (hi.valid_hlog c (h.term c))
      simpa [History.setElected, History.log] using this
    · simpa [History.setElected, hT] using hvalid _ (hi.valid_tlog T)
  · intro T e he
    by_cases hT : T = h.term c
    · subst hT
      simp only [History.setElected, Function.update_self] at he
      rw [hlog] at he
      have := (hi.hlog_le c _ e he).1
      omega
    · simp only [History.setElected, Function.update_of_ne hT] at he
      exact hi.base_lt T e he
  · intro T
    by_cases hT : T = h.term c
    · subst hT
      exact ⟨[], by simp [History.setElected], by simp⟩
    · simpa [History.setElected, hT] using hi.tlog_eq T
  · intro T d hd
    by_cases hT : T = h.term c
    · subst hT
      have hdc : c = d := by simpa [History.setElected] using hd
      subst hdc
      exact ⟨h0, le_rfl⟩
    · simp only [History.setElected, Function.update_of_ne hT] at hd
      exact hi.elected_pos T d hd
  · intro T d hd
    by_cases hT : T = h.term c
    · subst hT
      have hdc : c = d := by simpa [History.setElected] using hd
      subst hdc
      refine ⟨Q, hQ, fun v hv => ?_⟩
      simpa [History.setElected] using hvote v hv
    · simp only [History.setElected, Function.update_of_ne hT] at hd ⊢
      exact hi.quorum T d hd
  · intro T d hd
    by_cases hT : T = h.term c
    · subst hT
      have hdc : c = d := by simpa [History.setElected] using hd
      subst hdc
      simp [History.setElected, History.log]
    · simp only [History.setElected, Function.update_of_ne hT] at hd ⊢
      exact hi.leader_log T d hd
  · intro s T hd
    by_cases hT : T = h.term c
    · subst hT
      simp [History.setElected] at hd
    · simp only [History.setElected, Function.update_of_ne hT] at hd ⊢
      exact hi.idle s T hd
  · intro s T p hp hb
    by_cases hT : T = h.term c
    · subst hT
      change p <+: h.hlog s (h.term c)
      rw [hi.idle s _ hfree]
      exact hp
    · simp only [History.setElected, Function.update_of_ne hT] at hp hb ⊢
      exact hi.keep s T p hp hb

theorem Inv.setAppend (hi : Inv tm h) {c : S} {e : ε} (hc : h.elected (h.term c) = some c)
    (he : tm e = h.term c) : Inv tm (h.setAppend c e) := by
  have hlog : h.log c = h.tlog (h.term c) := hi.log_of_leader hc
  have hext : ∀ T, h.tlog T <+: (h.setAppend c e).tlog T := by
    intro T
    by_cases hT : T = h.term c
    · subst hT
      simp [History.setAppend, hlog]
    · simp [History.setAppend, hT]
  have hvalid : ∀ l, Valid tm h l → Valid tm (h.setAppend c e) l := fun l hl p f hp =>
    ⟨(hl p f hp).1, (hl p f hp).2.trans (hext _)⟩
  have hnew : Valid tm (h.setAppend c e) (h.log c ++ [e]) := by
    intro p f hp
    rcases List.prefix_concat_iff.mp hp with heq | hp
    · obtain ⟨rfl, hf⟩ := List.append_inj' heq rfl
      obtain rfl : f = e := by simpa using hf
      rw [he]
      simp [History.setAppend, History.setLog, hc]
    · exact hvalid _ (hi.valid_hlog c _) p f hp
  have hhlog : ∀ s u, (h.setAppend c e).hlog s u =
      if s = c ∧ h.term c ≤ u then h.log c ++ [e] else h.hlog s u := fun _ _ => rfl
  refine
    { stable := fun _ _ hu => hi.setLog_stable c (h.log c ++ [e]) hu
      valid_hlog := ?_
      valid_tlog := ?_
      hlog_le := ?_
      base_lt := hi.base_lt
      tlog_eq := ?_
      elected_pos := hi.elected_pos
      quorum := fun _ _ hd => hi.setLog_quorum c (h.log c ++ [e]) hd
      vote_le := hi.vote_le
      leader_log := ?_
      idle := fun _ _ hT => hi.setLog_idle (h.log c ++ [e]) hc hT
      keep := fun _ _ _ hp hb =>
        hi.setLog_keep (fun _ hp _ => hp.trans (List.prefix_append _ _)) hp hb }
  · intro s u
    rw [hhlog]
    split
    · exact hnew
    · exact hvalid _ (hi.valid_hlog s u)
  · intro T
    by_cases hT : T = h.term c
    · subst hT
      simpa [History.setAppend] using hnew
    · simpa [History.setAppend, hT] using hvalid _ (hi.valid_tlog T)
  · intro s u f hf
    change _ ∧ tm f ≤ h.term s
    rw [hhlog] at hf
    split at hf
    · next hcu =>
      obtain ⟨rfl, hu⟩ := hcu
      rcases List.mem_append.mp hf with hf | hf
      · have := (hi.hlog_le s _ f hf).2
        exact ⟨this.trans hu, this⟩
      · obtain rfl : f = e := by simpa using hf
        exact ⟨he.le.trans hu, he.le⟩
    · exact hi.hlog_le s u f hf
  · intro T
    by_cases hT : T = h.term c
    · subst hT
      obtain ⟨x, hx, hxT⟩ := hi.tlog_eq (h.term c)
      refine ⟨x ++ [e], ?_, ?_⟩
      · simp [History.setAppend, History.setLog, hlog, hx]
      · intro f hf
        rcases List.mem_append.mp hf with hf | hf
        · exact hxT f hf
        · obtain rfl : f = e := by simpa using hf
          exact he
    · simpa [History.setAppend, hT] using hi.tlog_eq T
  · intro T d hd
    change h.elected T = some d at hd
    rw [hhlog]
    by_cases hT : T = h.term c
    · subst hT
      rw [hc] at hd
      obtain rfl := Option.some.inj hd
      simp [History.setAppend]
    · have hlt : ¬ (d = c ∧ h.term c ≤ T) := by
        rintro ⟨rfl, hle⟩
        exact hT (le_antisymm (hi.elected_pos T d hd).2 hle)
      rw [if_neg hlt, hi.leader_log T d hd]
      simp [History.setAppend, hT]

theorem Inv.setLog (hi : Inv tm h) {s c : S} {l : List ε} (hc : h.elected (h.term s) = some c)
    (hne : c ≠ s) (hl : l <+: h.tlog (h.term s))
    (hkeep : ∀ p, p <+: h.log s → p <+: h.tlog (h.term s) → p <+: l) :
    Inv tm (h.setLog s l) := by
  refine
    { stable := fun _ _ hu => hi.setLog_stable s l hu
      valid_hlog := ?_
      valid_tlog := hi.valid_tlog
      hlog_le := ?_
      base_lt := hi.base_lt
      tlog_eq := hi.tlog_eq
      elected_pos := hi.elected_pos
      quorum := fun _ _ hd => hi.setLog_quorum s l hd
      vote_le := hi.vote_le
      leader_log := ?_
      idle := fun _ _ hT => hi.setLog_idle l hc hT
      -- what survived up to the adoption is a common prefix, which it keeps
      keep := fun _ _ _ hp hb =>
        hi.setLog_keep (fun p hp hb => hkeep p hp (hb.trans (hi.base_isPrefix _))) hp hb }
  · intro s' u
    rw [setLog_hlog]
    split
    · exact (hi.valid_tlog _).of_isPrefix hl
    · exact hi.valid_hlog s' u
  · intro s' u f hf
    rw [setLog_hlog] at hf
    split at hf
    · next hsu =>
      obtain ⟨rfl, hu⟩ := hsu
      have := hi.tlog_le (hl.subset hf)
      exact ⟨this.trans hu, this⟩
    · exact hi.hlog_le s' u f hf
  · intro T d hd
    rw [setLog_hlog_of_not, setLog_tlog, hi.leader_log T d hd]
    rintro ⟨rfl, hle⟩
    obtain rfl : T = h.term d := le_antisymm (hi.elected_pos T d hd).2 hle
    rw [setLog_elected, hc] at hd
    exact hne (Option.some.inj hd)

/-- **The invariant is preserved by every step.** -/
theorem Inv.of_step (hi : Inv tm h) {s : S} (hs : Step tm s h h') : Inv tm h' := by
  cases hs with
  | advance T hT => exact hi.setTerm hT
  | castVote c hfree => exact hi.setVote hfree
  | elect Q hQ h0 hfree hvote => exact hi.setElected hQ h0 hfree hvote
  | append e hc he => exact hi.setAppend hc he
  | adopt c l hc hne hl hkeep => exact hi.setLog hc hne hl hkeep

end History

end ExchangeLabs
