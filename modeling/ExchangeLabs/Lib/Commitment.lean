import Mathlib.Algebra.Order.Group.Int
import Mathlib.Order.SuccPred.Basic
import Mathlib.Data.Int.SuccPred
import ExchangeLabs.Lib.Replication

/-!
# Commitment of replicated logs

A log is *chosen* in a term when it ends in an entry of that term and a majority
has held it in that term.  The main point is that every later leader was elected
with it (`History.Inv.leader_complete`), from which it follows that what is
committed is linearly ordered, is held by every leader from then on, and is
never given up by a server that holds it.

## Main definitions

* `Chosen tm h T p` — a majority has held `p` in the term `T`.
* `Committed tm h T p` — `p` is a prefix of a log chosen in a term up to `T`.
* `History.Le tm h h'` — what `h'` keeps of the earlier history `h`.

## Main results

* `History.Inv.leader_complete` — **leader completeness.**
* `Committed.isPrefix_or_isPrefix` — committed logs are comparable.
* `Committed.prefix_tlog` — a leader holds what is committed up to its term.
* `History.Inv.le_of_step` — a step only adds to a history.
* `Committed.of_le` — what is committed stays committed.
-/

namespace ExchangeLabs

open History

variable {S ε : Type*} [Fintype S] {tm : ε → ℤ} {h h' : History S ε}

/-- A majority has held the log `p` in the term `T`, and `p` ends in an entry of
that term. -/
structure Chosen (tm : ε → ℤ) (h : History S ε) (T : ℤ) (p : List ε) : Prop where
  led : (h.elected T).isSome
  last : ∃ q e, p = q ++ [e] ∧ tm e = T
  prefix_tlog : p <+: h.tlog T
  majority : ∃ Q : Finset S, IsMajority Q ∧ ∀ s ∈ Q, p <+: h.hlog s T

/-- The log `p` is a prefix of one that was chosen in a term up to `T`. -/
def Committed (tm : ε → ℤ) (h : History S ε) (T : ℤ) (p : List ε) : Prop :=
  p = [] ∨ ∃ T₀ ≤ T, ∃ q, Chosen tm h T₀ q ∧ p <+: q

/-! ### Leader completeness -/

/-- A prefix that every leader of the terms in `(T, U]` was elected with outlives
these terms in the log of a server that held it in `T`. -/
theorem History.Inv.prefix_hlog_of_forall (hi : Inv tm h) {s : S} {p : List ε} {T U : ℤ}
    (hTU : T ≤ U) (hp : p <+: h.hlog s T)
    (hbase : ∀ V, T < V → V ≤ U → (h.elected V).isSome → p <+: h.base V) :
    p <+: h.hlog s U := by
  induction U, hTU using Int.leInduction with
  | base => exact hp
  | succ U hTU ih =>
    have hU : p <+: h.hlog s U := ih fun V h1 h2 => hbase V h1 (by omega)
    have hUU : h.hlog s U = h.hlog s (U + 1 - 1) := by rw [Int.add_sub_cancel]
    rw [hUU] at hU
    cases hel : h.elected (U + 1) with
    | none => rwa [hi.idle s _ hel]
    | some c => exact hi.keep s _ p hU (hbase _ (by omega) le_rfl (by simp [hel]))

/-- The last term of a log that holds an entry of the term `T` is at least `T`. -/
theorem History.Inv.le_lastTerm (hi : Inv tm h) {l q : List ε} {e : ε} (hl : Valid tm h l)
    (hq : q ++ [e] <+: l) : tm e ≤ lastTerm tm l := by
  obtain ⟨x, rfl⟩ := hq
  rcases List.eq_nil_or_concat' x with rfl | ⟨y, f, rfl⟩
  · simp
  · have hpre : (q ++ [e] ++ y) ++ [f] <+: q ++ [e] ++ (y ++ [f]) := by simp
    have := hi.term_le_of_isPrefix hl hpre (f := e) (by simp)
    rwa [← List.append_assoc, lastTerm_concat]

/-- **Up-to-date logs carry what is chosen.**  If `m` holds the log `p` chosen in
the term `T`, and `l` is at least as up to date as `m` and holds no entry of a
term from `U` on, then `l` holds `p` too, provided the leaders of the terms
between `T` and `U` were elected with it. -/
theorem History.Inv.prefix_of_upToDate (hi : Inv tm h) {l m p : List ε} {T U : ℤ}
    (hch : Chosen tm h T p) (hl : Valid tm h l) (hm : Valid tm h m) (hlU : ∀ e ∈ l, tm e < U)
    (hpm : p <+: m) (hup : UpToDate tm l m)
    (hbase : ∀ V, T < V → V < U → (h.elected V).isSome → p <+: h.base V) : p <+: l := by
  obtain ⟨q, e, rfl, he⟩ := hch.last
  have hTm : T ≤ lastTerm tm m := he ▸ hi.le_lastTerm hm hpm
  have h0 : 0 < T := by
    obtain ⟨c, hc⟩ := Option.isSome_iff_exists.mp hch.led
    exact (hi.elected_pos T c hc).1
  have hml : lastTerm tm m ≤ lastTerm tm l := by
    rcases hup with hlt | ⟨heq, -⟩
    · exact hlt.le
    · exact heq.le
  -- so `l` ends in an entry of a term from `T` on
  rcases List.eq_nil_or_concat' l with rfl | ⟨l', f, rfl⟩
  · rw [lastTerm_nil] at hml
    omega
  rw [lastTerm_concat] at hml
  obtain ⟨hfel, hfl⟩ := hl l' f List.prefix_rfl
  rcases lt_or_eq_of_le (hTm.trans hml) with hlt | heq
  · -- of a later term, whose leader was elected with `p`
    have hpb : q ++ [e] <+: h.base (tm f) := hbase _ hlt (hlU f (by simp)) hfel
    refine List.prefix_of_prefix_length_le (hpb.trans (hi.base_isPrefix _)) hfl ?_
    by_contra hlong
    -- otherwise the last entry of `l` would lie in the base of its own term
    have hin : l' ++ [f] <+: h.base (tm f) :=
      List.prefix_of_prefix_length_le hfl (hi.base_isPrefix _)
        ((not_le.mp hlong).le.trans hpb.length_le)
    exact lt_irrefl _ (hi.base_lt _ f (hin.subset (by simp)))
  · -- of the term `T` itself, and then both logs are prefixes of that leader's
    rcases hup with hlt | ⟨-, hlen⟩
    · rw [lastTerm_concat] at hlt
      omega
    · have hmT : m <+: h.tlog T := by
        rcases List.eq_nil_or_concat' m with rfl | ⟨m', g, rfl⟩
        · exact List.nil_prefix
        rw [lastTerm_concat] at hml hTm
        have hg : tm g = T := by omega
        exact hg ▸ (hm m' g List.prefix_rfl).2
      rw [← heq] at hfl
      exact hpm.trans (List.prefix_of_prefix_length_le hmT hfl hlen)

/-- **Leader completeness**: every leader of a later term was elected with what
was chosen in the term `T`. -/
theorem History.Inv.leader_complete [DecidableEq S] (hi : Inv tm h) {T : ℤ} {p : List ε}
    (hch : Chosen tm h T p) {U : ℤ} (hTU : T < U) (hU : (h.elected U).isSome) :
    p <+: h.base U := by
  -- strong induction on the distance from `T`
  obtain ⟨n, hn⟩ : ∃ n : ℕ, U = T + 1 + n := ⟨(U - T - 1).toNat, by omega⟩
  induction n using Nat.strong_induction_on generalizing U with
  | _ n ih =>
    have hbase : ∀ V, T < V → V < U → (h.elected V).isSome → p <+: h.base V := by
      intro V h1 h2 hV
      exact ih (V - T - 1).toNat (by omega) h1 hV (by omega)
    obtain ⟨c, hc⟩ := Option.isSome_iff_exists.mp hU
    obtain ⟨P, hP, hPh⟩ := hch.majority
    obtain ⟨Q, hQ, hQv⟩ := hi.quorum U c hc
    -- a server that held `p` in `T` and voted in `U`
    obtain ⟨v, hvP, hvQ⟩ := hP.exists_mem_inter hQ
    have hpv : p <+: h.hlog v (U - 1) :=
      hi.prefix_hlog_of_forall (by omega) (hPh v hvP) fun V h1 h2 => hbase V h1 (by omega)
    exact hi.prefix_of_upToDate hch ((hi.valid_tlog U).of_isPrefix (hi.base_isPrefix U))
      (hi.valid_hlog v _) (hi.base_lt U) hpv (hQv v hvQ).2 hbase

/-! ### Committed logs -/

theorem Committed.nil {T : ℤ} : Committed tm h T [] := Or.inl rfl

theorem Committed.mono {T U : ℤ} {p : List ε} (hp : Committed tm h T p) (hTU : T ≤ U) :
    Committed tm h U p := by
  rcases hp with rfl | ⟨T₀, hT₀, q, hq, hpq⟩
  · exact .nil
  · exact Or.inr ⟨T₀, hT₀.trans hTU, q, hq, hpq⟩

theorem Committed.of_isPrefix {T : ℤ} {p q : List ε} (hq : Committed tm h T q) (hpq : p <+: q) :
    Committed tm h T p := by
  rcases hq with rfl | ⟨T₀, hT₀, r, hr, hqr⟩
  · rw [List.prefix_nil.mp hpq]
    exact .nil
  · exact Or.inr ⟨T₀, hT₀, r, hr, hpq.trans hqr⟩

/-- A leader holds what is committed up to its term. -/
theorem Committed.prefix_tlog [DecidableEq S] (hi : Inv tm h) {T : ℤ} {p : List ε}
    (hp : Committed tm h T p) (hT : (h.elected T).isSome) : p <+: h.tlog T := by
  rcases hp with rfl | ⟨T₀, hT₀, q, hq, hpq⟩
  · exact List.nil_prefix
  · rcases eq_or_lt_of_le hT₀ with rfl | hlt
    · exact hpq.trans hq.prefix_tlog
    · exact hpq.trans ((hi.leader_complete hq hlt hT).trans (hi.base_isPrefix T))

/-- **Committed logs are comparable.** -/
theorem Committed.isPrefix_or_isPrefix [DecidableEq S] (hi : Inv tm h) {T U : ℤ} {p q : List ε}
    (hp : Committed tm h T p) (hq : Committed tm h U q) : p <+: q ∨ q <+: p := by
  -- both are held by the leader of the later of the two terms they were chosen in
  have key : ∃ V, p <+: h.tlog V ∧ q <+: h.tlog V := by
    rcases hp with rfl | ⟨T₀, -, p', hp', hpp⟩
    · rcases hq with rfl | ⟨U₀, -, q', hq', hqq⟩
      · exact ⟨0, List.nil_prefix, List.nil_prefix⟩
      · exact ⟨U₀, List.nil_prefix, hqq.trans hq'.prefix_tlog⟩
    · rcases hq with rfl | ⟨U₀, -, q', hq', hqq⟩
      · exact ⟨T₀, hpp.trans hp'.prefix_tlog, List.nil_prefix⟩
      · have hcp : Committed tm h T₀ p := Or.inr ⟨T₀, le_rfl, p', hp', hpp⟩
        have hcq : Committed tm h U₀ q := Or.inr ⟨U₀, le_rfl, q', hq', hqq⟩
        rcases le_total T₀ U₀ with hle | hle
        · exact ⟨U₀, (hcp.mono hle).prefix_tlog hi hq'.led, hcq.prefix_tlog hi hq'.led⟩
        · exact ⟨T₀, hcp.prefix_tlog hi hp'.led, (hcq.mono hle).prefix_tlog hi hp'.led⟩
  obtain ⟨V, h1, h2⟩ := key
  exact List.prefix_or_prefix_of_prefix h1 h2

/-! ### Histories only grow -/

/-- What a history keeps of an earlier one. -/
structure History.Le (tm : ε → ℤ) (h h' : History S ε) : Prop where
  term_le : ∀ s, h.term s ≤ h'.term s
  vote : ∀ s T c, h.vote s T = some c → h'.vote s T = some c
  elected : ∀ T c, h.elected T = some c → h'.elected T = some c
  tlog : ∀ T, (h.elected T).isSome → h.tlog T <+: h'.tlog T
  /-- The logs of past terms are frozen. -/
  past : ∀ s u, u < h.term s → h'.hlog s u = h.hlog s u
  /-- What a server has acknowledged to a leader it keeps while in that term. -/
  acked : ∀ s T p, T ≤ h.term s → (h.elected T).isSome → p <+: h.tlog T → p <+: h.hlog s T →
    p <+: h'.hlog s T
  /-- A server gives up nothing that is committed up to its term. -/
  keeps : ∀ s p, Committed tm h (h.term s) p → p <+: h.log s → p <+: h'.log s

theorem History.Le.isSome_elected (hle : Le tm h h') {T : ℤ} (hT : (h.elected T).isSome) :
    (h'.elected T).isSome := by
  obtain ⟨c, hc⟩ := Option.isSome_iff_exists.mp hT
  simp [hle.elected T c hc]

theorem Chosen.of_le (hi : Inv tm h) (hle : Le tm h h') {T : ℤ} {p : List ε}
    (hp : Chosen tm h T p) : Chosen tm h' T p := by
  obtain ⟨q, e, rfl, he⟩ := hp.last
  obtain ⟨Q, hQ, hQh⟩ := hp.majority
  refine
    { led := hle.isSome_elected hp.led
      last := ⟨q, e, rfl, he⟩
      prefix_tlog := hp.prefix_tlog.trans (hle.tlog T hp.led)
      majority := ⟨Q, hQ, fun s hs => ?_⟩ }
  -- a server that holds an entry of the term `T` has reached it
  have hTs : T ≤ h.term s := he ▸ (hi.hlog_le s T e ((hQh s hs).subset (by simp))).2
  exact hle.acked s T _ hTs hp.led hp.prefix_tlog (hQh s hs)

/-- **What is committed stays committed.** -/
theorem Committed.of_le (hi : Inv tm h) (hle : Le tm h h') {T : ℤ} {p : List ε}
    (hp : Committed tm h T p) : Committed tm h' T p := by
  rcases hp with rfl | ⟨T₀, hT₀, q, hq, hpq⟩
  · exact .nil
  · exact Or.inr ⟨T₀, hT₀, q, hq.of_le hi hle, hpq⟩

theorem History.Le.refl (tm : ε → ℤ) (h : History S ε) : Le tm h h where
  term_le := fun _ => le_rfl
  vote := fun _ _ _ hv => hv
  elected := fun _ _ hc => hc
  tlog := fun _ _ => List.prefix_rfl
  past := fun _ _ _ => rfl
  acked := fun _ _ _ _ _ _ hp => hp
  keeps := fun _ _ _ hp => hp

theorem History.Le.trans {h'' : History S ε} (hi : Inv tm h) (h₁ : Le tm h h')
    (h₂ : Le tm h' h'') : Le tm h h'' where
  term_le := fun s => (h₁.term_le s).trans (h₂.term_le s)
  vote := fun s T c hv => h₂.vote s T c (h₁.vote s T c hv)
  elected := fun T c hc => h₂.elected T c (h₁.elected T c hc)
  tlog := fun T hT => (h₁.tlog T hT).trans (h₂.tlog T (h₁.isSome_elected hT))
  past := fun s u hu => (h₂.past s u (hu.trans_le (h₁.term_le s))).trans (h₁.past s u hu)
  acked := fun s T p hT hel hp hps =>
    h₂.acked s T p (hT.trans (h₁.term_le s)) (h₁.isSome_elected hel)
      (hp.trans (h₁.tlog T hel)) (h₁.acked s T p hT hel hp hps)
  keeps := fun s p hc hp =>
    h₂.keeps s p ((hc.of_le hi h₁).mono (h₁.term_le s)) (h₁.keeps s p hc hp)

variable [DecidableEq S]

private theorem History.le_setTerm (hi : Inv tm h) {s : S} {T : ℤ} (hT : h.term s < T) :
    Le tm h (h.setTerm s T) where
  term_le := by
    intro r
    rcases eq_or_ne r s with rfl | hne
    · simpa [History.setTerm] using hT.le
    · simp [History.setTerm, hne]
  vote := fun _ _ _ hv => hv
  elected := fun _ _ hc => hc
  tlog := fun _ _ => List.prefix_rfl
  past := fun _ _ _ => rfl
  acked := fun _ _ _ _ _ _ hp => hp
  keeps := by
    intro r p _ hp
    change p <+: h.hlog r ((h.setTerm s T).term r)
    rcases eq_or_ne r s with rfl | hne
    · rw [hi.stable r _ (by simpa [History.setTerm] using hT.le)]
      exact hp
    · simpa [History.setTerm, hne, History.log] using hp

omit [DecidableEq S] in
private theorem History.le_setElected {s : S} (hfree : h.elected (h.term s) = none) :
    Le tm h (h.setElected s) := by
  have hne : ∀ {T}, (h.elected T).isSome → T ≠ h.term s := by
    rintro T hT rfl
    simp [hfree] at hT
  exact
    { Le.refl tm h with
      elected := fun T c hc => by
        rw [← hc]
        exact Function.update_of_ne (hne (by simp [hc])) _ _
      tlog := fun T hT => by simp [History.setElected, hne hT] }

private theorem History.le_setAppend (hi : Inv tm h) {s : S} {e : ε}
    (hs : h.elected (h.term s) = some s) : Le tm h (h.setAppend s e) := by
  have hlog := hi.log_of_leader hs
  have hgrow : ∀ r u, h.hlog r u <+: (h.setAppend s e).hlog r u := by
    intro r u
    change _ <+: (h.setLog s (h.log s ++ [e])).hlog r u
    by_cases hru : r = s ∧ h.term s ≤ u
    · obtain ⟨rfl, hu⟩ := hru
      rw [setLog_hlog_of_le _ hu, hi.stable r u hu]
      exact List.prefix_append _ _
    · rw [setLog_hlog_of_not _ hru]
  exact
    { Le.refl tm h with
      tlog := fun T _ => by
        by_cases hT : T = h.term s
        · subst hT
          simp [History.setAppend, hlog]
        · simp [History.setAppend, hT]
      past := fun r u hu => setLog_hlog_of_not _ (by
        rintro ⟨rfl, hle⟩
        exact absurd hu (not_lt.mpr hle))
      acked := fun r T p _ _ _ hp => hp.trans (hgrow r T)
      keeps := fun r p _ hp => hp.trans (hgrow r _) }

private theorem History.le_setLog (hi : Inv tm h) {s c : S} {l : List ε}
    (hc : h.elected (h.term s) = some c)
    (hkeep : ∀ p, p <+: h.log s → p <+: h.tlog (h.term s) → p <+: l) :
    Le tm h (h.setLog s l) :=
  { Le.refl tm h with
    past := fun r u hu =>
      setLog_hlog_of_not _ (by rintro ⟨rfl, hle⟩; exact absurd hu (not_lt.mpr hle))
    acked := by
      intro r T p hT _ hp hps
      by_cases hrT : r = s ∧ h.term s ≤ T
      · obtain ⟨rfl, hle⟩ := hrT
        obtain rfl : T = h.term r := le_antisymm hT hle
        rw [setLog_hlog_of_le _ le_rfl]
        exact hkeep p hps hp
      · rwa [setLog_hlog_of_not _ hrT]
    keeps := by
      intro r p hcom hp
      change p <+: (h.setLog s l).hlog r (h.term r)
      by_cases hrs : r = s
      · subst hrs
        rw [setLog_hlog_of_le _ le_rfl]
        exact hkeep p hp (hcom.prefix_tlog hi (by simp [hc]))
      · rwa [setLog_hlog_of_not _ (fun hx => hrs hx.1)] }

/-- **A step only adds to a history.** -/
theorem History.Inv.le_of_step (hi : Inv tm h) {s : S} (hs : Step tm s h h') : Le tm h h' := by
  cases hs with
  | advance T hT => exact le_setTerm hi hT
  | castVote c hfree =>
    exact { Le.refl tm h with vote := fun _ _ _ hv => setVote_vote_of_some hfree hv }
  | elect Q hQ h0 hfree hvote => exact le_setElected hfree
  | append e hs he => exact le_setAppend hi hs
  | adopt c l hc hne hl hkeep => exact le_setLog hi hc hkeep

theorem History.Inv.of_steps (hi : Inv tm h) {s : S} (hs : Steps tm s h h') :
    Inv tm h' ∧ Le tm h h' := by
  induction hs with
  | refl => exact ⟨hi, Le.refl tm h⟩
  | tail _ hlast ih =>
    obtain ⟨hi', hle⟩ := ih
    exact ⟨hi'.of_step hlast, hle.trans hi (hi'.le_of_step hlast)⟩

end ExchangeLabs
