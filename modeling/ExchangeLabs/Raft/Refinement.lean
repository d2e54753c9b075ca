import ExchangeLabs.Lib.Commitment
import ExchangeLabs.Raft.Cluster
import ExchangeLabs.Raft.LogView

/-!
# The critical sections as steps of a history

Every critical section of a server is a number of its steps in a `History`: its
term moves on, it votes, it is elected, it appends to its log, or it moves its
log towards its leader's.  Nothing here asks that replies be fresh, so what
follows from it (election safety, log matching) holds of all runs.

## Main definitions

* `Server.At rf h s`, `Candidacy`, `Rpc.Sound` — what a server and a call in
  flight have to do with the history.
* `Refines c h` — the cluster `c` stands where the history `h` does.

## Main results

* `Rpc.Sound.of_le` — what a call in flight says stays true.
* `Server.At.appendEntries`, `Server.At.requestVote`, `Server.At.installSnapshot` —
  the handlers take steps of the history.
* `Server.At.receiveVote` — so does counting a vote; a win is an election.
-/

namespace ExchangeLabs.Raft

open History

variable {n : ℕ} {α β : Type}

/-- A history of the logs of `n` servers. -/
abbrev Logs (n : ℕ) (α : Type) := History (Fin n) (LogEntry α)

/-! ### What a call in flight says -/

/-- Server `p` voted for `s` in the term `T`, and while nobody led that term it
had a log that is no more up to date. -/
def Granted (h : Logs n α) (s : Fin n) (T : ℤ) (p : Fin n) : Prop :=
  h.vote p T = some s ∧
    (h.elected T = none → UpToDate LogEntry.term (h.hlog s (T - 1)) (h.hlog p (T - 1)))

/-- Server `p` held the first `k` entries of the leader's log in the term `T`. -/
def Acked (h : Logs n α) (p : Fin n) (T : ℤ) (k : ℕ) : Prop :=
  T ≤ h.term p ∧ (h.tlog T).take k <+: h.hlog p T

/-- What the request and the reply of a call say about the history. -/
def Rpc.Sound (h : Logs n α) (caller callee : Fin n) : Rpc n α β → Prop
  | .requestVote args reply =>
    args.candidateId = caller ∧ h.vote caller args.term = some caller ∧
      args.lastLogIndex = (h.hlog caller (args.term - 1)).length ∧
      args.lastLogTerm = logTerm (h.hlog caller (args.term - 1)) ∧
      ∀ r, reply = some r → r.voteGranted = true → Granted h caller args.term callee
  | .appendEntries args reply =>
    h.elected args.term = some caller ∧ args.SliceOf (h.tlog args.term) ∧
      ∀ r, reply = some r → r.success = true → Acked h callee args.term args.lastNew
  | .installSnapshot args _ =>
    h.elected args.term = some caller ∧ args.PrefixOf (h.tlog args.term)

/-- The caller, the callee and the term of a call for a vote. -/
def Call.ballot (call : Call n α β) : Option (Fin n × Fin n × ℤ) :=
  match call.rpc with
  | .requestVote args _ => some (call.caller, call.callee, args.term)
  | _ => none

/-- The vote that the call of a number asks for. -/
def Cluster.ballot (c : Cluster n α β) (id : ℕ) : Option (Fin n × Fin n × ℤ) :=
  (c.calls id).bind Call.ballot

/-! ### What a server's state says -/

/-- What is in stable storage is what `Make` would restore. -/
def Server.Saved (rf : Server n α β) : Prop :=
  rf.persister.raftState = some rf.toPersisted ∨
    (rf.persister.raftState = none ∧
      rf.toPersisted = (Server.initial rf.me rf.persister).toPersisted)

/-- A server stands where the history has it. -/
structure Server.At (rf : Server n α β) (h : Logs n α) (s : Fin n) : Prop where
  me : rf.me = s
  nonneg : 0 ≤ rf.currentTerm
  term : rf.currentTerm = h.term s
  vote : rf.votedFor = h.vote s (h.term s)
  log : rf.Holds (h.log s)
  leader : rf.state = .leader → h.elected (h.term s) = some s

/-- Server `s` is a candidate with `votes` votes; `asked p` says that its call
for the vote of `p` is still in flight. -/
structure Candidacy (h : Logs n α) (s : Fin n) (votes : ℕ) (asked : Fin n → Prop) : Prop where
  pos : 0 < h.term s
  voted : h.vote s (h.term s) = some s
  notElected : h.elected (h.term s) ≠ some s
  /-- A candidate's log is the one it came to the term with. -/
  unchanged : h.log s = h.hlog s (h.term s - 1)
  count : ∃ G : Finset (Fin n), s ∉ G ∧ votes = G.card + 1 ∧
    ∀ p ∈ G, Granted h s (h.term s) p ∧ ¬ asked p

/-- The cluster stands where the history does. -/
structure Refines (c : Cluster n α β) (h : Logs n α) : Prop where
  inv : h.Inv LogEntry.term
  server : ∀ s, (c.nodes s).server.At h s
  saved : ∀ s, (c.nodes s).server.Saved
  candidate : ∀ s, (c.nodes s).server.state = .candidate →
    Candidacy h s ((c.nodes s).votesReceived (h.term s)) fun p => ∃ id,
      c.ballot id = some (s, p, h.term s)
  /-- Nobody sends a snapshot to itself. -/
  installing : ∀ s, (c.nodes s).installing s = 0
  fresh : ∀ id, c.nextCall ≤ id → c.calls id = none
  callee : ∀ id call, c.calls id = some call → call.caller ≠ call.callee
  call : ∀ id call, c.calls id = some call → call.rpc.Sound h call.caller call.callee
  /-- A candidate asks each server once. -/
  askedOnce : ∀ id id' b, c.ballot id = some b → c.ballot id' = some b → id = id'

/-! ### Stability -/

section Stability

variable {h h' : Logs n α}

theorem Granted.of_le (hi : h.Inv LogEntry.term) (hle : Le LogEntry.term h h') {s p : Fin n} {T : ℤ}
    (hs : h.vote s T = some s) (hg : Granted h s T p) : Granted h' s T p := by
  obtain ⟨hv, hup⟩ := hg
  refine ⟨hle.vote _ _ _ hv, fun hno => ?_⟩
  have hno' : h.elected T = none := by
    by_contra hne
    obtain ⟨d, hd⟩ := Option.ne_none_iff_exists'.mp hne
    rw [hle.elected T d hd] at hno
    cases hno
  have h1 := hi.vote_le s T s hs
  have h2 := hi.vote_le p T s hv
  rw [hle.past s (T - 1) (by omega), hle.past p (T - 1) (by omega)]
  exact hup hno'

theorem Le.take_tlog (hle : Le LogEntry.term h h') {T : ℤ} {k : ℕ} (hT : (h.elected T).isSome)
    (hk : k ≤ (h.tlog T).length) : (h'.tlog T).take k = (h.tlog T).take k :=
  take_eq_of_isPrefix (hle.tlog T hT) hk |>.trans rfl

theorem Acked.of_le (hle : Le LogEntry.term h h') {p : Fin n} {T : ℤ} {k : ℕ}
    (hT : (h.elected T).isSome) (hk : k ≤ (h.tlog T).length) (ha : Acked h p T k) :
    Acked h' p T k := by
  refine ⟨ha.1.trans (hle.term_le p), ?_⟩
  rw [Le.take_tlog hle hT hk]
  exact hle.acked p T _ ha.1 hT (List.take_prefix _ _) ha.2

theorem AppendingEntriesArgs.SliceOf.of_isPrefix {args : AppendingEntriesArgs n α}
    {L L' : List (LogEntry α)} (ha : args.SliceOf L) (hL : L <+: L') : args.SliceOf L' := by
  obtain ⟨h0, hle, ht, he⟩ := ha
  have hlen := hL.length_le
  refine ⟨h0, by omega, ?_, ?_⟩
  · rw [ht, take_eq_of_isPrefix hL (by omega)]
  · obtain ⟨x, rfl⟩ := hL
    rw [List.drop_append_of_le_length (by omega)]
    exact he.trans (List.prefix_append _ _)

theorem AppendingEntriesArgs.SliceOf.lastNew_le {args : AppendingEntriesArgs n α}
    {L : List (LogEntry α)} (ha : args.SliceOf L) : args.lastNew ≤ L.length := by
  have h1 := ha.entries.length_le
  have h2 := ha.le
  have h3 := ha.nonneg
  rw [List.length_drop] at h1
  unfold AppendingEntriesArgs.lastNew
  omega

theorem InstallSnapshotArgs.PrefixOf.of_isPrefix {args : InstallSnapshotArgs n β}
    {L L' : List (LogEntry α)} (ha : args.PrefixOf L) (hL : L <+: L') : args.PrefixOf L' := by
  obtain ⟨h0, hle, ht⟩ := ha
  have hlen := hL.length_le
  exact ⟨h0, by omega, by rw [ht, take_eq_of_isPrefix hL (by omega)]⟩

/-- **What a call says stays true.** -/
theorem Rpc.Sound.of_le (hi : h.Inv LogEntry.term) (hle : Le LogEntry.term h h')
    {caller callee : Fin n} {rpc : Rpc n α β} (hr : rpc.Sound h caller callee) :
    rpc.Sound h' caller callee := by
  cases rpc with
  | requestVote args reply =>
    obtain ⟨h1, h2, h3, h4, h5⟩ := hr
    have hT := hi.vote_le caller args.term caller h2
    refine ⟨h1, hle.vote _ _ _ h2, ?_, ?_, fun r hr hg => (h5 r hr hg).of_le hi hle h2⟩
    · rw [hle.past caller _ (by omega), h3]
    · rw [hle.past caller _ (by omega), h4]
  | appendEntries args reply =>
    obtain ⟨h1, h2, h3⟩ := hr
    have hT : (h.elected args.term).isSome := by simp [h1]
    exact ⟨hle.elected _ _ h1, h2.of_isPrefix (hle.tlog _ hT),
      fun r hr hs => (h3 r hr hs).of_le hle hT h2.lastNew_le⟩
  | installSnapshot args reply =>
    obtain ⟨h1, h2⟩ := hr
    exact ⟨hle.elected _ _ h1, h2.of_isPrefix (hle.tlog _ (by simp [h1]))⟩

/-- The steps of another server do not move a server. -/
theorem Server.At.of_frame {s r : Fin n} (hf : Frame s h h') (hr : r ≠ s) {rf : Server n α β}
    (ha : rf.At h r) : rf.At h' r where
  me := ha.me
  nonneg := ha.nonneg
  term := by rw [hf.term r hr, ha.term]
  vote := by rw [hf.term r hr, hf.vote r hr, ha.vote]
  log := by rw [hf.log hr]; exact ha.log
  leader := by
    intro hst
    have hel := ha.leader hst
    rw [hf.term r hr]
    rcases hf.elected (h.term r) with h1 | ⟨h1, -⟩
    · rw [h1, hel]
    · rw [h1] at hel
      cases hel

theorem Candidacy.of_le {s : Fin n} {votes : ℕ} {asked asked' : Fin n → Prop}
    (hi : h.Inv LogEntry.term) (hle : Le LogEntry.term h h') (hterm : h'.term s = h.term s)
    (hlog : h'.log s = h.log s) (hel : h'.elected (h.term s) ≠ some s)
    (hasked : ∀ p, asked' p → asked p) (hc : Candidacy h s votes asked) :
    Candidacy h' s votes asked' := by
  obtain ⟨h0, h1, h2, h3, G, hs, hcard, hG⟩ := hc
  refine ⟨by rwa [hterm], by rw [hterm]; exact hle.vote _ _ _ h1, by rwa [hterm], ?_, G, hs, hcard,
    fun p hp => ⟨?_, fun hask => (hG p hp).2 (hasked p hask)⟩⟩
  · rw [hlog, h3, hterm, hle.past s _ (by omega)]
  · rw [hterm]
    exact (hG p hp).1.of_le hi hle h1

end Stability

/-! ### The critical sections, one by one -/

namespace Server

variable {h h' : Logs n α} {s : Fin n} {rf rf' : Server n α β}

theorem At.congr (ha : rf.At h s) (hme : rf'.me = rf.me) (hp : rf'.toPersisted = rf.toPersisted)
    (hst : rf'.state = .leader → rf.state = .leader) : rf'.At h s := by
  simp only [toPersisted, Persisted.mk.injEq] at hp
  obtain ⟨h1, h2, h3, h4, h5⟩ := hp
  exact ⟨hme.trans ha.me, h1 ▸ ha.nonneg, h1.trans ha.term, h2.trans ha.vote, ha.log.congr h3 h4 h5,
    fun hl => ha.leader (hst hl)⟩

theorem saved_save (rf : Server n α β) (data : Option β) : (rf.save data).Saved := Or.inl rfl

theorem Saved.congr (hs : rf.Saved) (hme : rf'.me = rf.me) (hp : rf'.toPersisted = rf.toPersisted)
    (hper : rf'.persister = rf.persister) : rf'.Saved := by
  unfold Saved
  rw [hme, hp, hper]
  exact hs

theorem At.save (ha : rf.At h s) (data : Option β) : (rf.save data).At h s :=
  ha.congr rfl rfl fun hl => hl

/-- A later term leaves the logs alone. -/
theorem log_setTerm (hi : h.Inv LogEntry.term) {T : ℤ} (hT : h.term s < T) (r : Fin n) :
    (h.setTerm s T).log r = h.log r := by
  change h.hlog r ((h.setTerm s T).term r) = h.hlog r (h.term r)
  rcases eq_or_ne r s with rfl | hne
  · simpa [History.setTerm] using hi.stable r T hT.le
  · simp [History.setTerm, hne]

@[simp] theorem term_setTerm (T : ℤ) : (h.setTerm s T).term s = T := by simp [History.setTerm]

/-- Nobody votes in a term that it has not reached. -/
theorem vote_eq_none (hi : h.Inv LogEntry.term) {T : ℤ} (hT : h.term s < T) :
    h.vote s T = none := by
  by_contra hne
  obtain ⟨d, hd⟩ := Option.ne_none_iff_exists'.mp hne
  have := hi.vote_le s T d hd
  omega

theorem At.stepDown (hi : h.Inv LogEntry.term) (ha : rf.At h s) {T : ℤ} (hT : rf.currentTerm < T) :
    (rf.stepDown T).At (h.setTerm s T) s := by
  have hT' : h.term s < T := ha.term ▸ hT
  exact
    { me := ha.me
      nonneg := ha.nonneg.trans hT.le
      term := (term_setTerm T).symm
      vote := by
        rw [term_setTerm]
        exact (vote_eq_none hi hT').symm
      log := by
        rw [log_setTerm hi hT']
        exact ha.log.congr rfl rfl rfl
      leader := fun hl => by cases hl }

/-- **Accepting a term**: the server is in that term afterwards, as a follower or
as its leader, and nothing else has changed. -/
theorem At.acceptTerm (hi : h.Inv LogEntry.term) (ha : rf.At h s) {T : ℤ}
    (hT : rf.currentTerm ≤ T) :
    ∃ h', Steps LogEntry.term s h h' ∧ (rf.acceptTerm T).At h' s ∧ h'.term s = T ∧
      h'.log s = h.log s ∧ h'.elected = h.elected ∧ h'.tlog = h.tlog ∧
      (rf.acceptTerm T).state ≠ .candidate := by
  unfold Server.acceptTerm
  rcases eq_or_lt_of_le hT with rfl | hlt
  · rw [if_neg (lt_irrefl _)]
    dsimp only
    refine ⟨h, .refl, ?_, ha.term.symm, rfl, rfl, rfl, ?_⟩
    · split
      · exact ha.congr rfl rfl fun hl => by cases hl
      · exact ha
    · split
      · simp
      · next hne => exact hne
  · rw [if_pos hlt, if_neg (by simp [Server.stepDown])]
    have hlt' : h.term s < T := ha.term ▸ hlt
    exact ⟨h.setTerm s T, .single (.advance T hlt'), ha.stepDown hi hlt, term_setTerm T,
      log_setTerm hi hlt' s, rfl, rfl, by simp [Server.stepDown]⟩

/-- **Moving towards the leader's log** is a step of the history, or none. -/
theorem At.adopt (ha : rf.At h s) {c : Fin n} {F' : List (LogEntry α)} {rf' : Server n α β}
    (hc : h.elected (h.term s) = some c) (hne : c ≠ s) (hF' : rf'.Holds F')
    (hto : Towards (h.tlog (h.term s)) (h.log s) F') (hme : rf'.me = rf.me)
    (hterm : rf'.currentTerm = rf.currentTerm) (hvote : rf'.votedFor = rf.votedFor)
    (hst : rf'.state = rf.state) :
    ∃ h', Steps LogEntry.term s h h' ∧ rf'.At h' s ∧ h'.log s = F' ∧ h'.term s = h.term s ∧
      h'.tlog = h.tlog := by
  rcases hto.eq_or_isPrefix with rfl | hpre
  · exact ⟨h, .refl, ⟨hme.trans ha.me, hterm ▸ ha.nonneg, hterm.trans ha.term, hvote.trans ha.vote,
      hF', fun hl => ha.leader (hst ▸ hl)⟩, rfl, rfl, rfl⟩
  · have hlog : (h.setLog s F').log s = F' := setLog_hlog_of_le _ le_rfl
    exact ⟨h.setLog s F', .single (.adopt c F' hc hne hpre hto.keep),
      ⟨hme.trans ha.me, hterm ▸ ha.nonneg, hterm.trans ha.term, hvote.trans ha.vote,
        by rw [hlog]; exact hF', fun hl => ha.leader (hst ▸ hl)⟩, hlog, rfl, rfl⟩

/-! ### Handlers -/

/-- **`AppendEntries`** of the leader of its term never fails, and what it
acknowledges it holds. -/
theorem At.appendEntries (hi : h.Inv LogEntry.term) (ha : rf.At h s) {c : Fin n}
    {args : AppendingEntriesArgs n α} (hc : h.elected args.term = some c) (hne : c ≠ s)
    (hargs : args.SliceOf (h.tlog args.term)) :
    ∃ rf' reply h', rf.appendEntries args = some (rf', reply) ∧ Steps LogEntry.term s h h' ∧
      rf'.At h' s ∧ rf'.Saved ∧ (rf'.state = .candidate → rf.state = .candidate ∧ h' = h) ∧
      (reply.success = true → Acked h' s args.term args.lastNew) := by
  unfold Server.appendEntries
  by_cases hold : args.term < rf.currentTerm
  · rw [if_pos hold]
    exact ⟨_, _, h, rfl, .refl, ha.save _, saved_save _ _, fun hs => ⟨hs, rfl⟩, by simp⟩
  rw [if_neg hold]
  obtain ⟨h₁, hst₁, ha₁, hterm, hlog, hel, htl, hncand⟩ := ha.acceptTerm hi (not_lt.mp hold)
  obtain ⟨hi₁, -⟩ := hi.of_steps hst₁
  generalize rf.acceptTerm args.term = rf₁ at ha₁ hncand ⊢
  rcases ha₁.log.appendEntriesLog_eq (hi₁.valid_hlog s _) (hi₁.valid_tlog args.term)
      (htl ▸ hargs) with ⟨reply, hrej, hsucc, -⟩ | ⟨log, F', hacc, hF', hto, hlast⟩
  · rw [hrej]
    exact ⟨_, reply, h₁, rfl, hst₁, ha₁.save _, saved_save _ _, fun hs => absurd hs hncand,
      fun hx => by rw [hsucc] at hx; cases hx⟩
  · rw [hacc]
    have hfields : ∀ rf₂ : Server n α β, rf₂.me = (rf₂.advanceCommit args).me ∧
        rf₂.toPersisted = (rf₂.advanceCommit args).toPersisted ∧
        rf₂.state = (rf₂.advanceCommit args).state := by
      intro rf₂
      unfold advanceCommit
      split <;> exact ⟨rfl, rfl, rfl⟩
    obtain ⟨f1, f2, f3⟩ := hfields { rf₁ with log := log }
    rw [← hterm] at hc hto hlast ⊢
    obtain ⟨h₂, hst₂, ha₂, hlog₂, hterm₂, htl₂⟩ := ha₁.adopt (hel ▸ hc) hne hF' hto rfl rfl rfl rfl
    refine ⟨_, _, h₂, rfl, hst₁.trans hst₂, (ha₂.congr f1.symm f2.symm fun hl => f3 ▸ hl).save _,
      saved_save _ _, fun hs => absurd (f3.trans hs) hncand, fun _ => ⟨hterm₂.ge, ?_⟩⟩
    rw [htl₂]
    have hcur : h₂.hlog s (h₁.term s) = F' := by rw [← hterm₂]; exact hlog₂
    rw [hcur]
    exact hlast

/-- **`RequestVote`**: a granted vote is the server's only one in that term, and
goes to a log that is at least as up to date. -/
theorem At.requestVote (hi : h.Inv LogEntry.term) (ha : rf.At h s) {c : Fin n}
    (hcand : rf.state = .candidate → h.vote s (h.term s) = some s) {args : RequestVoteArgs n}
    (hne : c ≠ s) (hid : args.candidateId = c)
    (hidx : args.lastLogIndex = (h.hlog c (args.term - 1)).length)
    (htrm : args.lastLogTerm = logTerm (h.hlog c (args.term - 1)))
    (hself : h.vote c args.term = some c) :
    ∃ h', Steps LogEntry.term s h h' ∧ (rf.requestVote args).1.At h' s ∧
      (rf.requestVote args).1.Saved ∧
      ((rf.requestVote args).1.state = .candidate → rf.state = .candidate ∧ h' = h) ∧
      ((rf.requestVote args).2.voteGranted = true → Granted h' c args.term s) := by
  unfold Server.requestVote
  by_cases hold : args.term < rf.currentTerm
  · rw [if_pos hold]
    exact ⟨h, .refl, ha.save _, saved_save _ _, fun hs => ⟨hs, rfl⟩, by simp⟩
  rw [if_neg hold]
  -- the server in the term of the request
  obtain ⟨rf₁, h₁, hrf₁, hst₁, ha₁, hterm, hhl, hel, hcand₁⟩ : ∃ rf₁ h₁,
      rf₁ = (if args.term > rf.currentTerm then rf.stepDown args.term else rf) ∧
      Steps LogEntry.term s h h₁ ∧ rf₁.At h₁ s ∧ h₁.term s = args.term ∧ h₁.hlog = h.hlog ∧
      h₁.elected = h.elected ∧ (rf₁.state = .candidate → rf.state = .candidate ∧ h₁ = h) := by
    by_cases hnew : args.term > rf.currentTerm
    · have hnew' : h.term s < args.term := ha.term ▸ hnew
      exact ⟨_, h.setTerm s args.term, (if_pos hnew).symm, .single (.advance _ hnew'),
        ha.stepDown hi hnew, term_setTerm _, rfl, rfl, fun hs => by cases hs⟩
    · refine ⟨_, h, (if_neg hnew).symm, .refl, ha, ?_, rfl, rfl, fun hs => ⟨hs, rfl⟩⟩
      rw [← ha.term]
      omega
  obtain ⟨hi₁, hle₁⟩ := hi.of_steps hst₁
  rw [← hrf₁]
  dsimp only
  split
  · next hgrant =>
    obtain ⟨hfree, hok⟩ := hgrant
    rw [hid] at hfree ⊢
    have hup : h₁.elected args.term = none →
        UpToDate LogEntry.term (h₁.hlog c (args.term - 1)) (h₁.hlog s (args.term - 1)) := by
      intro hno
      have hlog : h₁.log s = h₁.hlog s (args.term - 1) := by
        rw [← hi₁.idle s _ hno, ← hterm]
        rfl
      unfold Server.logOK at hok
      rw [ha₁.log.getLastLogTerm_eq, ha₁.log.getLastLogIndex_eq, hlog, hidx, htrm, ← hhl] at hok
      simp only [Bool.or_eq_true, Bool.and_eq_true, decide_eq_true_eq] at hok
      rcases hok with hlt | ⟨heq, hlen⟩
      · exact Or.inl hlt
      · exact Or.inr ⟨heq.symm, by exact_mod_cast hlen⟩
    -- a candidate has voted for itself
    have hnc : rf₁.state ≠ .candidate := by
      intro hs
      obtain ⟨hs', rfl⟩ := hcand₁ hs
      rw [ha₁.vote, hcand hs'] at hfree
      rcases hfree with hx | hx
      · cases hx
      · exact hne (Option.some.inj hx).symm
    rcases hfree with hnone | hsome
    · -- its first vote in this term
      have hvnone : h₁.vote s (h₁.term s) = none := ha₁.vote ▸ hnone
      refine ⟨h₁.setVote s c, hst₁.tail (.castVote c hvnone), ?_, saved_save _ _,
        fun hs => absurd hs hnc, fun _ => ⟨?_, hup⟩⟩
      · have hnew : ({ rf₁ with votedFor := some c } : Server n α β).At (h₁.setVote s c) s :=
          { me := ha₁.me
            nonneg := ha₁.nonneg
            term := ha₁.term
            vote := (if_pos ⟨rfl, rfl⟩).symm
            log := ha₁.log.congr rfl rfl rfl
            leader := ha₁.leader }
        exact hnew.save _
      · rw [← hterm]
        simp [History.setVote]
    · refine ⟨h₁, hst₁, ?_, saved_save _ _, fun hs => absurd hs hnc, fun _ => ⟨?_, hup⟩⟩
      · have hnew : ({ rf₁ with votedFor := some c } : Server n α β).At h₁ s :=
          ha₁.congr rfl (by simp [Server.toPersisted, hsome]) fun hl => hl
        exact hnew.save _
      · rw [← hterm, ← ha₁.vote, hsome]
  · exact ⟨h₁, hst₁, ha₁.save _, saved_save _ _, hcand₁, by simp⟩

/-- **`InstallSnapshot`** of the leader of its term never fails. -/
theorem At.installSnapshot (hi : h.Inv LogEntry.term) (ha : rf.At h s) (hsaved : rf.Saved)
    {c : Fin n} {args : InstallSnapshotArgs n β} (hc : h.elected args.term = some c) (hne : c ≠ s)
    (hargs : args.PrefixOf (h.tlog args.term)) :
    ∃ rf' reply h', rf.installSnapshot args = some (rf', reply) ∧ Steps LogEntry.term s h h' ∧
      rf'.At h' s ∧ rf'.Saved ∧ (rf'.state = .candidate → rf.state = .candidate ∧ h' = h) := by
  unfold Server.installSnapshot
  by_cases hold : args.term < rf.currentTerm
  · rw [if_pos hold]
    exact ⟨_, _, h, rfl, .refl, ha, hsaved, fun hs => ⟨hs, rfl⟩⟩
  rw [if_neg hold]
  -- the server in the term of the request
  obtain ⟨rf₁, h₁, hrf₁, hst₁, ha₁, hs₁, hterm, hel, htl⟩ : ∃ rf₁ h₁,
      rf₁ = (if args.term > rf.currentTerm then (rf.stepDown args.term).persist else rf) ∧
      Steps LogEntry.term s h h₁ ∧ rf₁.At h₁ s ∧ rf₁.Saved ∧ h₁.term s = args.term ∧
      h₁.elected = h.elected ∧ h₁.tlog = h.tlog := by
    by_cases hnew : args.term > rf.currentTerm
    · have hnew' : h.term s < args.term := ha.term ▸ hnew
      exact ⟨_, h.setTerm s args.term, (if_pos hnew).symm, .single (.advance _ hnew'),
        (ha.stepDown hi hnew).save _, saved_save _ _, term_setTerm _, rfl, rfl⟩
    · refine ⟨_, h, (if_neg hnew).symm, .refl, ha, hsaved, ?_, rfl, rfl⟩
      rw [← ha.term]
      omega
  rw [← hrf₁]
  dsimp only
  -- which is no candidate any more
  obtain ⟨rf₂, hrf₂, ha₂, hs₂, hncand⟩ : ∃ rf₂ : Server n α β,
      rf₂ = (if rf₁.state = .candidate then { rf₁ with state := .follower } else rf₁) ∧
      rf₂.At h₁ s ∧ rf₂.Saved ∧ rf₂.state ≠ .candidate := by
    by_cases hcand : rf₁.state = .candidate
    · exact ⟨_, (if_pos hcand).symm, ha₁.congr rfl rfl fun hl => by (cases hl),
        hs₁.congr rfl rfl rfl, by simp⟩
    · exact ⟨_, (if_neg hcand).symm, ha₁, hs₁, hcand⟩
  rw [← hrf₂]
  obtain ⟨hi₁, -⟩ := hi.of_steps hst₁
  by_cases hlii : args.lastIncludedIndex ≤ rf₂.lastIncludedIndex
  · unfold installSnapshotLog
    rw [if_pos hlii]
    exact ⟨_, _, h₁, rfl, hst₁, ha₂, hs₂, fun hs => absurd hs hncand⟩
  · obtain ⟨log, F', rf', hinst, hrf', hF', hto, -⟩ := ha₂.log.installSnapshotLog_eq
      (hi₁.valid_hlog s _) (hi₁.valid_tlog args.term) (htl ▸ hargs) (not_le.mp hlii)
    rw [hinst]
    rw [← hterm] at hc hto
    obtain ⟨h₂, hst₂, ha', -⟩ := ha₂.adopt (hel ▸ hc) hne hF' hto (by rw [hrf']) (by rw [hrf'])
      (by rw [hrf']) (by rw [hrf'])
    refine ⟨_, _, h₂, rfl, hst₁.trans hst₂, ha'.save _, saved_save _ _, fun hs => ?_⟩
    have : rf'.state = .candidate := hs
    rw [hrf'] at this
    exact absurd this hncand

/-! ### Elections -/

/-- **An election** starts a new term with the server's own vote. -/
theorem At.startElection (hi : h.Inv LogEntry.term) (ha : rf.At h s) :
    ∃ h', Steps LogEntry.term s h h' ∧ rf.startElection.1.At h' s ∧ rf.startElection.1.Saved ∧
      h'.term s = h.term s + 1 ∧ rf.startElection.2.term = h'.term s ∧
      (∀ asked : Fin n → Prop, Candidacy h' s 1 asked) ∧
      ∀ i, (Rpc.requestVote rf.startElection.2 none : Rpc n α β).Sound h' s i := by
  have hlt : h.term s < h.term s + 1 := by omega
  set h₁ := h.setTerm s (h.term s + 1) with hh₁
  have ht₁ : h₁.term s = h.term s + 1 := term_setTerm _
  have hst₁ : Steps LogEntry.term s h h₁ := .single (.advance _ hlt)
  obtain ⟨hi₁, -⟩ := hi.of_steps hst₁
  have hlog₁ : h₁.log s = h.log s := log_setTerm hi hlt s
  have hvnone : h₁.vote s (h₁.term s) = none := by
    rw [ht₁]
    exact vote_eq_none hi hlt
  have hvote : (h₁.setVote s s).vote s (h.term s + 1) = some s := by
    rw [← ht₁]
    exact if_pos ⟨rfl, rfl⟩
  have hprev : h₁.hlog s (h.term s + 1 - 1) = h.log s := by rw [Int.add_sub_cancel]; rfl
  refine ⟨h₁.setVote s s, hst₁.tail (.castVote s hvnone), ?_, saved_save _ _, ht₁, ?_,
    fun asked => ?_, fun i => ?_⟩
  · have hnew : ({ rf with
        state := .candidate
        currentTerm := rf.currentTerm + 1
        votedFor := some rf.me } : Server n α β).At (h₁.setVote s s) s :=
      { me := ha.me
        nonneg := by have := ha.nonneg; simp only; omega
        term := by simp only [ha.term]; exact ht₁.symm
        vote := by
          change some rf.me = (h₁.setVote s s).vote s (h₁.term s)
          rw [ht₁, hvote, ha.me]
        log := by
          change Holds _ (h₁.log s)
          rw [hlog₁]
          exact ha.log.congr rfl rfl rfl
        leader := fun hl => by cases hl }
    exact hnew.save _
  · change rf.currentTerm + 1 = h₁.term s
    rw [ha.term, ht₁]
  · have hterm : (h₁.setVote s s).term s = h.term s + 1 := ht₁
    refine ⟨?_, by rw [hterm, hvote], ?_, ?_, ∅, by simp, by simp, by simp⟩
    · have := ha.nonneg
      rw [hterm, ← ha.term]
      omega
    · intro hel
      have := (hi.elected_pos _ _ hel).2
      omega
    · rw [hterm]
      exact hlog₁.trans hprev.symm
  · have hT : (rf.startElection).2.term = h.term s + 1 := by
      change rf.currentTerm + 1 = _
      rw [ha.term]
    have hlast : (persist { rf with
        state := .candidate
        currentTerm := rf.currentTerm + 1
        votedFor := some rf.me } : Server n α β).Holds (h.log s) := ha.log.congr rfl rfl rfl
    refine ⟨ha.me, ?_, ?_, ?_, fun r hr => by cases hr⟩
    · rw [hT, hvote]
    · rw [hT]
      exact hlast.getLastLogIndex_eq.trans (by rw [← hprev]; rfl)
    · rw [hT]
      exact hlast.getLastLogTerm_eq.trans (by rw [← hprev]; rfl)

/-- **Winning an election** is a step of the history: the votes are a majority
whose logs are no more up to date. -/
theorem At.becomeLeader (hi : h.Inv LogEntry.term) (ha : rf.At h s) {votes : ℕ}
    {asked : Fin n → Prop} (hc : Candidacy h s votes asked) (hwin : votes > n / 2) :
    Steps LogEntry.term s h (h.setElected s) ∧ rf.becomeLeader.At (h.setElected s) s := by
  obtain ⟨h0, hv, hne, hlog, G, hs, hcard, hG⟩ := hc
  have hQ : IsMajority (insert s G) := by
    unfold IsMajority
    rw [Finset.card_insert_of_notMem hs, Fintype.card_fin]
    omega
  have hall : ∀ v ∈ insert s G, h.vote v (h.term s) = some s := by
    intro v hv'
    rcases Finset.mem_insert.mp hv' with rfl | hv'
    · exact hv
    · exact (hG v hv').1.1
  -- nobody else leads the term
  have hfree : h.elected (h.term s) = none := by
    by_contra hsome
    obtain ⟨d, hd⟩ := Option.ne_none_iff_exists'.mp hsome
    exact hne (hi.elected_unique hQ hall hd ▸ hd)
  have hup : ∀ v ∈ insert s G, UpToDate LogEntry.term (h.log s) (h.hlog v (h.term s - 1)) := by
    intro v hv'
    rw [hlog]
    rcases Finset.mem_insert.mp hv' with rfl | hv'
    · exact Or.inr ⟨rfl, le_rfl⟩
    · exact (hG v hv').1.2 hfree
  exact ⟨.single (.elect _ hQ h0 hfree fun v hv' => ⟨hall v hv', hup v hv'⟩),
    { me := ha.me
      nonneg := ha.nonneg
      term := ha.term
      vote := ha.vote
      log := ha.log.congr rfl rfl rfl
      leader := fun _ => by simp [History.setElected] }⟩

/-- **A vote reply** is counted at most once, for the election it belongs to. -/
theorem At.receiveVote (hi : h.Inv LogEntry.term) (ha : rf.At h s) (hsaved : rf.Saved)
    {votes : ℤ → ℕ} {T : ℤ} {p : Fin n} {reply : RequestVoteReply} {asked asked' : Fin n → Prop}
    (hcand : rf.state = .candidate → Candidacy h s (votes (h.term s)) asked) (hps : p ≠ s)
    (hgrant : reply.voteGranted = true → Granted h s T p) (hasked : T = h.term s → asked p)
    (hleft : ∀ q, asked' q → asked q ∧ (T = h.term s → q ≠ p)) :
    ∃ h', Steps LogEntry.term s h h' ∧ (rf.receiveVote (votes T) T reply).1.At h' s ∧
      (rf.receiveVote (votes T) T reply).1.Saved ∧
      ((rf.receiveVote (votes T) T reply).1.state = .candidate → h' = h ∧
        Candidacy h s (Function.update votes T (rf.receiveVote (votes T) T reply).2 (h.term s))
          asked') := by
  have hmono : ∀ {v}, Candidacy h s v asked → Candidacy h s v asked' := fun hc =>
    hc.of_le hi (Le.refl _ h) rfl rfl hc.notElected fun q hq => (hleft q hq).1
  unfold Server.receiveVote
  by_cases hstale : rf.currentTerm ≠ T ∨ rf.state ≠ .candidate
  · rw [if_pos hstale]
    refine ⟨h, .refl, ha, hsaved, fun hs => ⟨rfl, ?_⟩⟩
    rw [Function.update_eq_self]
    exact hmono (hcand hs)
  rw [if_neg hstale]
  push Not at hstale
  obtain ⟨rfl, hst⟩ := hstale
  have hc := hcand hst
  by_cases hnew : reply.term > rf.currentTerm
  · rw [if_pos hnew]
    exact ⟨_, .single (.advance _ (ha.term ▸ hnew)), (ha.stepDown hi hnew).save _, saved_save _ _,
      fun hs => by cases hs⟩
  rw [if_neg hnew]
  by_cases hg : reply.voteGranted = true
  · rw [if_pos hg]
    -- one more vote, from a server not counted before
    have hc' : Candidacy h s (votes rf.currentTerm + 1) asked' := by
      obtain ⟨h0, hv, hne, hlog, G, hs, hcard, hG⟩ := hc
      have hpG : p ∉ G := fun hp => (hG p hp).2 (hasked ha.term)
      refine ⟨h0, hv, hne, hlog, insert p G, ?_, ?_, fun q hq => ?_⟩
      · simp only [Finset.mem_insert, not_or]
        exact ⟨hps.symm, hs⟩
      · rw [Finset.card_insert_of_notMem hpG, ha.term, hcard]
      · rcases Finset.mem_insert.mp hq with rfl | hq
        · exact ⟨ha.term ▸ hgrant hg, fun hx => (hleft q hx).2 ha.term rfl⟩
        · exact ⟨(hG q hq).1, fun hx => (hG q hq).2 (hleft q hx).1⟩
    split
    · next hwin =>
      obtain ⟨hst', ha'⟩ := ha.becomeLeader hi hc' hwin
      exact ⟨_, hst', ha', hsaved.congr rfl rfl rfl, fun hs => by cases hs⟩
    · refine ⟨h, .refl, ha, hsaved, fun _ => ⟨rfl, ?_⟩⟩
      rw [ha.term, Function.update_self, ← ha.term]
      exact hc'
  · rw [if_neg hg]
    refine ⟨h, .refl, ha, hsaved, fun hs => ⟨rfl, ?_⟩⟩
    rw [Function.update_eq_self]
    exact hmono hc

/-! ### Replies -/

theorem scanCommit_eq : ∀ (k : ℕ) {rf'}, rf.scanCommit k = some rf' →
    rf' = { rf with commitIndex := rf'.commitIndex } := by
  intro k
  induction k with
  | zero =>
    intro rf' hx
    cases hx
    rfl
  | succ k ih =>
    intro rf' hx
    unfold scanCommit at hx
    dsimp only at hx
    split at hx
    · cases hx
      rfl
    · split at hx
      · obtain ⟨t, -, hx⟩ := Option.bind_eq_some_iff.mp hx
        split at hx
        · cases hx
          rfl
        · exact ih hx
      · exact ih hx

/-- `checkCommit` changes nothing but the commit index. -/
theorem checkCommit_eq (hx : rf.checkCommit = some rf') :
    rf' = { rf with commitIndex := rf'.commitIndex } := by
  unfold checkCommit at hx
  split at hx
  · cases hx
    rfl
  · exact scanCommit_eq _ hx

/-- A reply to `AppendEntries` moves the term on, or only the bookkeeping. -/
theorem At.receiveAppendEntries (hi : h.Inv LogEntry.term) (ha : rf.At h s) (hsaved : rf.Saved)
    {p : Fin n} {args : AppendingEntriesArgs n α} {reply : AppendingEntriesReply}
    (hx : rf.receiveAppendEntries p args reply = some rf') :
    ∃ h', Steps LogEntry.term s h h' ∧ rf'.At h' s ∧ rf'.Saved ∧
      (rf'.state = .candidate → rf.state = .candidate ∧ h' = h) := by
  unfold Server.receiveAppendEntries at hx
  by_cases hnew : reply.term > rf.currentTerm
  · rw [if_pos hnew] at hx
    cases hx
    exact ⟨_, .single (.advance _ (ha.term ▸ hnew)), (ha.stepDown hi hnew).save _, saved_save _ _,
      fun hs => by cases hs⟩
  rw [if_neg hnew] at hx
  -- the rest leaves terms, votes and logs alone
  refine ⟨h, .refl, ?_⟩
  split at hx
  · cases hx
    exact ⟨ha, hsaved, fun hs => ⟨hs, rfl⟩⟩
  · split at hx
    · dsimp only at hx
      split at hx
      · rw [checkCommit_eq hx]
        exact ⟨ha.congr rfl rfl fun hl => hl, hsaved.congr rfl rfl rfl, fun hs => ⟨hs, rfl⟩⟩
      · cases hx
        exact ⟨ha, hsaved, fun hs => ⟨hs, rfl⟩⟩
    · cases hx
      exact ⟨ha.congr rfl rfl fun hl => hl, hsaved.congr rfl rfl rfl, fun hs => ⟨hs, rfl⟩⟩

/-- So does a reply to `InstallSnapshot`. -/
theorem At.receiveInstallSnapshot (hi : h.Inv LogEntry.term) (ha : rf.At h s) (hsaved : rf.Saved)
    {p : Fin n} {args : InstallSnapshotArgs n β} {reply : InstallSnapshotReply}
    (hx : rf.receiveInstallSnapshot p args reply = some rf') :
    ∃ h', Steps LogEntry.term s h h' ∧ rf'.At h' s ∧ rf'.Saved ∧
      (rf'.state = .candidate → rf.state = .candidate ∧ h' = h) := by
  unfold Server.receiveInstallSnapshot at hx
  by_cases hnew : reply.term > rf.currentTerm
  · rw [if_pos hnew] at hx
    cases hx
    exact ⟨_, .single (.advance _ (ha.term ▸ hnew)), (ha.stepDown hi hnew).save _, saved_save _ _,
      fun hs => by cases hs⟩
  rw [if_neg hnew] at hx
  refine ⟨h, .refl, ?_⟩
  split at hx
  · cases hx
    exact ⟨ha, hsaved, fun hs => ⟨hs, rfl⟩⟩
  · rw [checkCommit_eq hx]
    exact ⟨ha.congr rfl rfl fun hl => hl, hsaved.congr rfl rfl rfl, fun hs => ⟨hs, rfl⟩⟩

/-! ### The service -/

/-- **`Start`** at a leader appends to the log of its term. -/
theorem At.start (hi : h.Inv LogEntry.term) (ha : rf.At h s) (hsaved : rf.Saved)
    (command : Option α) :
    ∃ h', Steps LogEntry.term s h h' ∧ (rf.start command).1.At h' s ∧ (rf.start command).1.Saved ∧
      ((rf.start command).1.state = .candidate → rf.state = .candidate ∧ h' = h) ∧
      (rf.state = .leader →
        h'.tlog (h.term s) = h.tlog (h.term s) ++ [{ command := command, term := h.term s }]) := by
  unfold Server.start
  by_cases hst : rf.state ≠ .leader
  · rw [if_pos hst]
    exact ⟨h, .refl, ha, hsaved, fun hs => ⟨hs, rfl⟩, fun hl => absurd hl hst⟩
  rw [if_neg hst]
  push Not at hst
  have hel := ha.leader hst
  set e : LogEntry α := { command := command, term := rf.currentTerm } with he
  have hlog : (h.setAppend s e).log s = h.log s ++ [e] := setLog_hlog_of_le _ le_rfl
  refine ⟨h.setAppend s e, .single (.append e hel ha.term), ?_, saved_save _ _, fun hs => ?_,
    fun _ => ?_⟩
  · have hnew : ({ rf with log := rf.log ++ [e] } : Server n α β).At (h.setAppend s e) s :=
      { me := ha.me
        nonneg := ha.nonneg
        term := ha.term
        vote := ha.vote
        log := by
          rw [hlog]
          exact ha.log.append e
        leader := ha.leader }
    exact hnew.save _
  · change rf.state = .candidate at hs
    rw [hst] at hs
    cases hs
  · rw [← hi.log_of_leader hel, he, ha.term]
    simp [History.setAppend]

/-- **`Snapshot`** leaves terms, votes and full logs alone. -/
theorem At.takeSnapshot (ha : rf.At h s) (hsaved : rf.Saved) {index : ℤ} {data : Option β}
    (hx : rf.takeSnapshot index data = some rf') :
    rf'.At h s ∧ rf'.Saved ∧ rf'.state = rf.state := by
  by_cases hnew : rf.lastIncludedIndex < index
  · obtain ⟨rf₁, h1, h2, h3⟩ := ha.log.takeSnapshot_eq hnew data
    rw [h1] at hx
    cases hx
    have hst : rf₁.state = rf.state := by rw [h3]
    have hnew : rf₁.At h s :=
      { me := by rw [h3]; exact ha.me
        nonneg := by rw [h3]; exact ha.nonneg
        term := by rw [h3]; exact ha.term
        vote := by rw [h3]; exact ha.vote
        log := h2
        leader := fun hl => ha.leader (hst ▸ hl) }
    exact ⟨hnew.save _, saved_save _ _, hst⟩
  · unfold Server.takeSnapshot at hx
    rw [if_pos (not_lt.mp hnew)] at hx
    cases hx
    exact ⟨ha, hsaved, rfl⟩

/-- **`Make`** restores what was saved. -/
theorem toPersisted_make (hsaved : rf.Saved) :
    (Server.make rf.me rf.persister).toPersisted = rf.toPersisted := by
  have hread : ((Server.initial rf.me rf.persister).readPersist).toPersisted = rf.toPersisted := by
    unfold readPersist
    rcases hsaved with hs | ⟨hs, heq⟩
    · simp only [Server.initial, hs]
      rfl
    · simp only [Server.initial, hs] at heq ⊢
      exact heq.symm
  unfold Server.make
  dsimp only
  split
  · exact hread
  · exact hread

theorem persister_make (me : Fin n) (per : Persister n α β) :
    (Server.make me per).persister = per ∧ (Server.make me per).me = me ∧
      (Server.make me per).state = .follower := by
  have hread : ((Server.initial me per).readPersist).persister = per ∧
      ((Server.initial me per).readPersist).me = me ∧
      ((Server.initial me per).readPersist).state = .follower := by
    unfold readPersist
    split <;> exact ⟨rfl, rfl, rfl⟩
  unfold Server.make
  dsimp only
  split
  · exact hread
  · exact hread

/-- **A restart** leaves terms, votes and full logs alone. -/
theorem At.make (ha : rf.At h s) (hsaved : rf.Saved) :
    (Server.make s rf.persister).At h s ∧ (Server.make s rf.persister).Saved := by
  have hme := ha.me
  subst hme
  obtain ⟨h1, h2, h3⟩ := persister_make rf.me rf.persister
  have hp := toPersisted_make hsaved
  exact ⟨ha.congr h2 hp fun hl => absurd (h3 ▸ hl) (by simp), hsaved.congr h2 hp h1⟩

end Server

end ExchangeLabs.Raft
