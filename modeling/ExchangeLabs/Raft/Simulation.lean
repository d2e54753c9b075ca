import ExchangeLabs.Raft.Refinement

/-!
# A cluster refines a history of replicated logs

Each event of a cluster is taken by one server, and each leaves the cluster
standing where the history stands after that server's steps.

## Main results

* `refines_init`, `Refines.of_step` — **the refinement**, one event at a time.
* `Refines.of_reach` — a run of the cluster extends the history it refines.
-/

namespace ExchangeLabs.Raft

open History

variable {n : ℕ} {α β : Type} {c c' : Cluster n α β} {h h' : Logs n α}

/-! ### Frames of the cluster updates -/

namespace Cluster

@[simp] theorem setNode_self (c : Cluster n α β) (s : Fin n) (node : Node n α β) :
    (c.setNode s node).nodes s = node := by simp [setNode]

theorem setNode_of_ne (c : Cluster n α β) {s r : Fin n} (node : Node n α β) (hr : r ≠ s) :
    (c.setNode s node).nodes r = c.nodes r := by simp [setNode, hr]

@[simp] theorem setCall_nodes (c : Cluster n α β) (id : ℕ) (call : Option (Call n α β)) :
    (c.setCall id call).nodes = c.nodes := rfl

theorem setCall_calls (c : Cluster n α β) (id id' : ℕ) (call : Option (Call n α β)) :
    (c.setCall id call).calls id' = if id' = id then call else c.calls id' :=
  Function.update_apply c.calls id call id'

end Cluster

/-! ### One server moves -/

/-- **One server moves**: its steps, its new state and the calls in flight are
enough to know that the cluster still refines the history. -/
theorem Refines.of_steps (hr : Refines c h) {s : Fin n} (hst : Steps LogEntry.term s h h')
    (hother : ∀ r ≠ s, c'.nodes r = c.nodes r) (hat : (c'.nodes s).server.At h' s)
    (hsaved : (c'.nodes s).server.Saved)
    (hcand : (c'.nodes s).server.state = .candidate →
      Candidacy h' s ((c'.nodes s).votesReceived (h'.term s))
        fun p => ∃ id, c'.ballot id = some (s, p, h'.term s))
    (hinst : (c'.nodes s).installing s = 0)
    (hfresh : ∀ id, c'.nextCall ≤ id → c'.calls id = none)
    (hcall : ∀ id call, c'.calls id = some call →
      call.caller ≠ call.callee ∧ call.rpc.Sound h' call.caller call.callee)
    (hballot : ∀ id b, c'.ballot id = some b → b.1 ≠ s → c.ballot id = some b)
    (honce : ∀ id id' b, c'.ballot id = some b → c'.ballot id' = some b → b.1 = s → id = id') :
    Refines c' h' := by
  obtain ⟨hi', hle⟩ := hr.inv.of_steps hst
  have hf := hst.frame
  refine ⟨hi', fun r => ?_, fun r => ?_, fun r hcr => ?_, fun r => ?_, hfresh,
    fun id call hx => (hcall id call hx).1, fun id call hx => (hcall id call hx).2,
    fun id id' b h1 h2 => ?_⟩
  · rcases eq_or_ne r s with rfl | hrs
    · exact hat
    · rw [hother r hrs]
      exact (hr.server r).of_frame hf hrs
  · rcases eq_or_ne r s with rfl | hrs
    · exact hsaved
    · rw [hother r hrs]
      exact hr.saved r
  · rcases eq_or_ne r s with rfl | hrs
    · exact hcand hcr
    · rw [hother r hrs] at hcr ⊢
      have hc := hr.candidate r hcr
      rw [hf.term r hrs]
      refine hc.of_le hr.inv hle (hf.term r hrs) (hf.log hrs) ?_ ?_
      · rcases hf.elected (h.term r) with h1 | ⟨-, h1⟩
        · rw [h1]
          exact hc.notElected
        · rw [h1]
          exact fun hx => hrs (Option.some.inj hx).symm
      · rintro p ⟨id, hid⟩
        exact ⟨id, hballot id _ hid hrs⟩
  · rcases eq_or_ne r s with rfl | hrs
    · exact hinst
    · rw [hother r hrs]
      exact hr.installing r
  · by_cases hb : b.1 = s
    · exact honce id id' b h1 h2 hb
    · exact hr.askedOnce id id' b (hballot id b h1 hb) (hballot id' b h2 hb)

/-- The calls in flight only lose requests for votes. -/
theorem Refines.of_steps_of_ballot (hr : Refines c h) {s : Fin n}
    (hst : Steps LogEntry.term s h h') (hother : ∀ r ≠ s, c'.nodes r = c.nodes r)
    (hat : (c'.nodes s).server.At h' s) (hsaved : (c'.nodes s).server.Saved)
    (hcand : (c'.nodes s).server.state = .candidate →
      Candidacy h' s ((c'.nodes s).votesReceived (h'.term s))
        fun p => ∃ id, c'.ballot id = some (s, p, h'.term s))
    (hinst : (c'.nodes s).installing s = 0)
    (hfresh : ∀ id, c'.nextCall ≤ id → c'.calls id = none)
    (hcall : ∀ id call, c'.calls id = some call →
      call.caller ≠ call.callee ∧ call.rpc.Sound h' call.caller call.callee)
    (hballot : ∀ id b, c'.ballot id = some b → c.ballot id = some b) : Refines c' h' :=
  hr.of_steps hst hother hat hsaved hcand hinst hfresh hcall (fun id b hb _ => hballot id b hb)
    fun id id' b h1 h2 _ => hr.askedOnce id id' b (hballot id b h1) (hballot id' b h2)

/-- What was in flight is still sound. -/
theorem Refines.sound_of_steps (hr : Refines c h) {s : Fin n} (hst : Steps LogEntry.term s h h')
    {id : ℕ} {call : Call n α β} (hcall : c.calls id = some call) :
    call.caller ≠ call.callee ∧ call.rpc.Sound h' call.caller call.callee := by
  obtain ⟨-, hle⟩ := hr.inv.of_steps hst
  exact ⟨hr.callee id call hcall, (hr.call id call hcall).of_le hr.inv hle⟩

/-- A server that was a candidate and is not moved still is one. -/
theorem Refines.candidate_of_eq (hr : Refines c h) {s : Fin n}
    (hvotes : (c'.nodes s).votesReceived = (c.nodes s).votesReceived)
    (hballot : ∀ id b, c'.ballot id = some b → c.ballot id = some b)
    (hcand : (c'.nodes s).server.state = .candidate →
      (c.nodes s).server.state = .candidate ∧ h' = h) :
    (c'.nodes s).server.state = .candidate →
      Candidacy h' s ((c'.nodes s).votesReceived (h'.term s))
        fun p => ∃ id, c'.ballot id = some (s, p, h'.term s) := by
  intro hs
  obtain ⟨hs', rfl⟩ := hcand hs
  rw [hvotes]
  have hc := hr.candidate s hs'
  refine hc.of_le hr.inv (Le.refl _ _) rfl rfl hc.notElected ?_
  rintro p ⟨id, hid⟩
  exact ⟨id, hballot id _ hid⟩

/-- A server moves and no call is made or answered. -/
theorem Refines.setNode (hr : Refines c h) {s : Fin n} {node : Node n α β}
    (hst : Steps LogEntry.term s h h') (hat : node.server.At h' s) (hsaved : node.server.Saved)
    (hvotes : node.votesReceived = (c.nodes s).votesReceived)
    (hcand : node.server.state = .candidate → (c.nodes s).server.state = .candidate ∧ h' = h)
    (hinst : node.installing s = 0) : Refines (c.setNode s node) h' := by
  refine hr.of_steps_of_ballot hst (fun r hrs => c.setNode_of_ne node hrs) (by simpa using hat)
    (by simpa using hsaved) (hr.candidate_of_eq (by simpa using hvotes) (fun _ _ hb => hb)
      (by simpa using hcand)) (by simpa using hinst) hr.fresh
    (fun id call hx => hr.sound_of_steps hst hx) fun _ _ hb => hb

/-- A server makes a call that asks for no vote. -/
theorem Refines.addCall (hr : Refines c h) {s i : Fin n} {rpc : Rpc n α β} (hne : s ≠ i)
    (hsound : rpc.Sound h s i) (hnb : ∀ args r, rpc ≠ .requestVote args r) :
    Refines (c.addCall s i rpc) h := by
  have hballot : ∀ id b, (c.addCall s i rpc).ballot id = some b → c.ballot id = some b := by
    intro id b hb
    unfold Cluster.ballot at hb ⊢
    change (((c.setCall c.nextCall _).calls id).bind _) = _ at hb
    rw [Cluster.setCall_calls] at hb
    split at hb
    · cases rpc with
      | requestVote args r => exact absurd rfl (hnb args r)
      | _ => simp [Call.ballot] at hb
    · exact hb
  refine hr.of_steps_of_ballot (s := s) .refl (fun _ _ => rfl) (hr.server s) (hr.saved s)
    (hr.candidate_of_eq rfl hballot fun hs => ⟨hs, rfl⟩) (hr.installing s) (fun id hid => ?_)
    (fun id call hx => ?_) hballot
  · have hid' : c.nextCall + 1 ≤ id := hid
    change (c.setCall c.nextCall _).calls id = none
    rw [Cluster.setCall_calls, if_neg (by omega)]
    exact hr.fresh id (by omega)
  · change (c.setCall c.nextCall _).calls id = some call at hx
    rw [Cluster.setCall_calls] at hx
    split at hx
    · cases hx
      exact ⟨hne, hsound⟩
    · exact ⟨hr.callee id call hx, hr.call id call hx⟩

/-- The callee of a call moves and answers it. -/
theorem Refines.answer (hr : Refines c h) {id : ℕ} {call call' : Call n α β}
    (hid : c.calls id = some call) {rf' : Server n α β} (hst : Steps LogEntry.term call.callee h h')
    (hat : rf'.At h' call.callee) (hsaved : rf'.Saved)
    (hcand : rf'.state = .candidate → (c.nodes call.callee).server.state = .candidate ∧ h' = h)
    (hcaller : call'.caller = call.caller) (hcallee : call'.callee = call.callee)
    (hb : call'.ballot = call.ballot) (hsound : call'.rpc.Sound h' call.caller call.callee) :
    Refines ((c.setServer call.callee rf').setCall id (some call')) h' := by
  have hballot : ∀ id' b,
    ((c.setServer call.callee rf').setCall id (some call')).ballot id' = some b →
      c.ballot id' = some b := by
    intro id' b hx
    unfold Cluster.ballot at hx ⊢
    rw [Cluster.setCall_calls] at hx
    split at hx
    · next heq =>
      subst heq
      rw [hid]
      change call.ballot = some b
      rw [← hb]
      exact hx
    · exact hx
  refine hr.of_steps_of_ballot hst (fun r hrs => c.setNode_of_ne _ hrs)
    (by simpa [Cluster.setServer] using hat) (by simpa [Cluster.setServer] using hsaved)
    (hr.candidate_of_eq (by simp [Cluster.setServer]) hballot
      (by simpa [Cluster.setServer] using hcand))
    (by simpa [Cluster.setServer] using hr.installing call.callee) (fun id' hid' => ?_)
    (fun id' call'' hx => ?_) hballot
  · rw [Cluster.setCall_calls]
    have hlt : id' ≠ id := by
      rintro rfl
      have := hr.fresh id' hid'
      rw [hid] at this
      cases this
    rw [if_neg hlt]
    exact hr.fresh id' hid'
  · rw [Cluster.setCall_calls] at hx
    split at hx
    · cases hx
      rw [hcaller, hcallee]
      exact ⟨hr.callee id call hid, hsound⟩
    · exact hr.sound_of_steps hst hx

/-- The caller of a call moves and the call is over. -/
theorem Refines.finish (hr : Refines c h) {id : ℕ} {s : Fin n} {node : Node n α β}
    (hst : Steps LogEntry.term s h h') (hat : node.server.At h' s) (hsaved : node.server.Saved)
    (hcand : node.server.state = .candidate →
      Candidacy h' s (node.votesReceived (h'.term s))
        fun p => ∃ id' ≠ id, c.ballot id' = some (s, p, h'.term s))
    (hinst : node.installing s = 0) : Refines ((c.setNode s node).setCall id none) h' := by
  have hne : ∀ id' b, ((c.setNode s node).setCall id none).ballot id' = some b →
      id' ≠ id ∧ c.ballot id' = some b := by
    intro id' b hx
    unfold Cluster.ballot at hx ⊢
    rw [Cluster.setCall_calls] at hx
    split at hx
    · cases hx
    · next hne => exact ⟨hne, hx⟩
  refine hr.of_steps_of_ballot hst (fun r hrs => c.setNode_of_ne _ hrs) (by simpa using hat)
    (by simpa using hsaved) (fun hs => ?_) (by simpa using hinst) (fun id' hid' => ?_)
    (fun id' call hx => ?_) fun id' b hx => (hne id' b hx).2
  · obtain ⟨hi', -⟩ := hr.inv.of_steps hst
    have hc := hcand (by simpa using hs)
    simp only [Cluster.setCall_nodes, Cluster.setNode_self]
    refine hc.of_le hi' (Le.refl _ _) rfl rfl hc.notElected ?_
    rintro p ⟨id', hid'⟩
    exact ⟨id', (hne id' _ hid').1, (hne id' _ hid').2⟩
  · rw [Cluster.setCall_calls]
    split
    · rfl
    · exact hr.fresh id' hid'
  · rw [Cluster.setCall_calls] at hx
    split at hx
    · cases hx
    · exact hr.sound_of_steps hst hx

/-- What the requests of an election add to the calls in flight: one call for
every other server. -/
theorem askVotes_foldl (s : Fin n) (args : RequestVoteArgs n) :
    ∀ (l : List (Fin n)) (c : Cluster n α β), l.Nodup →
      (∀ id, c.nextCall ≤ id → c.calls id = none) →
      ∀ c', c' = l.foldl
        (fun c i => if i = s then c else c.addCall s i (.requestVote args none)) c →
      c'.nodes = c.nodes ∧ c'.applied = c.applied ∧ (∀ id, c'.nextCall ≤ id → c'.calls id = none) ∧
      (∀ id call, c'.calls id = some call → c.calls id = some call ∨ c.nextCall ≤ id ∧
        call.caller = s ∧ call.callee ∈ l ∧ call.callee ≠ s ∧ call.rpc = .requestVote args none) ∧
      ∀ id id' call call', c'.calls id = some call → c'.calls id' = some call' → c.nextCall ≤ id →
        c.nextCall ≤ id' → call.callee = call'.callee → id = id' := by
  intro l
  induction l with
  | nil =>
    rintro c - hfresh c' rfl
    refine ⟨rfl, rfl, hfresh, fun id call hx => Or.inl hx, fun id id' call call' hx _ hid _ _ => ?_⟩
    cases (hfresh id hid).symm.trans hx
  | cons i l ih =>
    rintro c hl hfresh c' rfl
    obtain ⟨hil, hl⟩ := List.nodup_cons.mp hl
    rw [List.foldl_cons]
    by_cases his : i = s
    · rw [if_pos his]
      obtain ⟨h1, h2, h3, h4, h5⟩ := ih c hl hfresh _ rfl
      refine ⟨h1, h2, h3, fun id call hx => ?_, h5⟩
      rcases h4 id call hx with h | ⟨h, hs, hm, hrest⟩
      · exact Or.inl h
      · exact Or.inr ⟨h, hs, List.mem_cons_of_mem _ hm, hrest⟩
    rw [if_neg his]
    -- the call for `i` takes the next number
    set c₁ := c.addCall s i (.requestVote args none) with hc₁
    have hnext : c₁.nextCall = c.nextCall + 1 := rfl
    have hcalls : ∀ id, c₁.calls id = if id = c.nextCall then
        some { caller := s, epoch := (c.nodes s).epoch, callee := i, rpc := .requestVote args none }
        else c.calls id := fun id => Cluster.setCall_calls c _ _ _
    have hfresh₁ : ∀ id, c₁.nextCall ≤ id → c₁.calls id = none := by
      intro id hid
      rw [hcalls, if_neg (by omega)]
      exact hfresh id (by omega)
    obtain ⟨h1, h2, h3, h4, h5⟩ := ih c₁ hl hfresh₁ _ rfl
    -- what holds of a call is that it is new for `i`, new for a later server, or old
    have hcase : ∀ id call, (l.foldl (fun c i =>
        if i = s then c else c.addCall s i (.requestVote args none)) c₁).calls id = some call →
        c.nextCall ≤ id →
        id = c.nextCall ∧ call.callee = i ∨ c₁.nextCall ≤ id ∧ call.callee ∈ l := by
      intro id call hx hid
      rcases h4 id call hx with h | ⟨h, -, hm, -⟩
      · rw [hcalls] at h
        split at h
        · next heq =>
          cases h
          exact Or.inl ⟨heq, rfl⟩
        · rw [hfresh id hid] at h
          cases h
      · exact Or.inr ⟨h, hm⟩
    refine ⟨h1, h2, h3, fun id call hx => ?_, fun id id' call call' hx hx' hid hid' heq => ?_⟩
    · rcases h4 id call hx with h | ⟨h, hs, hm, hrest⟩
      · rw [hcalls] at h
        split at h
        · next heq =>
          cases h
          exact Or.inr ⟨heq.ge, rfl, List.mem_cons_self, his, rfl⟩
        · exact Or.inl h
      · exact Or.inr ⟨by omega, hs, List.mem_cons_of_mem _ hm, hrest⟩
    · rcases hcase id call hx hid with ⟨h, hc⟩ | ⟨h, hc⟩ <;>
        rcases hcase id' call' hx' hid' with ⟨h', hc'⟩ | ⟨h', hc'⟩
      · exact h.trans h'.symm
      · exact absurd (hc ▸ heq ▸ hc') hil
      · exact absurd (hc' ▸ heq ▸ hc) hil
      · exact h5 id id' call call' hx hx' h h' heq

/-- A server starts an election and asks every other one for its vote. -/
theorem Refines.electionTimeout (hr : Refines c h) {s : Fin n}
    (hc' : c.step (.electionTimeout s) = some c') :
    ∃ h', Steps LogEntry.term s h h' ∧ Refines c' h' := by
  obtain ⟨h', hst, hat, hsaved, hterm, hargs, hcand, hsound⟩ := (hr.server s).startElection hr.inv
  refine ⟨h', hst, ?_⟩
  set rf := ((c.nodes s).server.startElection).1 with hrf
  set args := ((c.nodes s).server.startElection).2 with hargs'
  set c₁ := c.setNode s { c.nodes s with
    server := rf
    votesReceived := Function.update (c.nodes s).votesReceived rf.currentTerm 1 } with hc₁
  have hask : c' = c₁.askVotes s args := by
    cases Cluster.stepped_of_step hc'
    rfl
  obtain ⟨h1, -, h3, h4, h5⟩ := askVotes_foldl s args (List.finRange n) c₁ (List.nodup_finRange n)
    hr.fresh c' hask
  -- a ballot of the new term is a new call, for nobody has asked in that term before
  have hold : ∀ id call, c.calls id = some call → ∀ p, call.ballot ≠ some (s, p, h'.term s) := by
    intro id call hx p hb
    have hsnd := hr.call id call hx
    obtain ⟨caller, epoch, callee, rpc⟩ := call
    cases rpc with
    | requestVote a r =>
      simp only [Call.ballot, Option.some.injEq, Prod.mk.injEq] at hb
      obtain ⟨rfl, rfl, hT⟩ := hb
      have hle : a.term ≤ h.term caller := hr.inv.vote_le _ _ _ hsnd.2.1
      omega
    | _ => simp [Call.ballot] at hb
  have hcases : ∀ id call, c'.calls id = some call → c.calls id = some call ∨ c.nextCall ≤ id ∧
      call.caller = s ∧ call.callee ≠ s ∧ call.rpc = .requestVote args none := by
    intro id call hx
    rcases h4 id call hx with h | ⟨h, ha, -, hb, hc⟩
    · exact Or.inl h
    · exact Or.inr ⟨h, ha, hb, hc⟩
  have hballot : ∀ id b, c'.ballot id = some b → c.ballot id = some b ∨
      ∃ call, c'.calls id = some call ∧ c.nextCall ≤ id ∧ b = (s, call.callee, h'.term s) := by
    intro id b hb
    obtain ⟨call, hx, hbal⟩ := Option.bind_eq_some_iff.mp hb
    rcases hcases id call hx with h | ⟨h, hcaller, -, hrpc⟩
    · exact Or.inl (by rw [Cluster.ballot, h]; exact hbal)
    · refine Or.inr ⟨call, hx, h, ?_⟩
      simp only [Call.ballot, hrpc, Option.some.injEq] at hbal
      rw [← hbal, hcaller, ← hargs]
  refine hr.of_steps hst (fun r hrs => ?_) ?_ ?_ (fun _ => ?_) ?_ h3 (fun id call hx => ?_)
    (fun id b hb hbs => ?_) (fun id id' b hb hb' hbs => ?_)
  · rw [h1]
    exact c.setNode_of_ne _ hrs
  · rw [h1]
    simpa [hc₁] using hat
  · rw [h1]
    simpa [hc₁] using hsaved
  · rw [h1]
    simp only [hc₁, Cluster.setNode_self, hat.term, Function.update_self]
    exact hcand _
  · rw [h1]
    simpa [hc₁] using hr.installing s
  · rcases hcases id call hx with h | ⟨-, hcaller, hcallee, hrpc⟩
    · exact hr.sound_of_steps hst h
    · rw [hcaller, hrpc]
      exact ⟨hcallee.symm, hsound _⟩
  · rcases hballot id b hb with h | ⟨call, -, -, rfl⟩
    · exact h
    · exact absurd rfl hbs
  · have hnew : ∀ id, c'.ballot id = some b → c.ballot id = some b → b.2.2 ≠ h'.term s := by
      intro id _ hx heq
      obtain ⟨call, hx, hbal⟩ := Option.bind_eq_some_iff.mp hx
      refine hold id call hx b.2.1 ?_
      rw [hbal, ← heq, ← hbs]
    rcases hballot id b hb with hx | ⟨call, hx, hid, rfl⟩ <;>
      rcases hballot id' _ hb' with hx' | ⟨call', hx', hid', heq⟩
    · exact hr.askedOnce id id' b hx hx'
    · exact absurd (by rw [heq]) (hnew id hb hx)
    · exact absurd rfl (hnew id' hb' hx')
    · exact h5 id id' call call' hx hx' hid hid' (by simpa using heq)

/-! ### Every event -/

/-- The callee of a call handles its request. -/
theorem Refines.handle (hr : Refines c h) {id : ℕ} (hc' : c.step (.handle id) = some c') :
    ∃ s h', Steps LogEntry.term s h h' ∧ Refines c' h' := by
  cases Cluster.stepped_of_step hc' with
  | requestVote _ caller epoch callee args hid =>
    obtain ⟨h1, h2, h3, h4, -⟩ := hr.call id _ hid
    obtain ⟨h', hst, hat, hsaved, hcand, hgrant⟩ := (hr.server callee).requestVote hr.inv
      (fun hs => (hr.candidate _ hs).voted) (hr.callee id _ hid) h1 h3 h4 h2
    refine ⟨callee, h', hst, hr.answer hid hst hat hsaved hcand rfl rfl rfl ?_⟩
    obtain ⟨-, hle⟩ := hr.inv.of_steps hst
    have hT : args.term ≤ h.term caller := hr.inv.vote_le _ _ _ h2
    refine ⟨h1, hle.vote _ _ _ h2, ?_, ?_, fun r hreply hg => ?_⟩
    · rw [hle.past caller _ (by omega)]
      exact h3
    · rw [hle.past caller _ (by omega)]
      exact h4
    · cases hreply
      exact hgrant hg
  | appendEntries _ caller epoch callee args hid rf' reply hx =>
    obtain ⟨h1, h2, -⟩ := hr.call id _ hid
    obtain ⟨rf'', r, h', heq, hst, hat, hsaved, hcand, hack⟩ :=
      (hr.server callee).appendEntries hr.inv h1 (hr.callee id _ hid) h2
    rw [hx] at heq
    cases heq
    refine ⟨callee, h', hst, hr.answer hid hst hat hsaved hcand rfl rfl rfl ?_⟩
    obtain ⟨-, hle⟩ := hr.inv.of_steps hst
    refine ⟨hle.elected _ _ h1, h2.of_isPrefix (hle.tlog _ (by simp [h1])), fun r hreply hs => ?_⟩
    cases hreply
    exact hack hs
  | installSnapshot _ caller epoch callee args hid rf' reply hx =>
    obtain ⟨h1, h2⟩ := hr.call id _ hid
    obtain ⟨rf'', r, h', heq, hst, hat, hsaved, hcand⟩ :=
      (hr.server callee).installSnapshot hr.inv (hr.saved _) h1 (hr.callee id _ hid) h2
    rw [hx] at heq
    cases heq
    refine ⟨callee, h', hst, hr.answer hid hst hat hsaved hcand rfl rfl rfl ?_⟩
    obtain ⟨-, hle⟩ := hr.inv.of_steps hst
    exact ⟨hle.elected _ _ h1, h2.of_isPrefix (hle.tlog _ (by simp [h1]))⟩

/-- A candidate whose votes did not change is asking no server that it did not ask before. -/
theorem Refines.candidacy_of_eq (hr : Refines c h) {s : Fin n} {id : ℕ} {rf' : Server n α β}
    (hcand : rf'.state = .candidate → (c.nodes s).server.state = .candidate ∧ h' = h)
    (hst : rf'.state = .candidate) :
    Candidacy h' s ((c.nodes s).votesReceived (h'.term s))
      fun p => ∃ id' ≠ id, c.ballot id' = some (s, p, h'.term s) := by
  obtain ⟨hst', rfl⟩ := hcand hst
  have hc := hr.candidate _ hst'
  exact hc.of_le hr.inv (Le.refl _ _) rfl rfl hc.notElected fun p ⟨id', _, hb⟩ => ⟨id', hb⟩

/-- The caller of a call receives its reply. -/
theorem Refines.receive (hr : Refines c h) {id : ℕ} (hc' : c.step (.receive id) = some c') :
    ∃ s h', Steps LogEntry.term s h h' ∧ Refines c' h' := by
  cases Cluster.stepped_of_step hc' with
  | receiveVote _ caller callee args reply hid =>
    obtain ⟨-, -, -, -, hgrant⟩ := hr.call id _ hid
    have hb : c.ballot id = some (caller, callee, args.term) := by
      rw [Cluster.ballot, hid]
      rfl
    have hleft : ∀ q, (∃ id' ≠ id, c.ballot id' = some (caller, q, h.term caller)) →
        (∃ id', c.ballot id' = some (caller, q, h.term caller)) ∧
          (args.term = h.term caller → q ≠ callee) := by
      rintro q ⟨id', hne', hb'⟩
      refine ⟨⟨id', hb'⟩, ?_⟩
      rintro hT rfl
      exact hne' (hr.askedOnce id' id _ hb' (hT ▸ hb))
    obtain ⟨h', hst, hat, hsaved, hcand⟩ := (hr.server caller).receiveVote hr.inv (hr.saved caller)
      (hr.candidate caller) (hr.callee id _ hid).symm (hgrant reply rfl) (fun hT => ⟨id, hT ▸ hb⟩)
      hleft
    refine ⟨caller, h', hst, hr.finish hst hat hsaved (fun hx => ?_) (hr.installing caller)⟩
    obtain ⟨rfl, hc⟩ := hcand hx
    exact hc
  | receiveAppendEntries _ caller callee args reply hid rf' hx =>
    obtain ⟨h', hst, hat, hsaved, hcand⟩ :=
      (hr.server caller).receiveAppendEntries hr.inv (hr.saved caller) hx
    exact ⟨caller, h', hst,
      hr.finish hst hat hsaved (hr.candidacy_of_eq hcand) (hr.installing caller)⟩
  | receiveInstallSnapshot _ caller callee args reply hid rf' hx =>
    obtain ⟨h', hst, hat, hsaved, hcand⟩ :=
      (hr.server caller).receiveInstallSnapshot hr.inv (hr.saved caller) hx
    exact ⟨caller, h', hst,
      hr.finish hst hat hsaved (hr.candidacy_of_eq hcand) (hr.installing caller)⟩

/-- Starting or ending the sending of a snapshot to another server. -/
theorem Refines.setInstalling (hr : Refines c h) {s i : Fin n} (hne : s ≠ i) (k : ℕ) :
    Refines (c.setNode s { c.nodes s with
      installing := Function.update (c.nodes s).installing i k }) h :=
  hr.setNode .refl (hr.server s) (hr.saved s) rfl (fun hs => ⟨hs, rfl⟩)
    ((Function.update_of_ne hne _ _).trans (hr.installing s))

/-- A goroutine of a leader prepares a request, or finds that it needs a snapshot. -/
theorem Refines.heartbeat (hr : Refines c h) {s i : Fin n}
    (hc' : c.step (.heartbeat s i) = some c') : Refines c' h := by
  cases Cluster.stepped_of_step hc' with
  | nothing => exact hr
  | needsSnapshot _ _ hne => exact hr.setInstalling (Ne.symm hne) _
  | callAppendEntries _ _ hne args hb =>
    obtain ⟨hst, hterm, -, hslice⟩ := (hr.server s).log.of_buildAppendEntries hb
    have hel := (hr.server s).leader hst
    refine hr.addCall (Ne.symm hne) ⟨?_, ?_, fun r hx => by cases hx⟩ (by simp)
    · rw [hterm, (hr.server s).term]
      exact hel
    · rw [hterm, (hr.server s).term, ← hr.inv.log_of_leader hel]
      exact hslice

/-- No goroutine of a server is about to send a snapshot to itself. -/
theorem Refines.ne_of_installing (hr : Refines c h) {s i : Fin n}
    (hpos : (c.nodes s).installing i ≠ 0) : s ≠ i := by
  rintro rfl
  exact hpos (hr.installing s)

/-- A goroutine of a leader prepares a snapshot. -/
theorem Refines.sendInstallSnapshot (hr : Refines c h) {s i : Fin n}
    (hc' : c.step (.sendInstallSnapshot s i) = some c') : Refines c' h := by
  cases Cluster.stepped_of_step hc' with
  | noSnapshot _ _ hpos => exact hr.setInstalling (hr.ne_of_installing hpos) _
  | callInstallSnapshot _ _ hpos args hb =>
    have hne := hr.ne_of_installing hpos
    have ha := hr.server s
    unfold Server.buildInstallSnapshot at hb
    split at hb
    · cases hb
    · next hst =>
      cases hb
      have hel := ha.leader (not_not.mp hst)
      refine (hr.setInstalling hne _).addCall hne ⟨?_, ?_⟩ (by simp)
      · change h.elected (c.nodes s).server.currentTerm = some s
        rw [ha.term]
        exact hel
      · change InstallSnapshotArgs.PrefixOf _ (h.tlog (c.nodes s).server.currentTerm)
        rw [ha.term, ← hr.inv.log_of_leader hel]
        exact ⟨ha.log.nonneg, ha.log.le, ha.log.term⟩

/-- What has been delivered says nothing about the history. -/
theorem Refines.deliver (hr : Refines c h) (s : Fin n) (msg : ApplyMsg α β) :
    Refines (c.deliver s msg) h :=
  ⟨hr.inv, hr.server, hr.saved, hr.candidate, hr.installing, hr.fresh, hr.callee, hr.call,
    hr.askedOnce⟩

/-- **The cluster refines the history**: each event is a number of steps of the
server that takes it. -/
theorem Refines.of_step (hr : Refines c h) {e : Event n α β} (hc' : c.step e = some c') :
    ∃ s h', Steps LogEntry.term s h h' ∧ Refines c' h' := by
  -- neither the applier nor the service changes what a server knows
  have hnode : ∀ s (applier : Applier α β),
      Refines (c.setNode s { c.nodes s with applier := applier }) h := fun s applier =>
    hr.setNode .refl (hr.server s) (hr.saved s) rfl (fun hs => ⟨hs, rfl⟩) (hr.installing s)
  cases Cluster.stepped_of_step hc' with
  | electionTimeout s => exact ⟨s, hr.electionTimeout hc'⟩
  | nothing s | needsSnapshot s | callAppendEntries s => exact ⟨s, h, .refl, hr.heartbeat hc'⟩
  | noSnapshot s | callInstallSnapshot s => exact ⟨s, h, .refl, hr.sendInstallSnapshot hc'⟩
  | requestVote | appendEntries | installSnapshot => exact hr.handle hc'
  | receiveVote | receiveAppendEntries | receiveInstallSnapshot => exact hr.receive hc'
  | start s command =>
    obtain ⟨h', hst, hat, hsaved, hcand, -⟩ := (hr.server s).start hr.inv (hr.saved s) command
    exact ⟨s, h', hst, hr.setNode hst hat hsaved rfl hcand (hr.installing s)⟩
  | takeSnapshot s index data _ rf' hx =>
    obtain ⟨hat, hsaved, hst⟩ := (hr.server s).takeSnapshot (hr.saved s) hx
    exact ⟨s, h, .refl, hr.setNode .refl hat hsaved rfl (fun hs => ⟨hst ▸ hs, rfl⟩)
      (hr.installing s)⟩
  | applierCopy s _ applier => exact ⟨s, h, .refl, hnode s applier⟩
  | deliverSnapshot s => exact ⟨s, h, .refl, (hnode s _).deliver s _⟩
  | deliverEntry s => exact ⟨s, h, .refl, (hnode s _).deliver s _⟩
  | recordApplied s newLastApplied =>
    exact ⟨s, h, .refl, hr.setNode .refl ((hr.server s).congr rfl rfl fun hl => hl)
      ((hr.saved s).congr rfl rfl rfl) rfl (fun hs => ⟨hs, rfl⟩) (hr.installing s)⟩
  | restart s =>
    obtain ⟨hat, hsaved⟩ := (hr.server s).make (hr.saved s)
    refine ⟨s, h, .refl, ?_⟩
    refine hr.of_steps_of_ballot (s := s) .refl (fun r hrs => c.setNode_of_ne _ hrs)
      (by simpa [Node.make] using hat) (by simpa [Node.make] using hsaved) (fun hs => ?_)
      (by simp [Node.make]) hr.fresh (fun id call hx => hr.sound_of_steps (s := s) .refl hx)
      fun _ _ hb => hb
    rw [Cluster.setNode_self, Node.make, (Server.persister_make _ _).2.2] at hs
    cases hs

/-! ### Runs -/

theorem refines_init : Refines (Cluster.init : Cluster n α β) History.init where
  inv := inv_init
  server := fun s =>
    { me := rfl
      nonneg := le_rfl
      term := rfl
      vote := rfl
      log := ⟨le_rfl, le_rfl, ⟨_, rfl, rfl⟩, rfl⟩
      leader := fun hl => by cases hl }
  saved := fun s => Or.inr ⟨rfl, rfl⟩
  candidate := fun s hs => by cases hs
  installing := fun s => rfl
  fresh := fun id _ => rfl
  callee := fun id call hx => by cases hx
  call := fun id call hx => by cases hx
  askedOnce := fun id id' b hb => by cases hb

/-- **A run extends the history** that the cluster refines. -/
theorem Refines.of_reach (hr : Refines c h) (hrun : Reach Cluster.step c c') :
    ∃ h', Refines c' h' ∧ Le LogEntry.term h h' := by
  refine hrun.invariant (P := fun c' => ∃ h', Refines c' h' ∧ Le LogEntry.term h h')
    ⟨h, hr, Le.refl _ _⟩ ?_
  rintro d e d' ⟨h₁, hr₁, hle₁⟩ - hstep
  obtain ⟨s, h₂, hst, hr₂⟩ := hr₁.of_step hstep
  exact ⟨h₂, hr₂, hle₁.trans hr.inv (hr₁.inv.of_steps hst).2⟩

end ExchangeLabs.Raft
