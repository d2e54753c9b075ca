import ExchangeLabs.Raft.Simulation

/-!
# What an event does to one node

Every event of a cluster is the turn of at most one node: one critical section of its
server, or one step of its applier.  Beside the nodes it changes the calls in flight and
what has been delivered.

## Main definitions

* `Cluster.Acted c s e rf` — a critical section makes `rf` of the server `s`.
* `Cluster.Turn c s e node` — the event makes `node` of the node `s`.
* `Cluster.Called c e call` — the event makes the call, or answers it.
* `Cluster.Sends c e d` — the event is the delivery `d`.
* `Cluster.News c e c'` — what is new in `c'` comes from the event.

## Main results

* `Cluster.turn_of_step`, `Cluster.acted_of_step` — what a step does to each node.
* `Cluster.news_of_step` — where the calls in flight and the deliveries come from.
-/

namespace ExchangeLabs.Raft

variable {n : ℕ} {α β : Type} {c c' : Cluster n α β}

namespace Cluster

/-- The event makes `rf` of the server `s`, by one of its critical sections. -/
inductive Acted (c : Cluster n α β) (s : Fin n) : Event n α β → Server n α β → Prop
  | startElection (hst : (c.nodes s).server.state ≠ .leader) :
    Acted c s (.electionTimeout s) (c.nodes s).server.startElection.1
  | requestVote (id : ℕ) (caller : Fin n) (epoch : ℕ) (args : RequestVoteArgs n)
    (hid : c.calls id = some ⟨caller, epoch, s, .requestVote args none⟩) :
    Acted c s (.handle id) ((c.nodes s).server.requestVote args).1
  | appendEntries (id : ℕ) (caller : Fin n) (epoch : ℕ) (args : AppendingEntriesArgs n α)
    (hid : c.calls id = some ⟨caller, epoch, s, .appendEntries args none⟩) (rf' : Server n α β)
    (reply : AppendingEntriesReply)
    (hx : (c.nodes s).server.appendEntries args = some (rf', reply)) : Acted c s (.handle id) rf'
  | installSnapshot (id : ℕ) (caller : Fin n) (epoch : ℕ) (args : InstallSnapshotArgs n β)
    (hid : c.calls id = some ⟨caller, epoch, s, .installSnapshot args none⟩) (rf' : Server n α β)
    (reply : InstallSnapshotReply)
    (hx : (c.nodes s).server.installSnapshot args = some (rf', reply)) : Acted c s (.handle id) rf'
  | receiveVote (id : ℕ) (callee : Fin n) (args : RequestVoteArgs n) (reply : RequestVoteReply)
    (hid : c.calls id = some ⟨s, (c.nodes s).epoch, callee, .requestVote args (some reply)⟩) :
    Acted c s (.receive id) ((c.nodes s).server.receiveVote
      ((c.nodes s).votesReceived args.term) args.term reply).1
  | receiveAppendEntries (id : ℕ) (callee : Fin n) (args : AppendingEntriesArgs n α)
    (reply : AppendingEntriesReply)
    (hid : c.calls id = some ⟨s, (c.nodes s).epoch, callee, .appendEntries args (some reply)⟩)
    (rf' : Server n α β)
    (hx : (c.nodes s).server.receiveAppendEntries callee args reply = some rf') :
    Acted c s (.receive id) rf'
  | receiveInstallSnapshot (id : ℕ) (callee : Fin n) (args : InstallSnapshotArgs n β)
    (reply : InstallSnapshotReply)
    (hid : c.calls id = some ⟨s, (c.nodes s).epoch, callee, .installSnapshot args (some reply)⟩)
    (rf' : Server n α β)
    (hx : (c.nodes s).server.receiveInstallSnapshot callee args reply = some rf') :
    Acted c s (.receive id) rf'
  | start (command : Option α) :
    Acted c s (.start s command) ((c.nodes s).server.start command).1
  | takeSnapshot (index : ℤ) (data : Option β) (rf' : Server n α β)
    (hx : (c.nodes s).server.takeSnapshot index data = some rf') :
    Acted c s (.snapshot s index data) rf'
  | recordApplied (newLastApplied : ℤ)
    (happ : (c.nodes s).applier = .sent newLastApplied ∨
      ∃ index, (c.nodes s).applier = .sendEntries index [] newLastApplied) :
    Acted c s (.applierRecord s) ((c.nodes s).server.recordApplied newLastApplied)
  | make : Acted c s (.restart s) (Server.make s (c.nodes s).server.persister)

/-- Asking for votes is a number of calls. -/
theorem askVotes_induct {P : Cluster n α β → Prop} {s : Fin n} {args : RequestVoteArgs n}
    (hadd : ∀ d i, P d → P (d.addCall s i (.requestVote args none))) (hc : P c) :
    P (c.askVotes s args) := by
  have hfold : ∀ (l : List (Fin n)) (d : Cluster n α β), P d →
      P (l.foldl (fun c i => if i = s then c else c.addCall s i (.requestVote args none)) d) := by
    intro l
    induction l with
    | nil => exact fun d hd => hd
    | cons i l ih =>
      intro d hd
      rw [List.foldl_cons]
      apply ih
      split
      · exact hd
      · exact hadd d i hd
  exact hfold _ c hc

theorem askVotes_nodes (c : Cluster n α β) (s : Fin n) (args : RequestVoteArgs n) :
    (c.askVotes s args).nodes = c.nodes :=
  askVotes_induct (P := fun d => d.nodes = c.nodes) (fun _ _ hd => hd) rfl

theorem askVotes_applied (c : Cluster n α β) (s : Fin n) (args : RequestVoteArgs n) :
    (c.askVotes s args).applied = c.applied :=
  askVotes_induct (P := fun d => d.applied = c.applied) (fun _ _ hd => hd) rfl

/-- The event makes `node` of the node `s`. -/
inductive Turn (c : Cluster n α β) (s : Fin n) (e : Event n α β) : Node n α β → Prop
  | same (installing : Fin n → ℕ) : Turn c s e { c.nodes s with installing := installing }
  | act (rf' : Server n α β) (votesReceived : ℤ → ℕ) (applier : Applier α β)
    (ha : c.Acted s e rf') (he : e ≠ .restart s)
    (happ : applier = (c.nodes s).applier ∨ applier = .waiting) :
    Turn c s e { c.nodes s with server := rf', votesReceived := votesReceived, applier := applier }
  | copy (applier : Applier α β) (hw : (c.nodes s).server.hasWork = true)
    (hx : (c.nodes s).server.copyBatch = some applier) :
    Turn c s e { c.nodes s with applier := applier }
  | sendSnapshot (msg : ApplyMsg α β) (newLastApplied : ℤ)
    (happ : (c.nodes s).applier = .sendSnapshot msg newLastApplied) :
    Turn c s e { c.nodes s with applier := .sent newLastApplied }
  | sendEntry (index : ℤ) (entry : LogEntry α) (entries : List (LogEntry α)) (lastIndex : ℤ)
    (happ : (c.nodes s).applier = .sendEntries index (entry :: entries) lastIndex) :
    Turn c s e { c.nodes s with applier := .sendEntries (index + 1) entries lastIndex }
  | restart (he : e = .restart s) :
    Turn c s e (Node.make s (c.nodes s).server.persister ((c.nodes s).epoch + 1))

/-- One node is set: the others are as they were. -/
theorem turn_setNode {s : Fin n} {node : Node n α β} {e : Event n α β} (h : c.Turn s e node)
    (r : Fin n) : c.Turn r e ((c.setNode s node).nodes r) := by
  rcases eq_or_ne r s with rfl | hrs
  · rw [setNode_self]
    exact h
  · rw [setNode_of_ne c node hrs]
    exact .same (c.nodes r).installing

/-- One server is set by a critical section. -/
theorem turn_setServer {s : Fin n} {rf' : Server n α β} {e : Event n α β} (ha : c.Acted s e rf')
    (he : e ≠ .restart s) (r : Fin n) : c.Turn r e ((c.setServer s rf').nodes r) :=
  turn_setNode (.act rf' (c.nodes s).votesReceived (c.nodes s).applier ha he (Or.inl rfl)) r

/-- **What a step does to each node**: nothing, or its turn. -/
theorem turn_of_step {e : Event n α β} (hc' : c.step e = some c') (r : Fin n) :
    c.Turn r e (c'.nodes r) := by
  have hsame : ∀ e : Event n α β, c.Turn r e (c.nodes r) := fun e => .same (c.nodes r).installing
  cases stepped_of_step hc' with
  | electionTimeout s hst =>
    rw [askVotes_nodes]
    exact turn_setNode (.act _ _ _ (.startElection hst) (by simp) (Or.inl rfl)) r
  | nothing | callAppendEntries => exact hsame _
  | needsSnapshot | noSnapshot | callInstallSnapshot => exact turn_setNode (.same _) r
  | requestVote id caller epoch callee args hid =>
    exact turn_setServer (.requestVote id caller epoch args hid) (by simp) r
  | appendEntries id caller epoch callee args hid rf' reply hx =>
    exact turn_setServer (.appendEntries id caller epoch args hid rf' reply hx) (by simp) r
  | installSnapshot id caller epoch callee args hid rf' reply hx =>
    exact turn_setServer (.installSnapshot id caller epoch args hid rf' reply hx) (by simp) r
  | receiveVote id caller callee args reply hid =>
    exact turn_setNode (.act _ _ _ (.receiveVote id callee args reply hid) (by simp) (Or.inl rfl)) r
  | receiveAppendEntries id caller callee args reply hid rf' hx =>
    exact turn_setServer (.receiveAppendEntries id callee args reply hid rf' hx) (by simp) r
  | receiveInstallSnapshot id caller callee args reply hid rf' hx =>
    exact turn_setServer (.receiveInstallSnapshot id callee args reply hid rf' hx) (by simp) r
  | start s command => exact turn_setServer (.start command) (by simp) r
  | takeSnapshot s index data _ rf' hx =>
    exact turn_setServer (.takeSnapshot index data rf' hx) (by simp) r
  | applierCopy s hw applier hx => exact turn_setNode (.copy applier hw hx) r
  | deliverSnapshot s msg newLastApplied happ =>
    exact turn_setNode (.sendSnapshot msg newLastApplied happ) r
  | deliverEntry s index entry entries lastIndex happ =>
    exact turn_setNode (.sendEntry index entry entries lastIndex happ) r
  | recordApplied s newLastApplied happ =>
    exact turn_setNode (.act _ _ _ (.recordApplied newLastApplied happ) (by simp) (Or.inr rfl)) r
  | restart s =>
    rcases eq_or_ne r s with rfl | hrs
    · rw [setNode_self]
      exact .restart rfl
    · rw [setNode_of_ne c _ hrs]
      exact hsame _

/-- **What a step does to each server**: nothing, or one of its critical sections. -/
theorem acted_of_step {e : Event n α β} (hc' : c.step e = some c') (r : Fin n) :
    (c'.nodes r).server = (c.nodes r).server ∨ c.Acted r e (c'.nodes r).server := by
  have hturn := turn_of_step hc' r
  generalize c'.nodes r = node at hturn
  cases hturn with
  | act rf' votesReceived applier ha he happ => exact Or.inr ha
  | restart he =>
    subst he
    exact Or.inr .make
  | same | copy | sendSnapshot | sendEntry => exact Or.inl rfl

/-! ### Calls and deliveries -/

/-- The event makes the call, or answers it. -/
inductive Called (c : Cluster n α β) : Event n α β → Call n α β → Prop
  | requestVote (s i : Fin n) (epoch : ℕ) (args : RequestVoteArgs n) :
    Called c (.electionTimeout s) ⟨s, epoch, i, .requestVote args none⟩
  | appendEntries (s i : Fin n) (args : AppendingEntriesArgs n α)
    (hb : (c.nodes s).server.buildAppendEntries i = some (.append args)) :
    Called c (.heartbeat s i) ⟨s, (c.nodes s).epoch, i, .appendEntries args none⟩
  | installSnapshot (s i : Fin n) (epoch : ℕ) (args : InstallSnapshotArgs n β)
    (hb : (c.nodes s).server.buildInstallSnapshot = some args) :
    Called c (.sendInstallSnapshot s i) ⟨s, epoch, i, .installSnapshot args none⟩
  | requestVoteReply (id : ℕ) (caller : Fin n) (epoch : ℕ) (callee : Fin n)
    (args : RequestVoteArgs n) (reply : RequestVoteReply) :
    Called c (.handle id) ⟨caller, epoch, callee, .requestVote args (some reply)⟩
  | appendEntriesReply (id : ℕ) (caller : Fin n) (epoch : ℕ) (callee : Fin n)
    (args : AppendingEntriesArgs n α)
    (hid : c.calls id = some ⟨caller, epoch, callee, .appendEntries args none⟩)
    (rf' : Server n α β) (reply : AppendingEntriesReply)
    (hx : (c.nodes callee).server.appendEntries args = some (rf', reply)) :
    Called c (.handle id) ⟨caller, epoch, callee, .appendEntries args (some reply)⟩
  | installSnapshotReply (id : ℕ) (caller : Fin n) (epoch : ℕ) (callee : Fin n)
    (args : InstallSnapshotArgs n β) (reply : InstallSnapshotReply) :
    Called c (.handle id) ⟨caller, epoch, callee, .installSnapshot args (some reply)⟩

theorem called_askVotes {d : Cluster n α β} {s : Fin n} {args : RequestVoteArgs n} {id : ℕ}
    {call : Call n α β} (hx : (d.askVotes s args).calls id = some call) (hd : d.calls = c.calls) :
    c.calls id = some call ∨ c.Called (.electionTimeout s) call := by
  refine askVotes_induct (c := d) (s := s) (P := fun d => ∀ id call,
    d.calls id = some call → c.calls id = some call ∨ c.Called (.electionTimeout s) call)
    (fun d i hd id call hx => ?_) (fun id call hx => Or.inl (hd ▸ hx)) id call hx
  change (d.setCall d.nextCall _).calls id = some call at hx
  rw [setCall_calls] at hx
  split at hx
  · cases hx
    exact Or.inr (.requestVote s i _ args)
  · exact hd id call hx

/-- The applier of the server of `d` is about to send its message. -/
def Sends (c : Cluster n α β) (e : Event n α β) (d : Delivery n α β) : Prop :=
  e = .applierSend d.server ∧ d.epoch = (c.nodes d.server).epoch ∧
    ((∃ k, (c.nodes d.server).applier = .sendSnapshot d.msg k) ∨
      ∃ entry entries lastIndex,
        (c.nodes d.server).applier = .sendEntries d.msg.index (entry :: entries) lastIndex)

/-- The calls and deliveries of `c'` were there in `c`, or the event makes them. -/
structure News (c : Cluster n α β) (e : Event n α β) (c' : Cluster n α β) : Prop where
  calls : ∀ id call, c'.calls id = some call → c.calls id = some call ∨ c.Called e call
  applied : ∀ d ∈ c'.applied, d ∈ c.applied ∨ c.Sends e d

/-- Most events make no call and deliver nothing. -/
theorem News.of_eq {e : Event n α β} (hcalls : c'.calls = c.calls)
    (happ : c'.applied = c.applied) : c.News e c' :=
  ⟨fun _ _ hx => Or.inl (hcalls ▸ hx), fun _ hd => Or.inl (happ ▸ hd)⟩

/-- An event makes, answers or removes one call. -/
theorem News.of_call {e : Event n α β} (id : ℕ) (call : Option (Call n α β))
    (hcalls : c'.calls = Function.update c.calls id call) (happ : c'.applied = c.applied)
    (hcall : ∀ call', call = some call' → c.Called e call') : c.News e c' := by
  refine ⟨fun id' call' hx => ?_, fun d hd => Or.inl (happ ▸ hd)⟩
  rw [hcalls, Function.update_apply] at hx
  split at hx
  · exact Or.inr (hcall call' hx)
  · exact Or.inl hx

/-- An applier sends its message. -/
theorem News.of_sent {e : Event n α β} (d : Delivery n α β) (hcalls : c'.calls = c.calls)
    (happ : c'.applied = d :: c.applied) (hsent : c.Sends e d) : c.News e c' := by
  refine ⟨fun id call hx => Or.inl (hcalls ▸ hx), fun d' hd' => ?_⟩
  rw [happ] at hd'
  rcases List.mem_cons.mp hd' with rfl | hd'
  · exact Or.inr hsent
  · exact Or.inl hd'

/-- **Where calls and deliveries come from**: they were there, or the event makes them. -/
theorem news_of_step {e : Event n α β} (hc' : c.step e = some c') : c.News e c' := by
  cases stepped_of_step hc' with
  | electionTimeout s _ =>
    refine ⟨fun id call hx => called_askVotes hx rfl, fun d hd => Or.inl ?_⟩
    rwa [askVotes_applied] at hd
  | callAppendEntries s i _ args hb =>
    refine .of_call c.nextCall _ rfl rfl fun call' hcall => ?_
    cases hcall
    exact .appendEntries s i args hb
  | callInstallSnapshot s i _ args hb =>
    refine .of_call c.nextCall _ rfl rfl fun call' hcall => ?_
    cases hcall
    exact .installSnapshot s i _ args hb
  | requestVote id caller epoch callee args _ =>
    refine .of_call id _ rfl rfl fun call' hcall => ?_
    cases hcall
    exact .requestVoteReply id caller epoch callee args _
  | appendEntries id caller epoch callee args hid rf' reply hx =>
    refine .of_call id _ rfl rfl fun call' hcall => ?_
    cases hcall
    exact .appendEntriesReply id caller epoch callee args hid rf' reply hx
  | installSnapshot id caller epoch callee args _ _ reply _ =>
    refine .of_call id _ rfl rfl fun call' hcall => ?_
    cases hcall
    exact .installSnapshotReply id caller epoch callee args reply
  | receiveVote id | receiveAppendEntries id | receiveInstallSnapshot id =>
    -- a reply that has been received is not in flight any more
    exact .of_call id none rfl rfl (by simp)
  | deliverSnapshot s msg k happ =>
    exact .of_sent _ rfl rfl ⟨rfl, by rw [setNode_self], Or.inl ⟨k, happ⟩⟩
  | deliverEntry s index entry entries lastIndex happ =>
    exact .of_sent _ rfl rfl ⟨rfl, by rw [setNode_self], Or.inr ⟨entry, entries, lastIndex, happ⟩⟩
  | nothing | needsSnapshot | noSnapshot | start | takeSnapshot | applierCopy | recordApplied
  | restart => exact .of_eq rfl rfl

end Cluster

end ExchangeLabs.Raft
