import ExchangeLabs.Chord.Failures
import ExchangeLabs.Lib.Run

/-!
# Deleted keys

`put` and `storefile` go on to the successors of the owner, and `delete` does not.  The
`lookup` command takes the miss at the owner for a reason to ask the next nodes, and these
still have the value that was put last.

## Main definitions

* `KeyOp`, `KeyOp.step` — the completed operations on a key at its owner.
* `Answers net` — every lookup returns the owner.
* `LeftAt successors value net` — which nodes other than the owner have a value.

## Main results

* `leftAt_of_run` — the other nodes keep the value that was put last.
* `deleted_iff` — **a deleted key stays deleted** just where nothing was put, or it was
  put nowhere but to the owner.
* `lookup_deleted` — a file that is found after it was deleted.
-/

namespace ExchangeLabs.Chord

variable {net net₀ net₁ net' : Network} {a b m : Address} {n k : Node} {key value : String}
  {aead : Aead}

/-! ### Operations -/

/-- An operation on a key. -/
inductive KeyOp
  /-- The node at `address` stores a file. -/
  | storefile (address : Address) (nonce : Vector UInt8 nonceSize) (data : List UInt8)
  | put (value : String)
  | delete
  deriving DecidableEq

/-- One operation, with the replication that it starts.  The shell takes no empty value. -/
def KeyOp.step (aead : Aead) (key : String) (owner : Address) (net : Network) :
    KeyOp → Option Network
  | .storefile address nonce data =>
    (net.lookup address).bind fun n =>
      (aead.storeFile net address n key nonce data).bind fun (succ, net) =>
        replicateToSuccessors net succ key (aead.encrypt nonce data)
  | .put value =>
    if value = "" then none
    else (putKeyValue net key value owner).bind fun net =>
      replicateToSuccessors net owner key value
  | .delete => deleteKey net key owner

/-- Every lookup returns the owner of the identifier. -/
def Answers (net : Network) : Prop :=
  ∀ a n id, net.lookup a = some n → id < hashMod →
    ∃ m, findSuccessor net a n id = .ok m ∧ Owner net id m

/-- The command has printed a value. -/
def LookupOutput.IsValue : LookupOutput → Prop
  | .failed _ => False
  | .notFound => False
  | .raw _ => True
  | .content _ => True

theorem isValue_lookupFile (h : lookupValue net a n key = .ok value) (hne : value ≠ "") :
    (aead.lookupFile net a n key).IsValue := by
  unfold Aead.lookupFile
  rw [h]
  dsimp only
  rw [if_neg hne]
  cases aead.decrypt value <;> trivial

/-- **Where no node has a value**, none is printed. -/
theorem not_isValue_lookupFile (hmiss : ∀ m, getValue net key m = "") :
    ¬ (aead.lookupFile net a n key).IsValue := by
  unfold Aead.lookupFile
  rcases lookupValue_miss (a := a) (n := n) hmiss with h | ⟨e, h⟩
  · rw [h]
    exact id
  · rw [h]
    exact id

theorem SamePointers.answers (h : SamePointers net net') (hanswers : Answers net) :
    Answers net' := by
  intro a n' id hn' hid
  obtain ⟨n, hn, hpointers⟩ := h.symm.lookup hn'
  obtain ⟨m, hm, howner⟩ := hanswers a n id hn hid
  exact ⟨m, (h.findSuccessor_eq hpointers.symm a id).symm.trans hm,
    (owner_congr h.members_eq).mp howner⟩

/-! ### What the operations leave -/

/-- The first `r` of the successors have the value, and no other node but the owner has one. -/
structure LeftAt (net₀ : Network) (key : String) (m : Address) (k : Node) (value : String)
    (net : Network) : Prop where
  same : SamePointers net₀ net
  values : ∀ b, b ≠ m → getValue net key b =
    if b ∈ net₀ ∧ b ∈ k.successors.take k.numberOfSuccessors then value else ""

theorem LeftAt.put (h : LeftAt net₀ key m k value net) (hk : net₀.lookup m = some k)
    {value' : String} (hput : putKeyValue net key value' m = some net₁)
    (hreplicate : replicateToSuccessors net₁ m key value' = some net') :
    LeftAt net₀ key m k value' net' := by
  obtain ⟨hsame, -⟩ := putKeyValue_spec hput
  obtain ⟨k₁, hk₁, hpointers⟩ := (h.same.trans hsame).lookup hk
  obtain ⟨-, hsame', hvalues⟩ := replicateToSuccessors_spec hk₁ hreplicate
  have hsucc : k₁.successors = k.successors := congrArg (·.successors) hpointers
  have hnumber : k₁.numberOfSuccessors = k.numberOfSuccessors :=
    congrArg (·.numberOfSuccessors) hpointers
  refine ⟨(h.same.trans hsame).trans hsame', fun b hb => ?_⟩
  have hold : getValue net₁ key b = getValue net key b := by
    unfold putKeyValue at hput
    split at hput
    · cases hput
      exact getValue_modify_ne _ hb
    · cases hput
  rw [hvalues b, hsucc, hnumber, hold, h.values b hb]
  simp only [← (h.same.trans hsame).mem_iff]
  split
  · next hmem => rw [if_pos ⟨hmem.1, hmem.2.1⟩]
  · next hmem =>
    rw [if_neg fun hmem' => hmem ⟨hmem'.1, hmem'.2, hb⟩, if_neg fun hmem' =>
      hmem ⟨hmem'.1, hmem'.2, hb⟩]

/-- The value that an operation puts. -/
def KeyOp.puts (aead : Aead) : KeyOp → Option String
  | .storefile _ nonce data => some (aead.encrypt nonce data)
  | .put value => some value
  | .delete => none

/-- **An operation** leaves the value that it puts, and a `delete` leaves what was there. -/
theorem LeftAt.step (h : LeftAt net₀ key m k value net) (hanswers : Answers net₀)
    (hident : Identified net₀) (hm : Owner net₀ (hash key) m) (hk : net₀.lookup m = some k)
    {op : KeyOp} (hstep : op.step aead key m net = some net') :
    LeftAt net₀ key m k ((op.puts aead).getD value) net' := by
  cases op with
  | storefile address nonce data =>
    obtain ⟨n, hn, hstep⟩ := Option.bind_eq_some_iff.mp hstep
    obtain ⟨⟨succ, net₁⟩, hstore, hreplicate⟩ := Option.bind_eq_some_iff.mp hstep
    obtain ⟨hfind, hput⟩ := Aead.storeFile_spec hstore
    -- it is stored at the owner
    obtain ⟨m', hm', howner⟩ := h.same.answers hanswers address n (hash key) hn (hash_lt key)
    rw [hfind, Except.ok.injEq] at hm'
    rw [← hm', ← owner_congr h.same.members_eq] at howner
    rw [howner.unique hident.placed (hash_lt key) hm] at hput hreplicate
    exact h.put hk hput hreplicate
  | put value' =>
    dsimp only [KeyOp.step] at hstep
    split at hstep
    · cases hstep
    · obtain ⟨net₁, hput, hreplicate⟩ := Option.bind_eq_some_iff.mp hstep
      exact h.put hk hput hreplicate
  | delete =>
    dsimp only [KeyOp.step, deleteKey] at hstep
    split at hstep
    · cases hstep
      exact ⟨h.same.trans (samePointers_modify net m fun n => n.pointers_delete key), fun b hb =>
        (getValue_modify_ne _ hb).trans (h.values b hb)⟩
    · cases hstep

/-- No operation puts the empty value. -/
theorem KeyOp.ne_empty_of_step {op : KeyOp} (hstep : op.step aead key m net = some net') :
    ∀ value ∈ op.puts aead, value ≠ "" := by
  intro value hvalue
  cases op with
  | storefile address nonce data =>
    cases hvalue
    exact aead.encrypt_ne_empty nonce data
  | put value' =>
    cases hvalue
    dsimp only [KeyOp.step] at hstep
    split at hstep
    · cases hstep
    · assumption
  | delete => cases hvalue

/-- **The other nodes keep the value that was put last.** -/
theorem leftAt_of_run (hanswers : Answers net₀) (hident : Identified net₀)
    (hm : Owner net₀ (hash key) m) (hk : net₀.lookup m = some k) {ops : List KeyOp}
    (h : LeftAt net₀ key m k value net) (hrun : run (KeyOp.step aead key m) net ops = some net') :
    ∃ value', LeftAt net₀ key m k value' net' ∧
      (value' = "" ↔ value = "" ∧ ∀ op ∈ ops, op = .delete) := by
  induction ops generalizing net value with
  | nil =>
    cases hrun
    exact ⟨value, h, by simp⟩
  | cons op ops ih =>
    obtain ⟨net₁, hstep, hrun⟩ := Option.bind_eq_some_iff.mp hrun
    obtain ⟨value', h', hiff⟩ := ih (h.step hanswers hident hm hk hstep) hrun
    refine ⟨value', h', hiff.trans ?_⟩
    rw [List.forall_mem_cons, ← and_assoc]
    refine and_congr_left fun _ => ?_
    have hne := KeyOp.ne_empty_of_step hstep
    cases op with
    | storefile address nonce data => simp [KeyOp.puts, aead.encrypt_ne_empty nonce data]
    | put value' => simpa [KeyOp.puts] using hne value' rfl
    | delete => simp [KeyOp.puts]

/-! ### After a delete -/

section Deleted

variable {ops : List KeyOp} (hring : Stabilised net₀) (hanswers : Answers net₀)
  (hm : Owner net₀ (hash key) m) (hk : net₀.lookup m = some k)
include hring hanswers hm hk

/-- What the history leaves: the owner has no value, and the others have what was put last. -/
theorem leftAt_of_deleted (hnew : ∀ a, getValue net₀ key a = "")
    (hrun : run (KeyOp.step aead key m) net₀ (ops ++ [.delete]) = some net₁) :
    getValue net₁ key m = "" ∧ ∃ value, LeftAt net₀ key m k value net₁ ∧
      (value = "" ↔ ∀ op ∈ ops, op = .delete) := by
  have h₀ : LeftAt net₀ key m k "" net₀ := ⟨.refl net₀, fun b _ => by rw [hnew b, ite_self]⟩
  rw [run_append] at hrun
  obtain ⟨net, hops, hlast⟩ := Option.bind_eq_some_iff.mp hrun
  obtain ⟨value, h, hiff⟩ := leftAt_of_run hanswers hring.toIdentified hm hk h₀ hops
  obtain ⟨net', hdelete, heq⟩ := Option.bind_eq_some_iff.mp hlast
  cases heq
  refine ⟨?_, value, h.step hanswers hring.toIdentified hm hk hdelete,
    hiff.trans (and_iff_right rfl)⟩
  obtain ⟨n, hn, -⟩ := h.same.lookup hk
  dsimp only [KeyOp.step, deleteKey] at hdelete
  rw [if_pos (mem_of_lookup hn)] at hdelete
  cases hdelete
  exact (getValue_modify_self _ hn).trans (n.get_delete key)

/-- **A replica is read**: the next node has a value that the owner does not have any more. -/
theorem lookupValue_of_leftAt (h : LeftAt net₀ key m k value net₁)
    (hmiss : getValue net₁ key m = "") (hne : value ≠ "") (hr : k.numberOfSuccessors ≠ 0)
    (hcard : (members net₀).card ≠ 1) (hn : net₁.lookup a = some n) :
    lookupValue net₁ a n key = .ok value := by
  obtain ⟨s, hhead, hs⟩ := hring.successor m k hk
  obtain ⟨rest, hsucc⟩ := List.head?_eq_some_iff.mp hhead
  have hsm : s ≠ m := by
    rintro rfl
    exact hcard (by rw [hs.eq_singleton hring.placed hm.1, Finset.card_singleton])
  have hvalue : getValue net₁ key s = value := by
    obtain ⟨r, hr⟩ := Nat.exists_eq_succ_of_ne_zero hr
    rw [h.values s hsm, hsucc, hr, List.take_succ_cons]
    exact if_pos ⟨mem_members.mp hs.1, List.mem_cons_self⟩
  -- both lookups of the command are right
  have hident := h.same.identified hring.toIdentified
  have hfind (id : ℕ) (hid : id < hashMod) (b : Address) (hb : Owner net₀ id b) :
      findSuccessor net₁ a n id = .ok b := by
    obtain ⟨b', hb', howner⟩ := h.same.answers hanswers a n id hn hid
    rw [hb', ((owner_congr h.same.members_eq).mpr howner).unique hring.placed hid hb]
  have h₁ : findSuccessor net₁ a n (hash m + 1) = .ok s := by
    rw [findSuccessor_succ hident hn (hash_lt m)]
    exact hfind _ (Nat.mod_lt _ (by decide)) s
      ((Circle.follows_iff_owns hring.placed hm.1 (by decide)).mp hs)
  rw [← hvalue] at hne ⊢
  exact lookupValue_replica1 (hfind _ (hash_lt key) m hm) h₁ hmiss hne

/-- **A deleted key stays deleted** in all that may survive, just where nothing was put
before or no other node has ever had it. -/
theorem deleted_iff (hnew : ∀ a, getValue net₀ key a = "")
    (hrun : run (KeyOp.step aead key m) net₀ (ops ++ [.delete]) = some net₁) :
    (∀ net', Survives net₁ net' → Stabilised net' → ∀ a n, net'.lookup a = some n →
        ¬ (aead.lookupFile net' a n key).IsValue) ↔
      (∀ op ∈ ops, op = .delete) ∨ k.numberOfSuccessors = 0 ∨ (members net₀).card = 1 := by
  obtain ⟨hmiss, value, h, hiff⟩ := leftAt_of_deleted hring hanswers hm hk hnew hrun
  constructor
  · intro hall
    by_contra hnot
    rw [not_or, not_or, ← hiff] at hnot
    have hring₁ := h.same.stabilised hring
    obtain ⟨n, hn, -⟩ := h.same.lookup hk
    exact hall net₁ ⟨hring₁.toRouted, fun a n hn => ⟨n, hn, rfl⟩⟩ hring₁ m n hn
      (isValue_lookupFile (lookupValue_of_leftAt hring hanswers hm hk h hmiss hnot.1 hnot.2.1
        hnot.2.2 hn) hnot.1)
  · intro hcond net' hsurvives _ a n _
    have hnone (b : Address) : getValue net₁ key b = "" := by
      by_cases hb : b = m
      · rw [hb, hmiss]
      · rw [h.values b hb]
        rcases hcond with hdelete | hr | hcard
        · rw [hiff.mpr hdelete, ite_self]
        · rw [hr, List.take_zero]
          exact if_neg fun hmem => List.not_mem_nil hmem.2
        · refine if_neg fun hmem => hb ?_
          obtain ⟨c, hc⟩ := Finset.card_eq_one.mp hcard
          have hbc : b ∈ members net₀ := mem_members.mpr hmem.1
          have hmc := hm.1
          rw [hc, Finset.mem_singleton] at hbc hmc
          rw [hbc, hmc]
    refine not_isValue_lookupFile fun b => ?_
    by_cases hb : b ∈ net'
    · rw [hsurvives.getValue_eq hb, hnone]
    · exact getValue_of_notMem hb

end Deleted

/-! ### A deleted file -/

theorem answers_of_card (h : Routed net) (hcard : (members net).card ≤ maxLookupSteps + 2) :
    Answers net := by
  intro a n id hn hid
  have ha := mem_of_lookup hn
  have howner := owner_ownerOf ha id
  exact ⟨_, h.findSuccessor_eq hn hid (h.arrives_of_card hcard ha hid) howner, howner⟩

/-- A file is stored. -/
def storedFile : List KeyOp := [.storefile "10.0.0.1:3410" helloNonce helloData]

theorem answers_threeRing : Answers threeRing :=
  answers_of_card stabilised_threeRing.toRouted (by decide +kernel)

theorem getValue_threeRing (a : Address) : getValue threeRing "notes.txt" a = "" :=
  getValue_ringOf nodup_threeRing "notes.txt" a

theorem run_storedFile : ∃ k net₁, threeRing.lookup "10.0.0.3:3410" = some k ∧
    k.numberOfSuccessors = 2 ∧
    run (KeyOp.step helloAead "notes.txt" "10.0.0.3:3410") threeRing
      (storedFile ++ [.delete]) = some net₁ ∧
    LeftAt threeRing "notes.txt" "10.0.0.3:3410" k (helloAead.encrypt helloNonce helloData)
      net₁ := by
  obtain ⟨n, hn⟩ : ∃ n, threeRing.lookup "10.0.0.1:3410" = some n :=
    exists_lookup (by decide +kernel)
  obtain ⟨k, hk, hlist⟩ := Option.map_eq_some_iff.mp successors_threeRing
  have hnumber := (lookup_ringOf nodup_threeRing hk).1
  obtain ⟨net₁, net₂, hstore, hreplicate⟩ := stabilised_threeRing.exists_stored helloAead helloNonce
    helloData hn (stabilised_threeRing.arrives_of_card (by decide +kernel) (mem_of_lookup hn)
      (hash_lt _)) owner_threeRing hk (by rw [hlist, hnumber]; decide)
  have hident := stabilised_threeRing.toIdentified
  have h₀ : LeftAt threeRing "notes.txt" "10.0.0.3:3410" k "" threeRing :=
    ⟨.refl _, fun b _ => by rw [getValue_threeRing, ite_self]⟩
  have hstep : KeyOp.step helloAead "notes.txt" "10.0.0.3:3410" threeRing
      (.storefile "10.0.0.1:3410" helloNonce helloData) = some net₂ := by
    dsimp only [KeyOp.step]
    rw [hn, Option.bind_some, hstore, Option.bind_some]
    exact hreplicate
  have h₂ := h₀.step answers_threeRing hident owner_threeRing hk hstep
  have hdelete : KeyOp.step helloAead "notes.txt" "10.0.0.3:3410" net₂ .delete = some _ :=
    if_pos (h₂.same.mem_iff.mp (mem_of_lookup hk))
  refine ⟨k, _, hk, hnumber, ?_, h₂.step answers_threeRing hident owner_threeRing hk hdelete⟩
  rw [storedFile, List.singleton_append, run, hstep, Option.bind_some, run, hdelete]
  rfl

theorem deleted_iff_threeRing : ∃ k net₁, threeRing.lookup "10.0.0.3:3410" = some k ∧
    ((∀ net', Survives net₁ net' → Stabilised net' → ∀ a n, net'.lookup a = some n →
        ¬ (helloAead.lookupFile net' a n "notes.txt").IsValue) ↔
      (∀ op ∈ storedFile, op = .delete) ∨ k.numberOfSuccessors = 0 ∨
        (members threeRing).card = 1) := by
  obtain ⟨k, net₁, hk, -, hrun, -⟩ := run_storedFile
  exact ⟨k, net₁, hk, deleted_iff stabilised_threeRing answers_threeRing owner_threeRing hk
    getValue_threeRing hrun⟩

/-- **A deleted file is found**: nothing crashes, and the node after the owner still has it. -/
theorem lookup_deleted : Stabilised threeRing ∧ Answers threeRing ∧
    Owner threeRing (hash "notes.txt") "10.0.0.3:3410" ∧
    (∀ a, getValue threeRing "notes.txt" a = "") ∧ ∃ net₁ n,
      run (KeyOp.step helloAead "notes.txt" "10.0.0.3:3410") threeRing
        (storedFile ++ [.delete]) = some net₁ ∧
      Survives net₁ net₁ ∧ Stabilised net₁ ∧ net₁.lookup "10.0.0.1:3410" = some n ∧
      helloAead.lookupFile net₁ "10.0.0.1:3410" n "notes.txt" = .content helloData := by
  obtain ⟨k, net₁, hk, hnumber, hrun, h⟩ := run_storedFile
  have hring := h.same.stabilised stabilised_threeRing
  obtain ⟨hmiss, -⟩ := leftAt_of_deleted stabilised_threeRing answers_threeRing owner_threeRing hk
    getValue_threeRing hrun
  obtain ⟨n, hn⟩ : ∃ n, net₁.lookup "10.0.0.1:3410" = some n :=
    exists_lookup (h.same.mem_iff.mp (by decide +kernel))
  have hread := lookupValue_of_leftAt stabilised_threeRing answers_threeRing owner_threeRing hk h
    hmiss (helloAead.encrypt_ne_empty _ _) (by rw [hnumber]; decide) (by decide +kernel) hn
  exact ⟨stabilised_threeRing, answers_threeRing, owner_threeRing, getValue_threeRing, net₁,
    n, hrun,
    ⟨hring.toRouted, fun a n hn => ⟨n, hn, rfl⟩⟩, hring, hn, Aead.lookupFile_eq hread⟩

end ExchangeLabs.Chord
