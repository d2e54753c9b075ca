import ExchangeLabs.Chord.Failures
import ExchangeLabs.Lib.Run

/-!
# Files and joins

A node that joins copies the bucket of its contact, and no key is moved afterwards.  A
file stays where it is, and nodes without it come to lie between its key and the first
node that has it.  The `lookup` command reads from the first three nodes only.

## Main definitions

* `Joins.step` — a node joins through any other, and all pointers are repaired.
* `Found net key value m` — `m` is the first node with a value, and one of three.
* `Contact` — a join that keeps it so.

## Main results

* `lookupValue_of_found` — `lookup` reads the value.
* `exists_found_iff` — **what one join does**: the value is found afterwards just where
  the contact was a good one.
* `survives_joins` — **after such joins every node looks up the file.**
* `not_survives_joins` — three nodes that join through a node without the file.
-/

namespace ExchangeLabs.Chord.Joins

variable {net net₁ after : Network} {a b c m m' x : Address} {n : Node} {key value : String}

/-! ### Joins -/

instance (net : Network) (a : Address) (i : ℕ) : Decidable (Right net a i) :=
  decidable_of_iff (∃ n ∈ net.lookup a, ∃ f ∈ n.fingerTable[i]?, Owner net (fingerTarget n.id i) f)
    Iff.rfl

instance : Decidable (Stabilised net) :=
  decidable_of_iff ((IsRing net ∧ ∀ a ∈ members net, ∀ i < keySize, Right net a (i + 1)) ∧
      ∀ e ∈ net.entries, e.2.predecessor ∈ net ∧ Next net e.2.predecessor e.1) <| by
    rw [← forall_lookup_iff (P := fun a n => n.predecessor ∈ net ∧ Next net n.predecessor a)]
    constructor
    · rintro ⟨⟨hring, hright⟩, hpred⟩
      refine ⟨⟨hring, fun a ha i hi hi' => ?_⟩, hpred⟩
      obtain ⟨i, rfl⟩ := Nat.exists_eq_add_of_le' hi
      exact hright a (mem_members.mpr ha) i hi'
    · exact fun h => ⟨⟨h.toIsRing, fun a ha i hi =>
        h.right a (mem_members.mp ha) (i + 1) (Nat.succ_pos i) hi⟩, h.predecessor⟩

/-- All pointers are repaired, and everything else is as it was. -/
structure Restabilised (net after : Network) : Prop extends Stabilised after where
  members_eq : members after = members net
  kept : ∀ a n', after.lookup a = some n' → ∃ n ∈ net.lookup a,
    n'.bucket = n.bucket ∧ n'.numberOfSuccessors = n.numberOfSuccessors

instance : Decidable (Restabilised net after) :=
  decidable_of_iff (Stabilised after ∧ members after = members net ∧
      ∀ e ∈ after.entries, ∃ n ∈ net.lookup e.1,
        e.2.bucket = n.bucket ∧ e.2.numberOfSuccessors = n.numberOfSuccessors) <| by
    rw [← forall_lookup_iff (P := fun a n' => ∃ n ∈ net.lookup a,
      n'.bucket = n.bucket ∧ n'.numberOfSuccessors = n.numberOfSuccessors)]
    exact ⟨fun ⟨h, hmembers, hkept⟩ => ⟨h, hmembers, hkept⟩,
      fun h => ⟨h.toStabilised, h.members_eq, h.kept⟩⟩

theorem Restabilised.getValue_eq (h : Restabilised net after) (key : String) (b : Address) :
    getValue after key b = getValue net key b := by
  by_cases hb : b ∈ after
  · obtain ⟨n', hn'⟩ := exists_lookup hb
    obtain ⟨n, hn, hbucket, -⟩ := h.kept b n' hn'
    rw [Chord.getValue_eq hn', Chord.getValue_eq hn, Node.get, Node.get, hbucket]
  · have hb' : b ∉ net := by
      rwa [← mem_members, ← h.members_eq, mem_members]
    rw [getValue_of_notMem hb, getValue_of_notMem hb']

/-- A node starts, and joins through `nprime`. -/
structure Join where
  localaddress : String
  address : String
  nprime : String
  r : ℕ
  /-- The network when the upkeep is through. -/
  after : Network

def Join.newAddress (j : Join) : Address := resolveAddress j.localaddress j.address

def Join.contact (j : Join) : Address := resolveAddress j.localaddress j.nprime

/-- A node with a new identifier joins through a running node, and all pointers are
repaired. -/
def step (net : Network) (j : Join) : Option Network :=
  if j.nprime ≠ "" ∧ j.contact ∈ net ∧ ∀ b ∈ members net, hash b ≠ hash j.newAddress then
    (startServer j.localaddress net j.address j.nprime j.r none).bind fun net₁ =>
      if Restabilised net₁ j.after then some j.after else none
  else none

/-- What a join does to the buckets. -/
structure Joined (net : Network) (j : Join) (after : Network) : Prop extends Stabilised after where
  after_eq : after = j.after
  contact_mem : j.contact ∈ net
  new : j.newAddress ∉ net
  members_eq : members after = insert j.newAddress (members net)
  value_new : ∀ key, getValue after key j.newAddress = getValue net key j.contact
  value_old : ∀ key, ∀ b ∈ net, getValue after key b = getValue net key b

/-- The node that joins has the bucket of its contact. -/
theorem startServer_join {localaddress address nprime : String} {r : ℕ} (hnprime : nprime ≠ "")
    (hk : net.lookup (resolveAddress localaddress nprime) = some n)
    (h : startServer localaddress net address nprime r none = some net₁) :
    ∃ w : Node, net₁ = net.insert (resolveAddress localaddress address) w ∧
      resolveAddress localaddress address ∉ net ∧ w.bucket = n.bucket := by
  unfold startServer at h
  dsimp only at h
  rw [if_neg hnprime] at h
  split at h
  · cases h
  · next hfree =>
    cases h
    refine ⟨_, rfl, hfree, ?_⟩
    unfold getAllKeyValues
    rw [hk]
    rfl

theorem step_spec {j : Join} (h : step net j = some after) : Joined net j after := by
  unfold step at h
  split at h
  · next hguard =>
    obtain ⟨hnprime, hcontact, -⟩ := hguard
    obtain ⟨net₁, hstart, hafter⟩ := Option.bind_eq_some_iff.mp h
    split at hafter
    · next hrestabilised =>
      cases hafter
      obtain ⟨k, hk⟩ := exists_lookup hcontact
      obtain ⟨w, rfl, hfree, hbucket⟩ := startServer_join hnprime hk hstart
      change j.newAddress ∉ net at hfree
      refine ⟨hrestabilised.toStabilised, rfl, hcontact, hfree, ?_, fun key => ?_,
        fun key b hb => ?_⟩
      · rw [hrestabilised.members_eq]
        ext b
        rw [mem_members, AList.mem_insert, Finset.mem_insert, mem_members]
        rfl
      · rw [hrestabilised.getValue_eq, getValue_eq hk, Node.get, ← hbucket]
        exact getValue_eq (AList.lookup_insert net)
      · have hne : b ≠ resolveAddress j.localaddress j.address := by
          rintro rfl
          exact hfree hb
        rw [hrestabilised.getValue_eq]
        unfold getValue
        rw [AList.lookup_insert_ne hne]
    · cases hafter
  · cases h

/-! ### Where a value is found -/

/-- `m` is the first node from the key on that has a value, it has the right one, and no
more than two nodes come before it. -/
structure Found (net : Network) (key value : String) (m : Address) : Prop where
  mem : m ∈ members net
  value : getValue net key m = value
  first : ∀ b ∈ Circle.before hash (members net) hashMod (hash key) m, getValue net key b = ""
  near : (Circle.before hash (members net) hashMod (hash key) m).card ≤ 2

/-- Every lookup stops before it gives up. -/
def Arriving (net : Network) : Prop := ∀ a ∈ net, ∀ id < hashMod, Arrives net id a

theorem arriving_of_card (h : Routed net) (hcard : (members net).card ≤ maxLookupSteps + 2) :
    Arriving net := fun _ ha _ hid => h.arrives_of_card hcard ha hid

/-- **What is found is read** by the `lookup` command at every node. -/
theorem lookupValue_of_found (hring : Routed net) (harriving : Arriving net)
    (hfound : Found net key value m) (hne : value ≠ "") (hn : net.lookup a = some n) :
    lookupValue net a n key = .ok value := by
  have ha := mem_of_lookup hn
  have hid := hash_lt key
  have hsucc (b : Address) : (hash b + 1) % hashMod < hashMod := Nat.mod_lt _ (by decide)
  -- the three nodes that it asks
  have howner := owner_ownerOf ha (hash key)
  have hm₀ := mem_members.mp howner.1
  have hnext₁ := next_nodeAfter hring.toIdentified hm₀
  have hm₁ := mem_members.mp hnext₁.1
  have hnext₂ := next_nodeAfter hring.toIdentified hm₁
  have h₀ := hring.findSuccessor_eq hn hid (harriving a ha _ hid) howner
  have h₁ := hring.findSuccessor_next hn hm₀ (harriving a ha _ (hsucc _)) hnext₁
  have h₂ := hring.findSuccessor_next hn hm₁ (harriving a ha _ (hsucc _)) hnext₂
  obtain ⟨hmem, hvalue, hfirst, hnear⟩ := hfound
  rw [← hvalue] at hne ⊢
  rcases Circle.cases_of_card_before_le hring.placed hid howner hnext₁ hnext₂ hmem hnear with
    rfl | ⟨rfl, hbefore₀⟩ | ⟨rfl, hbefore₀, hbefore₁⟩
  · exact lookupValue_primary h₀ hne
  · exact lookupValue_replica1 h₀ h₁ (hfirst _ hbefore₀) hne
  · have hne₁ : nodeAfter net (ownerOf net (hash key)) ≠ "" := by
      intro hempty
      exact hring.ne_empty (hempty ▸ hm₁)
    exact lookupValue_replica2 h₀ h₁ h₂ hne₁ (hfirst _ hbefore₀) (hfirst _ hbefore₁) hne

/-- No node with a value comes before it. -/
theorem Found.le_of_ne_empty (h : Found net key value m) (hb : b ∈ net)
    (hne : getValue net key b ≠ "") :
    Circle.gap hashMod (hash key) (hash m) ≤ Circle.gap hashMod (hash key) (hash b) :=
  not_lt.mp fun hlt => hne (h.first b (Circle.mem_before.mpr ⟨mem_members.mpr hb, hlt⟩))

/-! ### What one join does -/

/-- **A good contact**: a node that comes before the first node with a value gets the value
from its contact, or it gets none and at most one node has come before until then. -/
def Contact (key value : String) (net : Network) (j : Join) : Prop :=
  ∀ m, Found net key value m →
    Circle.gap hashMod (hash key) (hash j.newAddress) < Circle.gap hashMod (hash key) (hash m) →
      getValue net key j.contact = value ∨
        getValue net key j.contact = "" ∧
          (Circle.before hash (members net) hashMod (hash key) m).card ≤ 1

section Joins

variable {j : Join} (hj : Joined net j after)
include hj

theorem before_joined (key : String) (b : Address) :
    Circle.before hash (members after) hashMod (hash key) b =
      if Circle.gap hashMod (hash key) (hash j.newAddress) < Circle.gap hashMod (hash key) (hash b)
      then insert j.newAddress (Circle.before hash (members net) hashMod (hash key) b)
      else Circle.before hash (members net) hashMod (hash key) b := by
  rw [hj.members_eq]
  exact Circle.before_insert

theorem value_before {key : String}
    (hb : b ∈ Circle.before hash (members net) hashMod (hash key) m) :
    getValue after key b = getValue net key b :=
  hj.value_old key b (mem_members.mp (Circle.mem_before.mp hb).1)

variable (hfound : Found net key value m)
include hfound

theorem exists_found_of_contact (hcontact : Contact key value net j) :
    ∃ m', Found after key value m' := by
  have hm : m ∈ members after := by
    rw [hj.members_eq]
    exact Finset.mem_insert_of_mem hfound.mem
  have hvalue := (hj.value_old key m (mem_members.mp hfound.mem)).trans hfound.value
  by_cases hlt : Circle.gap hashMod (hash key) (hash j.newAddress) <
      Circle.gap hashMod (hash key) (hash m)
  · rcases hcontact m hfound hlt with hsame | ⟨hempty, hcard⟩
    · -- the new node is the first one
      have hbefore := before_joined hj key j.newAddress
      rw [if_neg (lt_irrefl _)] at hbefore
      have hsub : Circle.before hash (members net) hashMod (hash key) j.newAddress ⊆
          Circle.before hash (members net) hashMod (hash key) m := fun b hb =>
        have hb := Circle.mem_before.mp hb
        Circle.mem_before.mpr ⟨hb.1, hb.2.trans hlt⟩
      refine ⟨j.newAddress, by rw [hj.members_eq]; exact Finset.mem_insert_self _ _,
        (hj.value_new key).trans hsame, fun b hb => ?_, ?_⟩
      · rw [hbefore] at hb
        rw [value_before hj hb]
        exact hfound.first b (hsub hb)
      · rw [hbefore]
        exact Nat.le_trans (Finset.card_le_card hsub) hfound.near
    · -- one more node comes before
      have hbefore := before_joined hj key m
      rw [if_pos hlt] at hbefore
      refine ⟨m, hm, hvalue, fun b hb => ?_, ?_⟩
      · rw [hbefore] at hb
        rcases Finset.mem_insert.mp hb with rfl | hb
        · exact (hj.value_new key).trans hempty
        · rw [value_before hj hb]
          exact hfound.first b hb
      · rw [hbefore]
        exact Nat.le_trans (Finset.card_insert_le _ _) (Nat.succ_le_succ hcard)
  · have hbefore := before_joined hj key m
    rw [if_neg hlt] at hbefore
    refine ⟨m, hm, hvalue, fun b hb => ?_, ?_⟩
    · rw [hbefore] at hb
      rw [value_before hj hb]
      exact hfound.first b hb
    · rw [hbefore]
      exact hfound.near

/-- **What one join does**: the value is found afterwards just where the contact was a
good one. -/
theorem exists_found_iff (hident : Identified net) (hne : value ≠ "") :
    (∃ m', Found after key value m') ↔ Contact key value net j := by
  refine ⟨fun ⟨m', hm'⟩ m₁ hm₁ hlt => ?_, exists_found_of_contact hj hfound⟩
  have hid := hash_lt key
  -- the node that is found is the new one, or it was there and does not come earlier
  have hcases : m' = j.newAddress ∨ (m' ∈ net ∧
      Circle.gap hashMod (hash key) (hash m₁) ≤ Circle.gap hashMod (hash key) (hash m')) := by
    have hmem := hm'.mem
    rw [hj.members_eq] at hmem
    rcases Finset.mem_insert.mp hmem with heq | hmem
    · exact .inl heq
    · have hmem := mem_members.mp hmem
      refine .inr ⟨hmem, hm₁.le_of_ne_empty hmem ?_⟩
      rw [← hj.value_old key m' hmem, hm'.value]
      exact hne
  by_cases hempty : getValue net key j.contact = ""
  · right
    refine ⟨hempty, ?_⟩
    rcases hcases with rfl | ⟨hmem, hle⟩
    · rw [← hj.value_new key, hm'.value] at hempty
      exact absurd hempty hne
    have hsame : m' = m₁ := by
      refine hident.inj m' hmem m₁ (mem_members.mp hm₁.mem) ?_
      refine Circle.gap_inj hid (hash_lt m') (hash_lt m₁) (Nat.le_antisymm ?_ hle)
      refine not_lt.mp fun hlt' => hne ?_
      rw [← hm₁.value, ← hj.value_old key m₁ (mem_members.mp hm₁.mem)]
      refine hm'.first m₁ (Circle.mem_before.mpr ⟨?_, hlt'⟩)
      rw [hj.members_eq]
      exact Finset.mem_insert_of_mem hm₁.mem
    have hnear := hm'.near
    rw [hsame, before_joined hj, if_pos hlt, Finset.card_insert_of_notMem] at hnear
    · omega
    · exact fun hmem => hj.new (mem_members.mp (Circle.mem_before.mp hmem).1)
  · left
    rcases hcases with rfl | ⟨hmem, hle⟩
    · rw [← hj.value_new key, hm'.value]
    · -- the new node comes before it
      refine absurd ?_ hempty
      rw [← hj.value_new key]
      refine hm'.first _ (Circle.mem_before.mpr ⟨?_, Nat.lt_of_lt_of_le hlt hle⟩)
      rw [hj.members_eq]
      exact Finset.mem_insert_self _ _

end Joins

/-! ### Runs of joins -/

/-- The contact is a good one, and no lookup in the new ring gives up. -/
def Good (key value : String) (net : Network) (j : Join) : Prop :=
  Contact key value net j ∧ Arriving j.after

/-- A file that has just been stored is found at its owner. -/
theorem found_of_stored {net₂ : Network} (hring : Routed net)
    (hfind : findSuccessor net a n (hash key) = .ok m) (hn : net.lookup a = some n)
    (hput : putKeyValue net key value m = some net₁)
    (hreplicate : replicateToSuccessors net₁ m key value = some net₂) :
    SamePointers net net₂ ∧ Found net₂ key value m := by
  have howner : Owner net (hash key) m :=
    (findSuccessor_owner_iff hring.toIsRing hn (hash_lt key)).mpr
      (fun k _ => hring.not_stranded (hash_lt key)) m hfind
  obtain ⟨hsame, hvalue⟩ := putKeyValue_spec hput
  obtain ⟨k, hk⟩ := exists_lookup (hsame.mem_iff.mp (mem_members.mp howner.1))
  obtain ⟨-, hsame', hvalues⟩ := replicateToSuccessors_spec hk hreplicate
  have howner₂ := (owner_congr (hsame.trans hsame').members_eq).mp howner
  refine ⟨hsame.trans hsame', howner₂.1, ?_, fun b hb => ?_, ?_⟩
  · rw [hvalues m, if_neg fun h => h.2.2 rfl, hvalue]
  · rw [howner₂.before_eq_empty] at hb
    exact absurd hb (Finset.notMem_empty b)
  · rw [howner₂.before_eq_empty]
    exact Nat.zero_le 2

/-- **Files survive joins** through good contacts: a file is stored in a stabilised ring
and replicated, and nodes join.  Then every node looks up the file. -/
theorem survives_joins (aead : Aead) {nonce : Vector UInt8 nonceSize} {data : List UInt8}
    {net₀ net₂ : Network} (hring : Stabilised net₀) (harriving : Arriving net₀)
    (hn : net₀.lookup a = some n)
    (hstore : aead.storeFile net₀ a n key nonce data = some (m, net₁))
    (hreplicate : replicateToSuccessors net₁ m key (aead.encrypt nonce data) = some net₂)
    (h : ReachWhile step (Good key (aead.encrypt nonce data)) net₂ net) :
    ∀ b n, net.lookup b = some n → aead.lookupFile net b n key = .content data := by
  obtain ⟨hfind, hput⟩ := Aead.storeFile_spec hstore
  obtain ⟨hsame, hfound⟩ := found_of_stored hring.toRouted hfind hn hput hreplicate
  have h₀ : Stabilised net₂ ∧ Arriving net₂ ∧ ∃ m, Found net₂ key (aead.encrypt nonce data) m :=
    ⟨hsame.stabilised hring, fun a ha id hid =>
      (hsame.arrives_iff id a).mp (harriving a (hsame.mem_iff.mpr ha) id hid), m, hfound⟩
  obtain ⟨hstabilised, harriving, m, hfound⟩ := h.invariant
    (P := fun net => Stabilised net ∧ Arriving net ∧ ∃ m, Found net key (aead.encrypt nonce data) m)
    h₀ fun net j after ⟨_, _, m, hfound⟩ hgood hstep => by
      have hj := step_spec hstep
      exact ⟨hj.toStabilised, hj.after_eq ▸ hgood.2, exists_found_of_contact hj hfound hgood.1⟩
  intro b n hn
  exact Aead.lookupFile_eq (lookupValue_of_found hstabilised.toRouted harriving hfound
    (aead.encrypt_ne_empty nonce data) hn)

/-! ### Three nodes that join -/

/-- A new node can join, and its pointers be repaired. -/
theorem exists_step {localaddress address nprime : String} {r : ℕ} (h : Identified net)
    (hr : ∀ a n, net.lookup a = some n → 1 ≤ n.numberOfSuccessors) (hnprime : nprime ≠ "")
    (hx : resolveAddress localaddress address = x) (hc : resolveAddress localaddress nprime = c)
    (hcontact : c ∈ net) (hnew : ∀ b ∈ members net, hash b ≠ hash x) (hr' : 1 ≤ r) :
    ∃ after, step net ⟨localaddress, address, nprime, r, after⟩ = some after ∧
      Joined net ⟨localaddress, address, nprime, r, after⟩ after ∧
      ∀ a n, after.lookup a = some n → 1 ≤ n.numberOfSuccessors := by
  subst hx hc
  have hfree : resolveAddress localaddress address ∉ net := fun hmem =>
    hnew _ (mem_members.mpr hmem) rfl
  obtain ⟨w, hstart, hid, hnumber⟩ : ∃ w : Node,
      startServer localaddress net address nprime r none =
        some (net.insert (resolveAddress localaddress address) w) ∧
      w.id = hash (resolveAddress localaddress address) ∧ w.numberOfSuccessors = r := by
    unfold startServer
    dsimp only
    rw [if_neg hnprime, if_neg hfree]
    exact ⟨_, rfl, rfl, rfl⟩
  have hident := h.insert (resolveAddress_ne_empty localaddress address) hid hnew
  have hall : ∀ a n, (net.insert (resolveAddress localaddress address) w).lookup a = some n →
      1 ≤ n.numberOfSuccessors := by
    intro a n hn
    by_cases ha : a = resolveAddress localaddress address
    · rw [ha, AList.lookup_insert, Option.some.injEq] at hn
      rwa [← hn, hnumber]
    · rw [AList.lookup_insert_ne ha] at hn
      exact hr a n hn
  have hold : ∀ a n', (restabilise (net.insert (resolveAddress localaddress address) w)).lookup a =
      some n' → ∃ n ∈ (net.insert (resolveAddress localaddress address) w).lookup a,
        n'.bucket = n.bucket ∧ n'.numberOfSuccessors = n.numberOfSuccessors := by
    intro a n' hn'
    obtain ⟨n, hn, rfl⟩ := Option.map_eq_some_iff.mp ((Table.lookup_mapVal _ _ a).symm.trans hn')
    exact ⟨n, hn, rfl, rfl⟩
  have hstep : step net ⟨localaddress, address, nprime, r,
      restabilise (net.insert (resolveAddress localaddress address) w)⟩ =
        some (restabilise (net.insert (resolveAddress localaddress address) w)) := by
    unfold step
    rw [if_pos ⟨hnprime, hcontact, hnew⟩, hstart]
    exact if_pos ⟨stabilised_restabilise hident hall, members_restabilise _, hold⟩
  refine ⟨_, hstep, step_spec hstep, fun a n' hn' => ?_⟩
  obtain ⟨n, hn, -, heq⟩ := hold a n' hn'
  rw [heq]
  exact hall a n hn

/-- Three nodes that replicate to one. -/
def pairRing : Network := ringOf 1 ["10.0.0.1:3410", "10.0.0.2:3410", "10.0.0.3:3410"]

theorem stabilised_pairRing : Stabilised pairRing :=
  stabilised_ringOf nodup_threeRing (by decide) (by decide)

/-- A file is stored at its owner and at the node after it, and not at the third. -/
theorem stored_pairRing : ∃ n net₁ net₂, pairRing.lookup "10.0.0.1:3410" = some n ∧
    helloAead.storeFile pairRing "10.0.0.1:3410" n "notes.txt" helloNonce helloData =
      some ("10.0.0.3:3410", net₁) ∧
    replicateToSuccessors net₁ "10.0.0.3:3410" "notes.txt"
      (helloAead.encrypt helloNonce helloData) = some net₂ ∧
    SamePointers pairRing net₂ ∧
    getValue net₂ "notes.txt" "10.0.0.1:3410" = "" ∧
    getValue net₂ "notes.txt" "10.0.0.2:3410" = helloAead.encrypt helloNonce helloData := by
  obtain ⟨n, hn⟩ : ∃ n, pairRing.lookup "10.0.0.1:3410" = some n :=
    exists_lookup (by decide +kernel)
  obtain ⟨k, hk, hlist⟩ : ∃ k, pairRing.lookup "10.0.0.3:3410" = some k ∧
      k.successors = ["10.0.0.2:3410"] :=
    Option.map_eq_some_iff.mp (by decide +kernel)
  have hnumber := (lookup_ringOf nodup_threeRing hk).1
  have howner : Owner pairRing (hash "notes.txt") "10.0.0.3:3410" := by decide +kernel
  obtain ⟨net₁, net₂, hstore, hreplicate⟩ := stabilised_pairRing.exists_stored helloAead helloNonce
    helloData hn (stabilised_pairRing.arrives_of_card (by decide +kernel) (mem_of_lookup hn)
      (hash_lt _)) howner hk (by rw [hlist, hnumber]; decide)
  obtain ⟨-, hput⟩ := Aead.storeFile_spec hstore
  obtain ⟨hsame, -⟩ := putKeyValue_spec hput
  obtain ⟨k₁, hk₁, hpointers⟩ := hsame.lookup hk
  have hsucc : k₁.successors = ["10.0.0.2:3410"] :=
    (congrArg (·.successors) hpointers).trans hlist
  have hone : k₁.numberOfSuccessors = 1 :=
    (congrArg (·.numberOfSuccessors) hpointers).trans hnumber
  obtain ⟨-, hsame', hvalues⟩ := replicateToSuccessors_spec hk₁ hreplicate
  rw [hsucc, hone] at hvalues
  have hmem : "10.0.0.2:3410" ∈ net₁ := hsame.mem_iff.mp (by decide +kernel)
  refine ⟨n, net₁, net₂, hn, hstore, hreplicate, hsame.trans hsame', ?_, ?_⟩
  · unfold putKeyValue at hput
    split at hput
    · cases hput
      rw [hvalues, if_neg fun h => absurd h.2.1 (by decide), getValue_modify_ne _ (by decide)]
      exact getValue_ringOf nodup_threeRing _ _
    · cases hput
  · rw [hvalues, if_pos ⟨hmem, by decide, by decide⟩]

/-- With three more nodes. -/
def sixRing : Network :=
  ringOf 1 ["10.0.0.1:3410", "10.0.0.2:3410", "10.0.0.3:3410", "10.0.0.10:3410", "10.0.0.11:3410",
    "10.0.0.14:3410"]

theorem nodup_sixRing : (["10.0.0.1:3410", "10.0.0.2:3410", "10.0.0.3:3410", "10.0.0.10:3410",
    "10.0.0.11:3410", "10.0.0.14:3410"].map hash).Nodup := by
  decide +kernel

/-- The key, and the three nodes that come after it. -/
theorem order_sixRing : Owner sixRing (hash "notes.txt") "10.0.0.14:3410" ∧
    Next sixRing "10.0.0.14:3410" "10.0.0.11:3410" ∧
    Next sixRing "10.0.0.11:3410" "10.0.0.10:3410" := by
  decide +kernel

section Stored

variable {net₂ : Network} (hsame : SamePointers pairRing net₂)
include hsame

theorem members_of_pairRing :
    members net₂ = ["10.0.0.1:3410", "10.0.0.2:3410", "10.0.0.3:3410"].toFinset :=
  hsame.members_eq.symm.trans (members_ringOf nodup_threeRing)

theorem one_le_numberOfSuccessors : ∀ a n, net₂.lookup a = some n → 1 ≤ n.numberOfSuccessors := by
  intro a n hn
  obtain ⟨n₀, hn₀, hpointers⟩ := hsame.symm.lookup hn
  have hnumber : n₀.numberOfSuccessors = n.numberOfSuccessors :=
    congrArg (·.numberOfSuccessors) hpointers
  rw [← hnumber, (lookup_ringOf nodup_threeRing hn₀).1]

end Stored

/-- A node joins through one with the file. -/
theorem survives_joins_pairRing : ∃ net n, net.lookup "10.0.0.10:3410" = some n ∧
    helloAead.lookupFile net "10.0.0.10:3410" n "notes.txt" = .content helloData := by
  obtain ⟨n, net₁, net₂, hn, hstore, hreplicate, hsame, -, hvalue⟩ := stored_pairRing
  have hmembers := members_of_pairRing hsame
  have hx : resolveAddress "10.0.0.10" "10.0.0.10:3410" = "10.0.0.10:3410" := by decide
  have hc : resolveAddress "10.0.0.10" "10.0.0.2:3410" = "10.0.0.2:3410" := by decide
  obtain ⟨net, hstep, hj, -⟩ := exists_step (hsame.stabilised stabilised_pairRing).toIdentified
    (one_le_numberOfSuccessors hsame) (by decide) hx hc
    (mem_members.mp (by rw [hmembers]; decide)) (by rw [hmembers]; decide +kernel) (Nat.le_refl 1)
  have hgood : Good "notes.txt" (helloAead.encrypt helloNonce helloData) net₂
      ⟨"10.0.0.10", "10.0.0.10:3410", "10.0.0.2:3410", 1, net⟩ := by
    refine ⟨fun m _ _ => .inl ?_, arriving_of_card hj.toRouted ?_⟩
    · exact (congrArg (getValue net₂ "notes.txt") hc).trans hvalue
    · rw [hj.members_eq, hmembers]
      exact Nat.le_trans (Finset.card_insert_le _ _) (by decide)
  have hmem : "10.0.0.10:3410" ∈ net := by
    rw [← mem_members, hj.members_eq]
    exact hx ▸ Finset.mem_insert_self _ _
  obtain ⟨k, hk⟩ := exists_lookup hmem
  exact ⟨net, k, hk, survives_joins helloAead stabilised_pairRing
    (arriving_of_card stabilised_pairRing.toRouted (by decide +kernel)) hn hstore hreplicate
    (.tail _ .refl hgood hstep) _ k hk⟩

/-- What joins through the node at `c` leave. -/
structure JoinedAll (net : Network) (c : Address) (xs : List Address) (after : Network) : Prop
    extends Stabilised after where
  members_eq : members after = members net ∪ xs.toFinset
  value_new : ∀ key, ∀ x ∈ xs, getValue after key x = getValue net key c
  value_old : ∀ key, ∀ b ∈ net, getValue after key b = getValue net key b

theorem exists_run {localaddress : String} {xs : List Address} (hring : Stabilised net)
    (hr : ∀ a n, net.lookup a = some n → 1 ≤ n.numberOfSuccessors) (hc : c ∈ net)
    (hresolve : ∀ x ∈ c :: xs, resolveAddress localaddress x = x) (hnodup : (xs.map hash).Nodup)
    (hnew : ∀ x ∈ xs, ∀ b ∈ members net, hash b ≠ hash x) :
    ∃ js after, run step net js = some after ∧ JoinedAll net c xs after := by
  have hc' : resolveAddress localaddress c = c := hresolve c List.mem_cons_self
  have hne : c ≠ "" := hc' ▸ resolveAddress_ne_empty localaddress c
  induction xs generalizing net with
  | nil =>
    refine ⟨[], net, rfl, hring, ?_, fun _ x hx => absurd hx List.not_mem_nil, fun _ _ _ => rfl⟩
    rw [List.toFinset_nil, Finset.union_empty]
  | cons x xs ih =>
    have hx : resolveAddress localaddress x = x :=
      hresolve x (List.mem_cons_of_mem c List.mem_cons_self)
    rw [List.map_cons, List.nodup_cons] at hnodup
    obtain ⟨net₁, hstep, hj, hr₁⟩ := exists_step hring.toIdentified hr hne hx hc' hc
      (hnew x List.mem_cons_self) (Nat.le_refl 1)
    obtain ⟨hring₁, -, -, -, hmembers₁, hnew₁, hold₁⟩ := hj
    change members net₁ = insert (resolveAddress localaddress x) (members net) at hmembers₁
    change ∀ key, getValue net₁ key (resolveAddress localaddress x) =
      getValue net key (resolveAddress localaddress c) at hnew₁
    rw [hx] at hmembers₁
    rw [hx, hc'] at hnew₁
    have hmem {b : Address} (hb : b ∈ net) : b ∈ net₁ := by
      rw [← mem_members, hmembers₁]
      exact Finset.mem_insert_of_mem (mem_members.mpr hb)
    have hx₁ : x ∈ net₁ := by
      rw [← mem_members, hmembers₁]
      exact Finset.mem_insert_self x _
    obtain ⟨js, after, hrun, hafter, hmembers, hnew₂, hold₂⟩ := ih hring₁ hr₁ (hmem hc)
      (fun y hy => hresolve y (by simp only [List.mem_cons] at hy ⊢; tauto)) hnodup.2
      fun y hy b hb => by
        rw [hmembers₁, Finset.mem_insert] at hb
        rcases hb with rfl | hb
        · intro heq
          exact hnodup.1 (List.mem_map.mpr ⟨y, hy, heq.symm⟩)
        · exact hnew y (List.mem_cons_of_mem x hy) b hb
    refine ⟨⟨localaddress, x, c, 1, net₁⟩ :: js, after, ?_, hafter, ?_, fun key y hy => ?_,
      fun key b hb => ?_⟩
    · rw [run, hstep, Option.bind_some, hrun]
    · rw [hmembers, hmembers₁, List.toFinset_cons, Finset.insert_union, Finset.union_insert]
    · rcases List.mem_cons.mp hy with rfl | hy
      · rw [hold₂ key y hx₁, hnew₁]
      · rw [hnew₂ key y hy, hold₁ key c hc]
    · rw [hold₂ key b (hmem hb), hold₁ key b hb]

/-- **A file is lost**: three nodes join through one without it, and each lands right after
its key. -/
theorem not_survives_joins : Stabilised pairRing ∧ ∃ n₀ net₁ net₂ js net n,
    pairRing.lookup "10.0.0.1:3410" = some n₀ ∧
    helloAead.storeFile pairRing "10.0.0.1:3410" n₀ "notes.txt" helloNonce helloData =
      some ("10.0.0.3:3410", net₁) ∧
    replicateToSuccessors net₁ "10.0.0.3:3410" "notes.txt"
      (helloAead.encrypt helloNonce helloData) = some net₂ ∧
    run step net₂ js = some net ∧ Stabilised net ∧ net.lookup "10.0.0.1:3410" = some n ∧
    helloAead.lookupFile net "10.0.0.1:3410" n "notes.txt" = .notFound := by
  obtain ⟨n₀, net₁, net₂, hn₀, hstore, hreplicate, hsame, hvalue, -⟩ := stored_pairRing
  have hmembers₂ := members_of_pairRing hsame
  have hresolve : ∀ x ∈ ["10.0.0.1:3410", "10.0.0.10:3410", "10.0.0.11:3410", "10.0.0.14:3410"],
      resolveAddress "10.0.0.10" x = x := by decide
  obtain ⟨js, net, hrun, hring, hmembers, hnew, hold⟩ := exists_run
    (hsame.stabilised stabilised_pairRing) (one_le_numberOfSuccessors hsame)
    (mem_members.mp (by rw [hmembers₂]; decide)) hresolve (by decide +kernel)
    (by rw [hmembers₂]; decide +kernel)
  -- the first three nodes after the key are the new ones
  have hsix : members net = members sixRing := by
    rw [hmembers, hmembers₂, sixRing, members_ringOf nodup_sixRing]
    rfl
  have hcard : (members net).card ≤ maxLookupSteps + 2 := by
    rw [hsix]
    decide +kernel
  have harriving := arriving_of_card hring.toRouted hcard
  obtain ⟨n, hn⟩ : ∃ n, net.lookup "10.0.0.1:3410" = some n :=
    exists_lookup (mem_members.mp (hsix ▸ by decide +kernel))
  have ha := mem_of_lookup hn
  obtain ⟨howner, hnext₁, hnext₂⟩ := order_sixRing
  rw [← owner_congr hsix] at howner
  rw [← next_congr hsix] at hnext₁ hnext₂
  have hsucc (b : Address) : (hash b + 1) % hashMod < hashMod := Nat.mod_lt _ (by decide)
  have hread : lookupValue net "10.0.0.1:3410" n "notes.txt" = .ok "" := by
    refine lookupValue_eq_empty
      (hring.findSuccessor_eq hn (hash_lt _) (harriving _ ha _ (hash_lt _)) howner)
      (hring.findSuccessor_next hn (mem_members.mp howner.1) (harriving _ ha _ (hsucc _)) hnext₁)
      (hring.findSuccessor_next hn (mem_members.mp hnext₁.1) (harriving _ ha _ (hsucc _)) hnext₂)
      ?_ ?_ ?_
    · exact (hnew _ _ (by decide)).trans hvalue
    · exact (hnew _ _ (by decide)).trans hvalue
    · exact (hnew _ _ (by decide)).trans hvalue
  refine ⟨stabilised_pairRing, n₀, net₁, net₂, js, net, n, hn₀, hstore, hreplicate, hrun, hring, hn,
    ?_⟩
  unfold Aead.lookupFile
  rw [hread]
  exact if_pos rfl

end ExchangeLabs.Chord.Joins
