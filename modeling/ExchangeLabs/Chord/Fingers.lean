import Mathlib.Data.List.ProdSigma
import ExchangeLabs.Lib.Run
import ExchangeLabs.Chord.Progress

/-!
# Repairing the finger tables

The nodes of a ring with right first successors repair their finger tables, each
running `fixFingers` over and over, while lookups are under way.

## Main definitions

* `Repair.System`, `Repair.step` — the ring, a `fixFingers` at every node, and lookups.
* `Repair.Executed es a i` — the node at `a` has executed `fixFingers(i)` in the events.
* `Repair.Primed S s` — all first fingers are right.

## Main results

* `IsRing.setFinger` — a ring stays a ring when a finger is set to a member.
* `Repair.right_one_of_executed`, `Repair.right_of_executed` — a call of `fixFingers`
  that is carried out leaves a right finger behind it.
* `Repair.fingers_converge` — **the finger tables are repaired, and lookups are right.**
-/

namespace ExchangeLabs.Chord

variable {net : Network} {a b s : Address} {n : Node} {i : ℕ}

/-! ### Setting a finger -/

section SetFinger

variable {j : ℕ} {result : Except LookupError Address}

/-- Only the finger table changes. -/
theorem setFinger_eq (n : Node) (i : ℕ) (result : Except LookupError Address) :
    n.setFinger i result = { n with fingerTable := (n.setFinger i result).fingerTable } := by
  unfold Node.setFinger
  split
  · rfl
  · split <;> rfl

/-- An entry is what it was, or it is the one that has been set. -/
theorem setFinger_cases {f : Address} (h : (n.setFinger i result).fingerTable[j]? = some f) :
    n.fingerTable[j]? = some f ∨ j = i ∧ result = .ok f := by
  unfold Node.setFinger at h
  split at h
  · exact .inl h
  · split at h
    · exact .inl h
    · next addr _ =>
      dsimp only at h
      rw [Vector.getElem?_setIfInBounds] at h
      split at h
      · next hij =>
        split at h
        · cases h
          exact .inr ⟨hij.symm, rfl⟩
        · cases h
      · exact .inl h

theorem setFinger_self {f : Address} (hne : f ≠ "") (hi : i ≤ keySize) :
    (n.setFinger i (.ok f)).fingerTable[i]? = some f := by
  unfold Node.setFinger
  dsimp only
  rw [if_neg hne]
  exact Vector.getElem?_setIfInBounds_self_of_lt (Nat.lt_succ_of_le hi)

theorem lookup_setFinger (net : Network) (a : Address) (i : ℕ)
    (result : Except LookupError Address) (b : Address) :
    (Table.modify a (·.setFinger i result) net).lookup b =
      (net.lookup b).map fun n => if b = a then n.setFinger i result else n := by
  rw [Table.lookup_modify]
  split
  · next heq => rw [heq]
  · cases net.lookup b <;> rfl

theorem owner_setFinger {x : ℕ} {m : Address} :
    Owner (Table.modify a (·.setFinger i result) net) x m ↔ Owner net x m :=
  owner_congr (members_modify net a _)

theorem next_setFinger : Next (Table.modify a (·.setFinger i result) net) b s ↔ Next net b s :=
  next_congr (members_modify net a _)

/-- **A ring stays a ring** when a finger is set to a member. -/
theorem IsRing.setFinger (hring : IsRing net) (a : Address) (i : ℕ)
    (hresult : ∀ m, result = .ok m → m ∈ net) :
    IsRing (Table.modify a (·.setFinger i result) net) := by
  -- the lists are as before, and a new finger is what the call has returned
  have hold : ∀ b n', (Table.modify a (·.setFinger i result) net).lookup b = some n' →
      ∃ n, net.lookup b = some n ∧ n'.successors = n.successors ∧
        ∀ f ∈ n'.fingers, f ∈ n.fingers ∨ result = .ok f := by
    intro b n' hn'
    obtain ⟨n, hn, rfl⟩ := Table.exists_of_lookup_modify hn'
    refine ⟨n, hn, ?_⟩
    split
    · rw [setFinger_eq]
      refine ⟨rfl, fun f hf => ?_⟩
      obtain ⟨j, hj, hf⟩ := mem_fingers.mp hf
      rcases setFinger_cases hf with hf | ⟨-, hf⟩
      · exact .inl (mem_fingers.mpr ⟨j, hj, hf⟩)
      · exact .inr hf
    · exact ⟨rfl, fun f hf => .inl hf⟩
  refine ⟨hring.toIdentified.modify fun n => by rw [setFinger_eq],
    fun b n' hn' => ?_, fun b n' hn' f hf hne => ?_⟩
  · obtain ⟨n, hn, hsucc, -⟩ := hold b n' hn'
    obtain ⟨s, hhead, hs⟩ := hring.successor b n hn
    exact ⟨s, hsucc ▸ hhead, next_setFinger.mpr hs⟩
  · obtain ⟨n, hn, -, hfingers⟩ := hold b n' hn'
    refine Table.mem_modify.mpr ?_
    rcases hfingers f hf with hf | hf
    · exact hring.finger b n hn f hf hne
    · exact hresult f hf

/-- A finger that is right stays so, unless it is set to what does not own its target. -/
theorem Right.setFinger (hright : Right net b j)
    (hresult : b = a → j = i → ∀ n ∈ net.lookup a, ∀ m, result = .ok m →
      Owner net (fingerTarget n.id i) m) :
    Right (Table.modify a (·.setFinger i result) net) b j := by
  obtain ⟨n, hn, f, hf, howner⟩ := hright
  have hlookup := lookup_setFinger net a i result b
  rw [Option.mem_def.mp hn, Option.map_some] at hlookup
  refine ⟨_, hlookup, ?_⟩
  simp only [owner_setFinger]
  by_cases hba : b = a
  · rw [if_pos hba]
    -- the entry in the new table
    obtain ⟨g, hg⟩ : ∃ g, (n.setFinger i result).fingerTable[j]? = some g := by
      have hlt := (Vector.getElem?_eq_some_iff.mp hf).1
      exact ⟨_, Vector.getElem?_eq_getElem hlt⟩
    refine ⟨g, hg, ?_⟩
    rw [setFinger_eq]
    rcases setFinger_cases hg with heq | ⟨hji, hok⟩
    · rw [hf, Option.some.injEq] at heq
      rwa [← heq]
    · subst hba
      rw [hji]
      exact hresult rfl hji n hn g hok
  · rw [if_neg hba]
    exact ⟨f, hf, howner⟩

theorem right_setFinger_self {m : Address} (hring : IsRing net) (hn : net.lookup a = some n)
    (hi : i ≤ keySize) (hm : Owner net (fingerTarget n.id i) m) :
    Right (Table.modify a (·.setFinger i (.ok m)) net) a i := by
  have hlookup := lookup_setFinger net a i (.ok m) a
  rw [hn, Option.map_some, if_pos rfl] at hlookup
  have hne : m ≠ "" := by
    rintro rfl
    exact hring.ne_empty (mem_members.mp hm.1)
  refine ⟨_, hlookup, m, setFinger_self hne hi, ?_⟩
  rw [owner_setFinger, setFinger_eq]
  exact hm

end SetFinger

/-! ### The ring with its calls -/

namespace Repair

/-- A call of `findSuccessor` by the node at `address`. -/
structure Call where
  address : Address
  id : ℕ
  progress : Progress

def Call.start (address : Address) (id : ℕ) : Call where
  address := address
  id := id
  progress := .start

def Call.next (net : Network) (call : Call) : Call :=
  { call with progress := call.progress.next net call.address call.id }

structure System where
  net : Network
  /-- The `fixFingers` that the background task of a node is in, with its finger. -/
  repairs : Address → Option (ℕ × Call)
  /-- Other lookups. -/
  lookups : ℕ → Option Call

inductive Event
  /-- The node calls `fixFingers`. -/
  | fixFingers (address : Address) (nextFinger : ℤ)
  /-- Its lookup takes a step. -/
  | repairStep (address : Address)
  /-- Its lookup has returned, and it sets the finger. -/
  | setFinger (address : Address)
  /-- A lookup begins, as number `k`. -/
  | findSuccessor (k : ℕ) (address : Address) (id : ℕ)
  | lookupStep (k : ℕ)
  deriving DecidableEq

def init (net : Network) : System where
  net := net
  repairs := fun _ => none
  lookups := fun _ => none

/-- One step; `none` where the event cannot happen. -/
def step (s : System) : Event → Option System
  | .fixFingers address nextFinger =>
    match s.net.lookup address, s.repairs address with
    | some n, none =>
      let i := fingerIndex nextFinger
      some { s with
        repairs := Function.update s.repairs address
          (some (i, .start address (fingerTarget n.id i))) }
    | _, _ => none
  | .repairStep address =>
    match s.repairs address with
    | some (i, call) =>
      some { s with repairs := Function.update s.repairs address (some (i, call.next s.net)) }
    | none => none
  | .setFinger address =>
    match s.repairs address with
    | some (i, { address := _, id := _, progress := .returned result }) =>
      some { s with
        net := Table.modify address (·.setFinger i result) s.net
        repairs := Function.update s.repairs address none }
    | _ => none
  | .findSuccessor k address id =>
    match s.lookups k with
    | none =>
      if address ∈ s.net then
        some { s with lookups := Function.update s.lookups k (some (.start address id)) }
      else none
    | some _ => none
  | .lookupStep k =>
    match s.lookups k with
    | some call => some { s with lookups := Function.update s.lookups k (some (call.next s.net)) }
    | none => none

/-- Among the events the node has called `fixFingers` for the finger `i`, and has
finished the call. -/
def Executed (es : List Event) (a : Address) (i : ℕ) : Prop :=
  ∃ before nextFinger during after, fingerIndex nextFinger = i ∧
    es = before ++ .fixFingers a nextFinger :: during ++ .setFinger a :: after

/-- What the lookup number `k` has returned. -/
def System.answer (s : System) (k : ℕ) : Option (Except LookupError Address) :=
  match s.lookups k with
  | some { address := _, id := _, progress := .returned result } => some result
  | _ => none

/-! ### The invariant -/

/-- The nodes are a ring of the members `S`, and the calls of `fixFingers` are inside. -/
structure Inv (S : Finset Address) (s : System) : Prop where
  ring : IsRing s.net
  members : members s.net = S
  repair : ∀ a i call, s.repairs a = some (i, call) →
    a ∈ S ∧ (1 ≤ i ∧ i ≤ keySize) ∧ call.address = a ∧ call.id = fingerTarget (hash a) i ∧
      call.progress.Inside S ∧ (i = 1 → call.progress.AtOnce S call.id)

variable {S : Finset Address} {s t u : System} {a b : Address} {i j : ℕ} {call : Call} {e : Event}

theorem fingerIndex_bounds (nextFinger : ℤ) :
    1 ≤ fingerIndex nextFinger ∧ fingerIndex nextFinger ≤ keySize := by
  unfold fingerIndex keySize
  split <;> omega

theorem fingerTarget_lt (id i : ℕ) : fingerTarget id i < hashMod :=
  Nat.mod_lt _ (by decide)

/-- **All that a step can do.** -/
inductive Stepped (s : System) : Event → System → Prop
  | fixFingers {a : Address} {nextFinger : ℤ} {n : Node} (hn : s.net.lookup a = some n)
      (hfree : s.repairs a = none) : Stepped s (.fixFingers a nextFinger)
      { s with repairs := Function.update s.repairs a (some (fingerIndex nextFinger,
        .start a (fingerTarget n.id (fingerIndex nextFinger)))) }
  | repairStep {a : Address} {i : ℕ} {call : Call} (hcall : s.repairs a = some (i, call)) :
      Stepped s (.repairStep a)
      { s with repairs := Function.update s.repairs a (some (i, call.next s.net)) }
  | setFinger {a : Address} {i : ℕ} {call : Call} {result : Except LookupError Address}
      (hcall : s.repairs a = some (i, call)) (hresult : call.progress = .returned result) :
      Stepped s (.setFinger a)
      { s with
        net := Table.modify a (·.setFinger i result) s.net
        repairs := Function.update s.repairs a none }
  | findSuccessor {k : ℕ} {a : Address} {id : ℕ} (hfree : s.lookups k = none) (ha : a ∈ s.net) :
      Stepped s (.findSuccessor k a id)
      { s with lookups := Function.update s.lookups k (some (.start a id)) }
  | lookupStep {k : ℕ} {call : Call} (hcall : s.lookups k = some call) :
      Stepped s (.lookupStep k)
      { s with lookups := Function.update s.lookups k (some (call.next s.net)) }

theorem step_cases (h : step s e = some t) : Stepped s e t := by
  cases e with
  | fixFingers a nextFinger =>
    simp only [step] at h
    split at h
    · next n hn hfree =>
      cases h
      exact .fixFingers hn hfree
    · cases h
  | repairStep a =>
    simp only [step] at h
    split at h
    · next i call hcall =>
      cases h
      exact .repairStep hcall
    · cases h
  | setFinger a =>
    simp only [step] at h
    split at h
    · next i address id result hcall =>
      cases h
      exact .setFinger hcall rfl
    · cases h
  | findSuccessor k a id =>
    simp only [step] at h
    split at h
    · next hfree =>
      split at h
      · next ha =>
        cases h
        exact .findSuccessor hfree ha
      · cases h
    · cases h
  | lookupStep k =>
    simp only [step] at h
    split at h
    · next call hcall =>
      cases h
      exact .lookupStep hcall
    · cases h

theorem inv_init {net : Network} (hring : IsRing net) : Inv (Chord.members net) (init net) where
  ring := hring
  members := rfl
  repair := fun a i call hcall => by cases hcall

/-- A call returns a member. -/
theorem Inv.result_mem (h : Inv S s) (hcall : s.repairs a = some (i, call))
    {result : Except LookupError Address} (hresult : call.progress = .returned result) :
    ∀ m, result = .ok m → m ∈ s.net := by
  intro m hm
  have hinside := (h.repair a i call hcall).2.2.2.2.1
  rw [hresult] at hinside
  exact mem_members.mp (h.members ▸ hinside m hm)

/-- **The steps keep the invariant.** -/
theorem inv_step (h : Inv S s) (hstep : step s e = some t) : Inv S t := by
  -- the calls of the other nodes are as before
  have hother : ∀ (c : Option (ℕ × Call)) (a : Address), (∀ i call, c = some (i, call) →
      a ∈ S ∧ (1 ≤ i ∧ i ≤ keySize) ∧ call.address = a ∧ call.id = fingerTarget (hash a) i ∧
        call.progress.Inside S ∧ (i = 1 → call.progress.AtOnce S call.id)) →
      ∀ b i call, Function.update s.repairs a c b = some (i, call) →
      b ∈ S ∧ (1 ≤ i ∧ i ≤ keySize) ∧ call.address = b ∧ call.id = fingerTarget (hash b) i ∧
        call.progress.Inside S ∧ (i = 1 → call.progress.AtOnce S call.id) := by
    intro c a hc b i call hcall
    by_cases hba : b = a
    · subst hba
      rw [Function.update_self] at hcall
      exact hc i call hcall
    · rw [Function.update_of_ne hba] at hcall
      exact h.repair b i call hcall
  cases step_cases hstep with
  | @fixFingers a nextFinger n hn hfree =>
    refine ⟨h.ring, h.members, hother _ a fun i call hcall => ?_⟩
    cases hcall
    refine ⟨h.members ▸ mem_members.mpr (mem_of_lookup hn), fingerIndex_bounds nextFinger, rfl, ?_,
      trivial, fun _ => trivial⟩
    exact congrArg (fingerTarget · _) (h.ring.id_eq a n hn)
  | @repairStep a i call hcall =>
    refine ⟨h.ring, h.members, hother _ a fun i' call' hcall' => ?_⟩
    cases hcall'
    obtain ⟨ha, hi, haddress, hid, hinside, hatOnce⟩ := h.repair a i call hcall
    have hlt : call.id < hashMod := hid ▸ fingerTarget_lt _ _
    refine ⟨ha, hi, haddress, hid, ?_, fun hone => ?_⟩
    · exact inside_next h.ring h.members (haddress ▸ ha) hlt hinside
    · have hprogress := hatOnce hone
      change (call.progress.next s.net call.address call.id).AtOnce S call.id
      rw [haddress]
      rw [hid, hone] at hprogress ⊢
      exact atOnce_next h.ring h.members ha hprogress
  | @setFinger a i call result hcall hresult =>
    refine ⟨h.ring.setFinger a i (h.result_mem hcall hresult),
      (members_modify s.net a _).trans h.members, hother _ a fun i' call' hcall' => ?_⟩
    cases hcall'
  | findSuccessor => exact ⟨h.ring, h.members, h.repair⟩
  | lookupStep => exact ⟨h.ring, h.members, h.repair⟩

/-! ### From a call to the finger -/

/-- If the call for the finger `i` has returned, then the owner of its target. -/
def Honest (S : Finset Address) (s : System) (a : Address) (i : ℕ) : Prop :=
  ∀ call result, s.repairs a = some (i, call) → call.progress = .returned result →
    ∃ m, result = .ok m ∧ Circle.Owns hash S hashMod call.id m

/-- The call of the node, if it is in one, keeps on its way. -/
def Fresh (S : Finset Address) (s : System) (a : Address) : Prop :=
  ∀ i call, s.repairs a = some (i, call) → call.progress.Good S a call.id

/-- The finger is right, or it is being repaired. -/
def Settling (s : System) (a : Address) (i : ℕ) : Prop :=
  Right s.net a i ∨ ∃ call, s.repairs a = some (i, call)

theorem Inv.honest_one (h : Inv S s) (a : Address) : Honest S s a 1 := by
  intro call result hcall hresult
  have hatOnce := (h.repair a 1 call hcall).2.2.2.2.2 rfl
  rwa [hresult] at hatOnce

theorem Fresh.honest (h : Fresh S s a) (i : ℕ) : Honest S s a i := by
  intro call result hcall hresult
  have hgood := h i call hcall
  rwa [hresult] at hgood

/-- What an honest call returns is the owner of the target of its finger. -/
theorem Honest.owner (h : Honest S s a i) (hinv : Inv S s) (hcall : s.repairs a = some (i, call))
    {result : Except LookupError Address} (hresult : call.progress = .returned result) {n : Node}
    (hn : s.net.lookup a = some n) :
    ∃ m, result = .ok m ∧ Owner s.net (fingerTarget n.id i) m := by
  obtain ⟨m, hm, howns⟩ := h call result hcall hresult
  obtain ⟨-, -, -, hid, -⟩ := hinv.repair a i call hcall
  refine ⟨m, hm, ?_⟩
  rw [hinv.ring.id_eq a n hn, ← hid]
  unfold Owner
  rwa [hinv.members]

/-- A right finger stays right. -/
theorem right_step (hinv : Inv S s) (hhonest : Honest S s a i) (h : Right s.net a i)
    (hstep : step s e = some t) : Right t.net a i := by
  cases step_cases hstep with
  | @setFinger b j call result hcall hresult =>
    refine h.setFinger fun hab hij n hn m hm => ?_
    subst hab
    subst hij
    obtain ⟨m', hm', howner⟩ := hhonest.owner hinv hcall hresult hn
    rw [hm, Except.ok.injEq] at hm'
    exact hm' ▸ howner
  | _ => exact h

/-- The node finishes its call. -/
theorem right_of_setFinger (hinv : Inv S s) (hhonest : Honest S s a i) (h : Settling s a i)
    (hstep : step s (.setFinger a) = some t) : Right t.net a i := by
  rcases h with hright | ⟨call, hcall⟩
  · exact right_step hinv hhonest hright hstep
  · cases step_cases hstep with
    | setFinger hcall' hresult =>
      rw [hcall, Option.some.injEq, Prod.mk.injEq] at hcall'
      obtain ⟨rfl, rfl⟩ := hcall'
      obtain ⟨ha, hi, -⟩ := hinv.repair a i call hcall
      obtain ⟨n, hn⟩ := exists_lookup (mem_members.mp (hinv.members ▸ ha))
      obtain ⟨m, rfl, howner⟩ := hhonest.owner hinv hcall hresult hn
      exact right_setFinger_self hinv.ring hn hi.2 howner

theorem settling_step (hinv : Inv S s) (hhonest : Honest S s a i) (h : Settling s a i)
    (hstep : step s e = some t) : Settling t a i := by
  rcases h with hright | ⟨call, hcall⟩
  · exact .inl (right_step hinv hhonest hright hstep)
  by_cases hset : e = .setFinger a
  · subst hset
    exact .inl (right_of_setFinger hinv hhonest (.inr ⟨call, hcall⟩) hstep)
  · -- the call goes on
    right
    cases step_cases hstep with
    | @fixFingers b nextFinger n hn hfree =>
      -- only a node without a call begins one
      have hab : a ≠ b := by
        rintro rfl
        rw [hcall] at hfree
        cases hfree
      exact ⟨call, (Function.update_of_ne hab _ _).trans hcall⟩
    | @repairStep b j call' hcall' =>
      by_cases hab : a = b
      · subst hab
        rw [hcall, Option.some.injEq, Prod.mk.injEq] at hcall'
        obtain ⟨rfl, rfl⟩ := hcall'
        exact ⟨_, Function.update_self _ _ _⟩
      · exact ⟨call, (Function.update_of_ne hab _ _).trans hcall⟩
    | @setFinger b j call' result hcall' hresult =>
      have hab : a ≠ b := by
        rintro rfl
        exact hset rfl
      exact ⟨call, (Function.update_of_ne hab _ _).trans hcall⟩
    | findSuccessor => exact ⟨call, hcall⟩
    | lookupStep => exact ⟨call, hcall⟩

/-- **A call that is carried out** leaves a right finger behind it, in a run whose states
have a property `H` under which the calls for the finger are honest. -/
theorem right_of_run {H : System → Prop} (hinv : ∀ s, H s → Inv S s)
    (hhonest : ∀ s, H s → Honest S s a i) (hH : ∀ s e t, H s → step s e = some t → H t)
    {during after : List Event} (hs : H s) (h : Settling s a i)
    (hrun : run step s (during ++ .setFinger a :: after) = some t) : H t ∧ Right t.net a i := by
  rw [run_append, Option.bind_eq_some_iff] at hrun
  obtain ⟨u, hduring, hrun⟩ := hrun
  obtain ⟨v, hset, hafter⟩ := Option.bind_eq_some_iff.mp hrun
  obtain ⟨hu, hsettling⟩ := (reach_of_run _ _ _ hduring).invariant
    (P := fun s => H s ∧ Settling s a i) ⟨hs, h⟩ fun s e t ⟨hs, h⟩ _ hstep =>
      ⟨hH s e t hs hstep, settling_step (hinv s hs) (hhonest s hs) h hstep⟩
  exact (reach_of_run _ _ _ hafter).invariant (P := fun s => H s ∧ Right s.net a i)
    ⟨hH u _ v hu hset, right_of_setFinger (hinv u hu) (hhonest u hu) hsettling hset⟩
    fun s e t ⟨hs, h⟩ _ hstep =>
      ⟨hH s e t hs hstep, right_step (hinv s hs) (hhonest s hs) h hstep⟩

/-! ### The first fingers -/

/-- **A node that has executed `fixFingers(1)`** has a right first finger. -/
theorem right_one_of_executed (hinv : Inv S s) {es : List Event} (hrun : run step s es = some t)
    (h : Executed es a 1) : Right t.net a 1 := by
  obtain ⟨before, nextFinger, during, after, hindex, rfl⟩ := h
  rw [List.append_assoc, run_append, Option.bind_eq_some_iff] at hrun
  obtain ⟨u, hbefore, hrun⟩ := hrun
  obtain ⟨v, hfix, hrun⟩ := Option.bind_eq_some_iff.mp hrun
  have hu : Inv S u := (reach_of_run _ _ _ hbefore).invariant hinv fun _ _ _ h _ hstep =>
    inv_step h hstep
  have hv : Settling v a 1 := by
    cases step_cases hfix with
    | fixFingers hn hfree =>
      rw [hindex]
      exact .inr ⟨_, Function.update_self _ _ _⟩
  exact (right_of_run (fun _ h => h) (fun _ h => h.honest_one a) (fun _ _ _ h hstep =>
    inv_step h hstep) (inv_step hu hfix) hv hrun).2

/-- All first fingers are right, in a ring that is not too large. -/
structure Primed (S : Finset Address) (s : System) : Prop extends Inv S s where
  card : S.card ≤ maxLookupSteps + 2
  first : ∀ b ∈ S, Right s.net b 1

theorem primed_step (h : Primed S s) (hstep : step s e = some t) : Primed S t where
  toInv := inv_step h.toInv hstep
  card := h.card
  first := fun b hb => right_step h.toInv (h.honest_one b) (h.first b hb) hstep

/-! ### The other fingers -/

/-- A call that keeps on its way still does after a step. -/
theorem fresh_step (hs : Primed S s) (h : Fresh S s a) (hstep : step s e = some t) :
    Fresh S t a := by
  cases step_cases hstep with
  | @fixFingers b nextFinger n hn hfree =>
    intro i call hcall
    dsimp only at hcall
    by_cases hab : a = b
    · subst hab
      rw [Function.update_self] at hcall
      cases hcall
      trivial
    · rw [Function.update_of_ne hab] at hcall
      exact h i call hcall
  | @repairStep b j call' hcall' =>
    intro i call hcall
    dsimp only at hcall
    by_cases hab : a = b
    · subst hab
      rw [Function.update_self] at hcall
      cases hcall
      obtain ⟨ha, -, haddress, hid, -⟩ := hs.repair a j call' hcall'
      have hlt : call'.id < hashMod := hid ▸ fingerTarget_lt _ _
      -- the step of the call itself
      have hgood := (good_next hs.ring hs.members hs.card hs.first ha hlt (h j call' hcall')).1
      change (call'.progress.next s.net call'.address call'.id).Good S a call'.id
      rwa [haddress]
    · rw [Function.update_of_ne hab] at hcall
      exact h i call hcall
  | @setFinger b j call' result hcall' hresult =>
    intro i call hcall
    dsimp only at hcall
    by_cases hab : a = b
    · subst hab
      rw [Function.update_self] at hcall
      cases hcall
    · rw [Function.update_of_ne hab] at hcall
      exact h i call hcall
  | findSuccessor => exact h
  | lookupStep => exact h

/-- **A node that has executed `fixFingers(i)`** since all first fingers are right has a
right finger `i`. -/
theorem right_of_executed (hs : Primed S s) {es : List Event} (hrun : run step s es = some t)
    (h : Executed es a i) : Right t.net a i := by
  obtain ⟨before, nextFinger, during, after, hindex, rfl⟩ := h
  rw [List.append_assoc, run_append, Option.bind_eq_some_iff] at hrun
  obtain ⟨u, hbefore, hrun⟩ := hrun
  obtain ⟨v, hfix, hrun⟩ := Option.bind_eq_some_iff.mp hrun
  have hu : Primed S u := (reach_of_run _ _ _ hbefore).invariant hs fun _ _ _ h _ hstep =>
    primed_step h hstep
  -- the call begins now
  have hv : Settling v a i ∧ Fresh S v a := by
    cases step_cases hfix with
    | fixFingers hn hfree =>
      rw [hindex]
      refine ⟨.inr ⟨_, Function.update_self _ _ _⟩, fun j call hcall => ?_⟩
      dsimp only at hcall
      rw [Function.update_self] at hcall
      cases hcall
      trivial
  exact (right_of_run (H := fun s => Primed S s ∧ Fresh S s a) (fun _ h => h.1.toInv)
    (fun _ h => h.2.honest i)
    (fun _ _ _ h hstep => ⟨primed_step h.1 hstep, fresh_step h.1 h.2 hstep⟩)
    ⟨primed_step hu hfix, hv.2⟩ hv.1 hrun).2

/-! ### Lookups -/

/-- Only its own steps change a lookup. -/
theorem lookups_step {k : ℕ} (hcall : s.lookups k = some call) (hne : e ≠ .lookupStep k)
    (hstep : step s e = some t) : t.lookups k = some call := by
  cases step_cases hstep with
  | @findSuccessor j b id hfree _ =>
    have hkj : k ≠ j := by
      rintro rfl
      rw [hcall] at hfree
      cases hfree
    exact (Function.update_of_ne hkj _ _).trans hcall
  | @lookupStep j call' hcall' =>
    have hkj : k ≠ j := by
      rintro rfl
      exact hne rfl
    exact (Function.update_of_ne hkj _ _).trans hcall
  | _ => exact hcall

/-- **A lookup keeps on its way**, whatever else happens, and cannot take many steps. -/
theorem lookup_run (hs : Primed S s) {k : ℕ} {es : List Event} {id : ℕ} (ha : a ∈ S)
    (hid : id < hashMod) {p : Progress}
    (hcall : s.lookups k = some { address := a, id := id, progress := p }) (hgood : p.Good S a id)
    (hrun : run step s es = some t) :
    ∃ p', t.lookups k = some { address := a, id := id, progress := p' } ∧ p'.Good S a id ∧
      p'.left S a id ≤ p.left S a id - es.count (.lookupStep k) := by
  -- on the steps; those of the call itself use up what is left to it
  induction es generalizing s p with
  | nil =>
    cases hrun
    exact ⟨p, hcall, hgood, le_rfl⟩
  | cons e es ih =>
    obtain ⟨u, hstep, hrest⟩ := Option.bind_eq_some_iff.mp hrun
    have hu := primed_step hs hstep
    by_cases hk : e = .lookupStep k
    · subst hk
      obtain ⟨hgood', hleft⟩ := good_next hs.ring hs.members hs.card hs.first ha hid hgood
      have hnext : u.lookups k =
          some { address := a, id := id, progress := p.next s.net a id } := by
        cases step_cases hstep with
        | lookupStep hcall' =>
          rw [hcall, Option.some.injEq] at hcall'
          subst hcall'
          exact Function.update_self _ _ _
      obtain ⟨p', hcall', hgood'', hleft'⟩ := ih hu hnext hgood' hrest
      refine ⟨p', hcall', hgood'', ?_⟩
      rw [List.count_cons_self]
      omega
    · rw [List.count_cons_of_ne hk]
      exact ih hu (lookups_step hcall hk hstep) hgood hrest

/-- **The finger tables are repaired, and lookups are right.**  In a ring of at most
`maxLookupSteps + 2` nodes whose first successors are right, whatever is in the finger
tables at first and however the calls interleave: once every node has executed
`fixFingers(1)`, a lookup that begins returns nothing but the owner, and does so after
few steps of its own; and every node that executes `fixFingers(i)` from then on gets the
right finger `i`, and keeps it. -/
theorem fingers_converge {net : Network} (hring : IsRing net)
    (hcard : (Chord.members net).card ≤ maxLookupSteps + 2) {es : List Event}
    (hrun : run step (init net) es = some s) (hfirst : ∀ a ∈ net, Executed es a 1) :
    (∀ es' t, run step s es' = some t →
      (∀ a ∈ net, ∀ i, 1 ≤ i → i ≤ keySize → Executed es' a i) →
      ∀ a ∈ net, ∀ i, 1 ≤ i → i ≤ keySize → Right t.net a i) ∧
    ∀ k, ∀ a ∈ net, ∀ id < hashMod, ∀ es' t, run step s (.findSuccessor k a id :: es') = some t →
      (∀ result, t.answer k = some result → ∃ m, result = .ok m ∧ Owner net id m) ∧
      (2 * (maxLookupSteps + 2) ≤ es'.count (.lookupStep k) → (t.answer k).isSome) := by
  have hinv : Inv (Chord.members net) s := (reach_of_run _ _ _ hrun).invariant (inv_init hring)
    fun _ _ _ h _ hstep => inv_step h hstep
  have hs : Primed (Chord.members net) s :=
    ⟨hinv, hcard, fun b hb =>
      right_one_of_executed (inv_init hring) hrun (hfirst b (mem_members.mp hb))⟩
  refine ⟨fun es' t hrun' hall a ha i hi hle => right_of_executed hs hrun' (hall a ha i hi hle), ?_⟩
  intro k a ha id hid es' t hrun'
  obtain ⟨u, hstep, hrun'⟩ := Option.bind_eq_some_iff.mp hrun'
  have hu := primed_step hs hstep
  have hcall : u.lookups k = some { address := a, id := id, progress := .start } := by
    cases step_cases hstep with
    | findSuccessor _ _ => exact Function.update_self _ _ _
  have haS := mem_members.mpr ha
  obtain ⟨p, hp, hgood, hleft⟩ := lookup_run hu haS hid hcall trivial hrun'
  have hahead := Circle.card_ahead_lt_card hring.placed haS hid
  unfold System.answer
  rw [hp]
  constructor
  · intro result hresult
    split at hresult
    · next heq =>
      cases heq
      cases hresult
      exact hgood
    · cases hresult
  · intro hcount
    have hzero : p.left (Chord.members net) a id = 0 := by
      unfold Progress.left at hleft
      dsimp only at hleft
      exact Nat.le_zero.mp (hleft.trans (by omega))
    cases p with
    | returned result => rfl
    | start => exact absurd hzero (Nat.succ_ne_zero _)
    | fetch c steps => exact absurd hzero (Nat.succ_ne_zero _)
    | route c s steps => exact absurd hzero (Nat.succ_ne_zero _)

/-! ### Calls can be carried out -/

/-- Steps of one lookup, and nothing else. -/
theorem run_repairSteps {id : ℕ} {p : Progress} (k : ℕ)
    (hcall : s.repairs a = some (i, { address := a, id := id, progress := p })) :
    ∃ t, run step s (List.replicate k (.repairStep a)) = some t ∧ t.net = s.net ∧
      t.repairs = Function.update s.repairs a
        (some (i, { address := a, id := id, progress := (Progress.next s.net a id)^[k] p })) := by
  induction k generalizing s p with
  | zero =>
    refine ⟨s, rfl, rfl, ?_⟩
    rw [Function.iterate_zero_apply, ← hcall, Function.update_eq_self]
  | succ k ih =>
    have hstep : step s (.repairStep a) = some
        { s with
          repairs := Function.update s.repairs a
            (some (i, { address := a, id := id, progress := p.next s.net a id })) } := by
      simp only [step, hcall]
      rfl
    obtain ⟨t, hrun, hnet, hrepairs⟩ := ih (p := p.next s.net a id) (Function.update_self _ _ _)
      (s := { s with
        repairs := Function.update s.repairs a
          (some (i, { address := a, id := id, progress := p.next s.net a id })) })
    refine ⟨t, ?_, hnet, ?_⟩
    · rw [List.replicate_succ, run, hstep]
      exact hrun
    · rw [hrepairs, Function.update_idem, Function.iterate_succ_apply]

/-- **A call of `fixFingers` can be carried out** where none is under way. -/
theorem exists_run_fixFingers (hfree : ∀ b, s.repairs b = none) (ha : a ∈ s.net) (hi : 1 ≤ i)
    (hle : i ≤ keySize) : ∃ es t, run step s es = some t ∧ (∀ b, t.repairs b = none) ∧
      (∀ b, b ∈ t.net ↔ b ∈ s.net) ∧ Executed es a i := by
  obtain ⟨n, hn⟩ := exists_lookup ha
  have hindex : fingerIndex i = i := by
    unfold fingerIndex
    rw [if_neg (by omega)]
    rfl
  let s₁ : System := { s with
    repairs := Function.update s.repairs a (some (i, .start a (fingerTarget n.id i))) }
  have hfix : step s (.fixFingers a i) = some s₁ := by
    simp only [step, hn, hfree a, hindex]
    rfl
  obtain ⟨t, hsteps, hnet, hrepairs⟩ := run_repairSteps (s := s₁) (a := a) (i := i)
    (2 * (maxLookupSteps + 1) + 2) (Function.update_self _ _ _)
  rw [iterate_next hn] at hrepairs
  let u : System := { t with
    net := Table.modify a (·.setFinger i (findSuccessor s.net a n (fingerTarget n.id i))) t.net
    repairs := Function.update t.repairs a none }
  have hset : step t (.setFinger a) = some u := by
    have hcall : t.repairs a = some (i, Call.mk a (fingerTarget n.id i)
        (.returned (findSuccessor s.net a n (fingerTarget n.id i)))) := by
      rw [hrepairs]
      exact Function.update_self _ _ _
    simp only [step, hcall]
    rfl
  refine ⟨.fixFingers a i :: List.replicate (2 * (maxLookupSteps + 1) + 2) (.repairStep a) ++
    [.setFinger a], u, ?_, fun b => ?_, fun b => ?_, [], i, _, [], hindex, rfl⟩
  · rw [run_append, run, hfix, Option.bind_some, hsteps, Option.bind_some, run, hset]
    rfl
  · change Function.update t.repairs a none b = none
    rw [hrepairs, Function.update_idem, Function.update_idem, Function.update_apply]
    split
    · rfl
    · exact hfree b
  · exact Table.mem_modify.trans (by rw [hnet])

/-- Any calls of `fixFingers` can be carried out one after the other. -/
theorem exists_run_executed (calls : List (Address × ℕ)) (hfree : ∀ b, s.repairs b = none)
    (hcalls : ∀ c ∈ calls, c.1 ∈ s.net ∧ 1 ≤ c.2 ∧ c.2 ≤ keySize) :
    ∃ es t, run step s es = some t ∧ (∀ b, t.repairs b = none) ∧
      (∀ b, b ∈ t.net ↔ b ∈ s.net) ∧ ∀ c ∈ calls, Executed es c.1 c.2 := by
  induction calls generalizing s with
  | nil => exact ⟨[], s, rfl, hfree, fun _ => Iff.rfl, fun c hc => by cases hc⟩
  | cons c calls ih =>
    obtain ⟨hmem, hi, hle⟩ := hcalls c List.mem_cons_self
    obtain ⟨es, t, hrun, hfree', hnet, hexec⟩ := exists_run_fixFingers hfree hmem hi hle
    obtain ⟨es', u, hrun', hfree'', hnet', hexec'⟩ := ih hfree' fun c hc => by
      rw [hnet]
      exact hcalls c (List.mem_cons_of_mem _ hc)
    refine ⟨es ++ es', u, ?_, hfree'', fun b => (hnet' b).trans (hnet b), fun d hd => ?_⟩
    · rw [run_append, hrun]
      exact hrun'
    · rcases List.mem_cons.mp hd with rfl | hd
      · obtain ⟨before, nextFinger, during, after, hindex, rfl⟩ := hexec
        exact ⟨before, nextFinger, during, after ++ es', hindex, by simp⟩
      · obtain ⟨before, nextFinger, during, after, hindex, rfl⟩ := hexec' d hd
        exact ⟨es ++ before, nextFinger, during, after, hindex, by simp⟩

/-- Three nodes with empty finger tables repair them all. -/
theorem fingers_converge_threeNodes : ∃ es s es' t, run step (init threeNodes) es = some s ∧
    run step s es' = some t ∧
    ∀ a ∈ threeNodes, ∀ i, 1 ≤ i → i ≤ keySize → Right t.net a i := by
  obtain ⟨es, s, hrun, hfree, hnet, hfirst⟩ := exists_run_executed
    (s := init threeNodes) (threeNodes.keys.map fun a => (a, 1)) (fun _ => rfl) fun c hc => by
      obtain ⟨a, ha, rfl⟩ := List.mem_map.mp hc
      exact ⟨AList.mem_keys.mp ha, le_rfl, Nat.succ_le_succ (Nat.zero_le 159)⟩
  obtain ⟨es', t, hrun', -, -, hall⟩ := exists_run_executed
    (threeNodes.keys ×ˢ List.range' 1 keySize) hfree fun c hc => by
      obtain ⟨a, i⟩ := c
      obtain ⟨ha, hi⟩ := List.mem_product.mp hc
      rw [List.mem_range'_1] at hi
      exact ⟨(hnet a).mpr (AList.mem_keys.mp ha), hi.1, by omega⟩
  refine ⟨es, s, es', t, hrun, hrun',
    (fingers_converge isRing_threeNodes ?_ hrun ?_).1 es' t hrun' ?_⟩
  · decide +kernel
  · exact fun a ha => hfirst (a, 1) (List.mem_map.mpr ⟨a, AList.mem_keys.mpr ha, rfl⟩)
  · exact fun a ha i hi hle => hall (a, i) (List.mem_product.mpr
      ⟨AList.mem_keys.mpr ha, List.mem_range'_1.mpr ⟨hi, by omega⟩⟩)

end Repair

end ExchangeLabs.Chord
