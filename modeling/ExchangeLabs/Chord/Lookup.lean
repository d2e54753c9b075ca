import Mathlib.Logic.Function.Iterate
import ExchangeLabs.Chord.Node

/-!
# Lookups in a ring whose successor pointers are right

A lookup goes from node to node along the finger tables.  It asks a node for its
successor only where it ends up, and there it takes the answer as it is.  So it finds
the owner of an identifier if it does not end up too early: at a node that has no
finger on the way to the identifier although its successor comes before it.

## Main definitions

* `Owner net id m`, `Next net a s` — who owns an identifier, and who comes next.
* `IsRing net` — the successors are right, and the fingers are members or empty.
* `hop net id a` — where a lookup of `id` goes from the node at `a`.
* `Stranded net id a` — the lookup stops at `a`, too early.

## Main results

* `findClosetPredecessor_cases` — all that the search in a finger table can find.
* `findSuccessor_owner_iff` — a lookup finds the owner unless it is stranded.
* `owner_of_findSuccessor_iff` — **all lookups find the owners** just if every node has its
  successor among its fingers, or is alone.
-/

namespace ExchangeLabs.Chord

variable {net : Network} {a b s m : Address} {n : Node} {id : ℕ}

/-! ### Rings -/

/-- The addresses of the running nodes. -/
def members (net : Network) : Finset Address := net.keys.toFinset

@[simp] theorem mem_members : a ∈ members net ↔ a ∈ net := List.mem_toFinset

/-- `m` is the first node at `id` or clockwise after it. -/
abbrev Owner (net : Network) (id : ℕ) (m : Address) : Prop :=
  Circle.Owns hash (members net) hashMod id m

/-- `s` is the next node clockwise after `a`, among all that run. -/
abbrev Next (net : Network) (a s : Address) : Prop :=
  Circle.Follows hash (members net) hashMod a s

instance : Decidable (Owner net id m) :=
  inferInstanceAs (Decidable (m ∈ members net ∧ ∀ m' ∈ members net, _ ≤ _))

instance : Decidable (Next net a s) :=
  inferInstanceAs (Decidable (s ∈ members net ∧ ∀ m' ∈ members net, _ ≤ _))

/-- The identifiers of the nodes are the hashes of their addresses, and distinct. -/
structure Identified (net : Network) : Prop where
  /-- Addresses are resolved, so none of them is empty. -/
  ne_empty : "" ∉ net
  id_eq : ∀ a n, net.lookup a = some n → n.id = hash a
  inj : ∀ a ∈ net, ∀ b ∈ net, hash a = hash b → a = b

/-- The first successor of every node is the next node, and the entries of its finger
table are empty or members. -/
structure IsRing (net : Network) : Prop extends Identified net where
  successor : ∀ a n, net.lookup a = some n → ∃ s, n.successors.head? = some s ∧ Next net a s
  finger : ∀ a n, net.lookup a = some n → ∀ f ∈ n.fingers, f ≠ "" → f ∈ net

/-- A property of all nodes can be decided entry by entry. -/
theorem forall_lookup_iff {P : Address → Node → Prop} :
    (∀ a n, net.lookup a = some n → P a n) ↔ ∀ e ∈ net.entries, P e.1 e.2 := by
  constructor
  · exact fun h e he => h e.1 e.2 (Table.mem_entries.mp he)
  · exact fun h a n hn => h ⟨a, n⟩ (Table.mem_entries.mpr hn)

instance : Decidable (IsRing net) :=
  decidable_of_iff
    (("" ∉ net ∧ (∀ e ∈ net.entries, e.2.id = hash e.1) ∧
      ∀ a ∈ members net, ∀ b ∈ members net, hash a = hash b → a = b) ∧
      (∀ e ∈ net.entries, ∃ s ∈ e.2.successors.head?, Next net e.1 s) ∧
      ∀ e ∈ net.entries, ∀ f ∈ e.2.fingers, f ≠ "" → f ∈ net) <| by
    rw [← forall_lookup_iff (P := fun a n => n.id = hash a),
      ← forall_lookup_iff (P := fun a n => ∃ s ∈ n.successors.head?, Next net a s),
      ← forall_lookup_iff (P := fun _ n => ∀ f ∈ n.fingers, f ≠ "" → f ∈ net)]
    simp only [mem_members]
    exact ⟨fun ⟨⟨h₁, h₂, h₃⟩, h₄, h₅⟩ => ⟨⟨h₁, h₂, h₃⟩, h₄, h₅⟩,
      fun h => ⟨⟨h.ne_empty, h.id_eq, h.inj⟩, h.successor, h.finger⟩⟩

theorem Identified.placed (h : Identified net) : Circle.Placed hash (members net) hashMod where
  lt := fun m _ => hash_lt m
  inj := fun m hm m' hm' => h.inj m (mem_members.mp hm) m' (mem_members.mp hm')

theorem mem_of_lookup (h : net.lookup a = some n) : a ∈ net :=
  AList.lookup_isSome.mp (h ▸ rfl)

theorem exists_lookup (h : a ∈ net) : ∃ n, net.lookup a = some n :=
  Option.isSome_iff_exists.mp (AList.lookup_isSome.mpr h)

/-- Who owns an identifier depends on the members only. -/
theorem owner_congr {net' : Network} (h : members net = members net') :
    Owner net id m ↔ Owner net' id m := by
  unfold Owner
  rw [h]

theorem next_congr {net' : Network} (h : members net = members net') :
    Next net a s ↔ Next net' a s := by
  unfold Next
  rw [h]

theorem members_modify (net : Network) (a : Address) (f : Node → Node) :
    members (Table.modify a f net) = members net := by
  ext b
  rw [mem_members, mem_members, Table.mem_modify]

theorem Identified.modify (h : Identified net) {f : Node → Node} (hf : ∀ v, (f v).id = v.id) :
    Identified (Table.modify a f net) where
  ne_empty hmem := h.ne_empty (Table.mem_modify.mp hmem)
  id_eq := Table.forall_lookup_modify h.id_eq fun v _ hid => (hf v).trans hid
  inj b hb c hc := h.inj b (Table.mem_modify.mp hb) c (Table.mem_modify.mp hc)

/-- A node with a new identifier is added. -/
theorem Identified.insert (h : Identified net) (hne : a ≠ "") (hid : n.id = hash a)
    (hnew : ∀ b ∈ members net, hash b ≠ hash a) : Identified (AList.insert a n net) where
  ne_empty hmem := by
    rcases (AList.mem_insert _).mp hmem with heq | hmem
    · exact hne heq.symm
    · exact h.ne_empty hmem
  id_eq b n' hn' := by
    by_cases hb : b = a
    · subst hb
      rw [AList.lookup_insert, Option.some.injEq] at hn'
      rw [← hn', hid]
    · rw [AList.lookup_insert_ne hb] at hn'
      exact h.id_eq b n' hn'
  inj b hb c hc hbc := by
    rcases (AList.mem_insert _).mp hb with hb | hb <;>
      rcases (AList.mem_insert _).mp hc with hc | hc
    · exact hb.trans hc.symm
    · exact absurd (hb ▸ hbc).symm (hnew c (mem_members.mpr hc))
    · exact absurd (hc ▸ hbc) (hnew b (mem_members.mpr hb))
    · exact h.inj b hb c hc hbc

/-! ### One hop -/

/-- **All that the search in a finger table can find**: a finger strictly between the
node and the identifier, or the node itself if there is none. -/
theorem findClosetPredecessor_cases (n : Node) (a : Address) (id : ℕ) :
    (∃ f ∈ n.fingers, n.findClosetPredecessor a id = f ∧ f ≠ "" ∧
      between n.id (hash f) id false = true) ∨
    (n.findClosetPredecessor a id = a ∧
      ∀ f ∈ n.fingers, f ≠ "" → between n.id (hash f) id false = false) := by
  unfold Node.findClosetPredecessor
  cases hfind : n.fingers.reverse.find? fun f => f != "" && between n.id (hash f) id false with
  | some f =>
    have hp := List.find?_some hfind
    rw [Bool.and_eq_true, bne_iff_ne] at hp
    exact .inl ⟨f, List.mem_reverse.mp (List.mem_of_find?_eq_some hfind), rfl, hp.1, hp.2⟩
  | none =>
    refine .inr ⟨rfl, fun f hf hne => ?_⟩
    have hp := List.find?_eq_none.mp hfind f (List.mem_reverse.mpr hf)
    rwa [Bool.not_eq_true, Bool.and_eq_false_iff, bne_eq_false_iff_eq, or_iff_right hne] at hp

/-- Where a lookup of `id` goes from the node at `a`. -/
def hop (net : Network) (id : ℕ) (a : Address) : Address :=
  match net.lookup a with
  | none => a
  | some n => n.findClosetPredecessor a id

/-- The lookup of `id` stops at `a`, as no finger of the node lies between it and `id`,
although `id` is not between the node and its successor. -/
def Stranded (net : Network) (id : ℕ) (a : Address) : Prop :=
  ∃ n ∈ net.lookup a, ∃ s ∈ n.successors.head?,
    n.findClosetPredecessor a id = a ∧ between (hash a) id (hash s) true = false

instance : Decidable (Stranded net id a) :=
  inferInstanceAs (Decidable (∃ n ∈ net.lookup a, ∃ s ∈ n.successors.head?, _ ∧ _))

theorem hop_eq (h : net.lookup a = some n) : hop net id a = n.findClosetPredecessor a id := by
  unfold hop
  rw [h]

theorem callFindClosetPredecessor_eq (h : net.lookup a = some n) :
    callFindClosetPredecessor net a id = some (hop net id a) := by
  unfold callFindClosetPredecessor
  rw [h, hop_eq h]
  rfl

/-- No lookup is stranded where it goes on. -/
theorem not_stranded_of_hop (h : net.lookup a = some n) (hgo : hop net id a ≠ a) :
    ¬ Stranded net id a := by
  rintro ⟨n', hn', s, -, heq, -⟩
  rw [Option.mem_def, h, Option.some.injEq] at hn'
  subst hn'
  exact hgo ((hop_eq h).trans heq)

namespace IsRing

variable (hring : IsRing net)
include hring

/-- **A hop** stays at a node, or goes strictly towards the identifier. -/
theorem hop_cases (h : net.lookup a = some n) (hid : id < hashMod) :
    hop net id a = a ∨ hop net id a ∈ Circle.ahead hash (members net) hashMod a id := by
  rw [hop_eq h]
  rcases findClosetPredecessor_cases n a id with ⟨f, hf, heq, hne, hbetween⟩ | ⟨heq, -⟩
  · right
    rw [heq, Circle.mem_ahead, mem_members]
    rw [hring.id_eq a n h, between_false_iff (hash_lt a) (hash_lt f) hid] at hbetween
    exact ⟨hring.finger a n h f hf hne, hbetween⟩
  · exact .inl heq

theorem hop_mem (ha : a ∈ net) (hid : id < hashMod) : hop net id a ∈ net := by
  obtain ⟨n, hn⟩ := exists_lookup ha
  rcases hring.hop_cases hn hid with heq | hahead
  · rwa [heq]
  · exact mem_members.mp (Circle.mem_ahead.mp hahead).1

theorem iterate_hop_mem (ha : a ∈ net) (hid : id < hashMod) (k : ℕ) :
    (hop net id)^[k] a ∈ net := by
  induction k with
  | zero => exact ha
  | succ k ih =>
    rw [Function.iterate_succ_apply']
    exact hring.hop_mem ih hid

/-- The successor of a node owns what is between the two, and nothing else. -/
theorem owner_iff (ha : a ∈ net) (hs : Next net a s) (hid : id < hashMod) :
    Owner net id s ↔ between (hash a) id (hash s) true = true := by
  exact (Circle.owns_iff hring.placed (mem_members.mpr ha) hs hid).trans
    (between_true_iff (hash_lt a) hid (hash_lt s)).symm

/-- A lookup stays where the identifier comes before the successor. -/
theorem hop_eq_self (h : net.lookup a = some n) (hs : Next net a s) (hid : id < hashMod)
    (hbetween : between (hash a) id (hash s) true = true) : hop net id a = a := by
  refine (hring.hop_cases h hid).resolve_right fun hahead => ?_
  rw [Circle.ahead_eq_empty hs ((between_true_iff (hash_lt a) hid (hash_lt s)).mp hbetween)]
    at hahead
  exact absurd hahead (Finset.notMem_empty _)

/-- A node at which the lookup stops is stranded or has the owner as its successor. -/
theorem not_stranded_iff (h : net.lookup a = some n) (hhead : n.successors.head? = some s)
    (hs : Next net a s) (hid : id < hashMod) (hstop : hop net id a = a) :
    ¬ Stranded net id a ↔ Owner net id s := by
  rw [hop_eq h] at hstop
  rw [hring.owner_iff (mem_of_lookup h) hs hid]
  unfold Stranded
  simp [h, hhead, hstop]

/-- The list of successors that a call gets begins with the next node. -/
theorem callGetSuccessorList_eq (hn : net.lookup a = some n) :
    ∃ s rest, (callGetSuccessorList net a).getD [] = s :: rest ∧ n.successors.head? = some s ∧
      Next net a s := by
  obtain ⟨s, hhead, hs⟩ := hring.successor a n hn
  obtain ⟨rest, hsucc⟩ := List.head?_eq_some_iff.mp hhead
  refine ⟨s, rest, ?_, hhead, hs⟩
  unfold callGetSuccessorList
  rw [hn, Option.bind_some, hsucc]
  rfl

/-! ### Lookups -/

/-- **The loop** finds the owner unless it is stranded on its way. -/
theorem findSuccessorLoop_owner_iff (hid : id < hashMod) (left : ℕ) (ha : a ∈ net) :
    (∀ addr, findSuccessorLoop net id left a = .ok addr → Owner net id addr) ↔
      ∀ k < left, ¬ Stranded net id ((hop net id)^[k] a) := by
  induction left generalizing a with
  | zero => exact ⟨fun _ k hk => absurd hk (Nat.not_lt_zero k), fun _ _ h => by cases h⟩
  | succ left ih =>
    obtain ⟨n, hn⟩ := exists_lookup ha
    obtain ⟨s, rest, hlist, hhead, hs⟩ := hring.callGetSuccessorList_eq hn
    have hstops : hop net id a = a → ∀ k, (hop net id)^[k] a = a :=
      fun h k => Function.iterate_fixed h k
    unfold findSuccessorLoop
    rw [hlist, callFindClosetPredecessor_eq hn]
    dsimp only
    by_cases hbetween : between (hash a) id (hash s) true = true
    · -- it stops here, at the right node
      have hstop := hring.hop_eq_self hn hs hid hbetween
      have howner := (hring.owner_iff ha hs hid).mpr hbetween
      rw [if_pos hbetween]
      constructor
      · intro _ k _
        rw [hstops hstop k, hring.not_stranded_iff hn hhead hs hid hstop]
        exact howner
      · intro _ addr haddr
        cases haddr
        exact howner
    rw [if_neg hbetween]
    by_cases hstop : hop net id a = a
    · rw [if_pos hstop]
      have hstranded := hring.not_stranded_iff hn hhead hs hid hstop
      constructor
      · intro hall k _
        rw [hstops hstop k, hstranded]
        exact hall s rfl
      · intro hall addr haddr
        cases haddr
        exact hstranded.mp (hall 0 (Nat.succ_pos left))
    · rw [if_neg hstop, ih (hring.hop_mem ha hid)]
      constructor
      · intro hall k hk
        cases k with
        | zero => exact not_stranded_of_hop hn hstop
        | succ k => exact hall k (Nat.lt_of_succ_lt_succ hk)
      · intro hall k hk
        exact hall (k + 1) (Nat.succ_lt_succ hk)

end IsRing

/-- **A lookup finds the owner** unless it is stranded: where it stops within
`maxLookupSteps + 1` hops, the identifier is not beyond the successor. -/
theorem findSuccessor_owner_iff (hring : IsRing net) (hn : net.lookup a = some n)
    (hid : id < hashMod) :
    (∀ addr, findSuccessor net a n id = .ok addr → Owner net id addr) ↔
      ∀ k ≤ maxLookupSteps + 1, ¬ Stranded net id ((hop net id)^[k] a) := by
  have ha := mem_of_lookup hn
  obtain ⟨s, hhead, hs⟩ := hring.successor a n hn
  obtain ⟨rest, hsucc⟩ := List.head?_eq_some_iff.mp hhead
  unfold findSuccessor
  rw [← hop_eq hn, hsucc]
  dsimp only
  by_cases hstop : hop net id a = a
  · rw [if_pos hstop]
    have hstranded := hring.not_stranded_iff hn hhead hs hid hstop
    constructor
    · intro hall k _
      rw [Function.iterate_fixed hstop k, hstranded]
      exact hall s rfl
    · intro hall addr haddr
      cases haddr
      exact hstranded.mp (hall 0 (Nat.zero_le _))
  · rw [if_neg hstop, hring.findSuccessorLoop_owner_iff hid _ (hring.hop_mem ha hid)]
    constructor
    · intro hall k hk
      cases k with
      | zero => exact not_stranded_of_hop hn hstop
      | succ k => exact hall k hk
    · intro hall k hk
      exact hall (k + 1) hk

/-! ### Rings in which all lookups are right -/

/-- Every node has its successor among its fingers. -/
def FingersHaveSuccessors (net : Network) : Prop :=
  ∀ a n, net.lookup a = some n → ∀ s ∈ n.successors.head?, s ∈ n.fingers

instance : Decidable (FingersHaveSuccessors net) :=
  decidable_of_iff (∀ e ∈ net.entries, ∀ s ∈ e.2.successors.head?, s ∈ e.2.fingers)
    (forall_lookup_iff (P := fun _ n => ∀ s ∈ n.successors.head?, s ∈ n.fingers)).symm

/-- Who is alone owns everything. -/
theorem owner_of_card_eq_one (hcard : (members net).card = 1) (hm : m ∈ members net) :
    Owner net id m := by
  refine ⟨hm, fun m' hm' => ?_⟩
  rw [Finset.card_le_one.mp hcard.le m' hm' m hm]

namespace IsRing

variable (hring : IsRing net)
include hring

/-- A lookup that stops at a node with its successor among its fingers is not beyond the
successor. -/
theorem owner_of_mem_fingers (hn : net.lookup a = some n) (hs : Next net a s)
    (hid : id < hashMod) (hfinger : s ∈ n.fingers) (hstop : hop net id a = a) :
    Owner net id s := by
  rw [hring.owner_iff (mem_of_lookup hn) hs hid]
  have hne : s ≠ "" := fun heq => hring.ne_empty (heq ▸ mem_members.mp hs.1)
  rw [hop_eq hn] at hstop
  rcases findClosetPredecessor_cases n a id with ⟨f, -, hf, -, hbetween⟩ | ⟨-, hall⟩
  · -- no node is its own finger on the way to `id`
    rw [← hf, hstop, ← hring.id_eq a n hn, between_self] at hbetween
    cases hbetween
  · have hnot := hall s hfinger hne
    rw [hring.id_eq a n hn, ← Bool.not_eq_true,
      between_false_iff (hash_lt a) (hash_lt s) hid, Nat.not_lt] at hnot
    exact (between_true_iff (hash_lt a) hid (hash_lt s)).mpr hnot

/-- **Without its successor among its fingers** a node stops the lookup of the point right
after the successor. -/
theorem hop_succ_eq_self (hn : net.lookup a = some n) (hs : Next net a s) (hne : s ≠ a)
    (hfinger : s ∉ n.fingers) : hop net ((hash s + 1) % hashMod) a = a := by
  have ha := mem_of_lookup hn
  have hlt : Circle.arc hashMod (hash a) (hash s) < hashMod := by
    refine lt_of_le_of_ne (Circle.arc_le (hash_lt a) (hash_lt s)) fun heq => hne ?_
    have hback : Circle.arc hashMod (hash a) (hash s) = Circle.arc hashMod (hash a) (hash a) :=
      heq.trans Circle.arc_self.symm
    exact hring.inj s (mem_members.mp hs.1) a ha
      (Circle.arc_inj (hash_lt a) (hash_lt s) (hash_lt a) hback)
  rw [hop_eq hn]
  refine (findClosetPredecessor_cases n a _).resolve_left ?_ |>.1
  rintro ⟨f, hf, -, hf', hbetween⟩
  -- a finger on the way to that point can only be the successor
  rw [hring.id_eq a n hn, between_false_iff (hash_lt a) (hash_lt f)
    (Nat.mod_lt _ (by decide)), Circle.arc_succ_right (hash_lt a) (hash_lt s) hlt,
    Nat.lt_succ_iff] at hbetween
  have hmem := hring.finger a n hn f hf hf'
  have heq := Circle.arc_inj (hash_lt a) (hash_lt f) (hash_lt s)
    (le_antisymm hbetween (hs.2 f (mem_members.mpr hmem)))
  exact absurd (hring.inj f hmem s (mem_members.mp hs.1) heq ▸ hf) hfinger

/-- A node owns the point right after it only if it is alone. -/
theorem card_eq_one_of_owner (hs : s ∈ members net) (h : Owner net ((hash s + 1) % hashMod) s) :
    (members net).card = 1 := by
  have hnext := (Circle.follows_iff_owns hring.placed hs (by decide)).mpr h
  rw [hnext.eq_singleton hring.placed hs, Finset.card_singleton]

end IsRing

/-- **When all lookups are right**: every node has its successor among its fingers, or the
only node is its own successor. -/
theorem owner_of_findSuccessor_iff (hring : IsRing net) :
    (∀ a n id addr, net.lookup a = some n → id < hashMod →
      findSuccessor net a n id = .ok addr → Owner net id addr) ↔
    (members net).card = 1 ∨ FingersHaveSuccessors net := by
  constructor
  · intro hall
    by_contra hnot
    obtain ⟨hcard, hfingers⟩ := not_or.mp hnot
    refine hfingers fun a n hn s hhead => ?_
    by_contra hfinger
    obtain ⟨s', hhead', hs⟩ := hring.successor a n hn
    obtain rfl := Option.some.inj (hhead'.symm.trans hhead)
    have ha := mem_members.mpr (mem_of_lookup hn)
    have hid : (hash s' + 1) % hashMod < hashMod := Nat.mod_lt _ (by decide)
    have hne : s' ≠ a := by
      rintro rfl
      exact hcard (by rw [hs.eq_singleton hring.placed ha, Finset.card_singleton])
    have hstop := hring.hop_succ_eq_self hn hs hne hfinger
    -- the lookup of the point after the successor stops at once, and is wrong
    have hstranded := (findSuccessor_owner_iff hring hn hid).mp
      (fun addr haddr => hall a n _ addr hn hid haddr) 0 (Nat.zero_le _)
    exact hcard (hring.card_eq_one_of_owner hs.1
      ((hring.not_stranded_iff hn hhead' hs hid hstop).mp hstranded))
  · intro h a n id addr hn hid haddr
    refine (findSuccessor_owner_iff hring hn hid).mpr (fun k _ => ?_) addr haddr
    obtain ⟨b, hb⟩ : ∃ b, (hop net id)^[k] a = b := ⟨_, rfl⟩
    rw [hb]
    have hmem : b ∈ net := hb ▸ hring.iterate_hop_mem (mem_of_lookup hn) hid k
    obtain ⟨n', hn'⟩ := exists_lookup hmem
    by_cases hstop : hop net id b = b
    · obtain ⟨s, hhead, hs⟩ := hring.successor b n' hn'
      rw [hring.not_stranded_iff hn' hhead hs hid hstop]
      rcases h with hcard | hfingers
      · exact owner_of_card_eq_one hcard hs.1
      · exact hring.owner_of_mem_fingers hn' hs hid (hfingers b n' hn' s hhead) hstop
    · exact not_stranded_of_hop hn' hstop

/-- A node with the right successor and an empty finger table. -/
def bareNode (a s : Address) : Node where
  id := hash a
  predecessor := ""
  successors := [s]
  fingerTable := Vector.replicate (keySize + 1) ""
  bucket := ∅
  numberOfSuccessors := 1

/-- The same with the successor as the only finger. -/
def linkedNode (a s : Address) : Node :=
  { bareNode a s with fingerTable := (Vector.replicate (keySize + 1) "").set 1 s }

/-- Clockwise, the first of these nodes is followed by the third. -/
def threeNodes : Network :=
  Table.ofList [("10.0.0.1:3410", bareNode "10.0.0.1:3410" "10.0.0.3:3410"),
    ("10.0.0.2:3410", bareNode "10.0.0.2:3410" "10.0.0.1:3410"),
    ("10.0.0.3:3410", bareNode "10.0.0.3:3410" "10.0.0.2:3410")]

/-- The same ring, where every node knows the next one as a finger and no other. -/
def linkedNodes : Network :=
  Table.ofList [("10.0.0.1:3410", linkedNode "10.0.0.1:3410" "10.0.0.3:3410"),
    ("10.0.0.2:3410", linkedNode "10.0.0.2:3410" "10.0.0.1:3410"),
    ("10.0.0.3:3410", linkedNode "10.0.0.3:3410" "10.0.0.2:3410")]

theorem isRing_threeNodes : IsRing threeNodes := by decide +kernel

theorem isRing_linkedNodes : IsRing linkedNodes := by decide +kernel

/-- One finger at each node is enough, and no finger at all is not. -/
theorem owner_of_findSuccessor_iff_linkedNodes :
    (∀ a n id addr, linkedNodes.lookup a = some n → id < hashMod →
      findSuccessor linkedNodes a n id = .ok addr → Owner linkedNodes id addr) ∧
    ¬ ∀ a n id addr, threeNodes.lookup a = some n → id < hashMod →
      findSuccessor threeNodes a n id = .ok addr → Owner threeNodes id addr := by
  have hfingers : FingersHaveSuccessors linkedNodes := by decide +kernel
  have hnot : ¬ ((members threeNodes).card = 1 ∨ FingersHaveSuccessors threeNodes) := by
    decide +kernel
  exact ⟨(owner_of_findSuccessor_iff isRing_linkedNodes).mpr (.inr hfingers),
    mt (owner_of_findSuccessor_iff isRing_threeNodes).mp hnot⟩

/-- **A node with an empty finger table** takes its successor for the owner, though
another node comes first after the identifier. -/
theorem findSuccessor_emptyFingers :
    IsRing threeNodes ∧ ∃ n ∈ threeNodes.lookup "10.0.0.1:3410",
      findSuccessor threeNodes "10.0.0.1:3410" n (10 ^ 48) = .ok "10.0.0.3:3410" ∧
        Owner threeNodes (10 ^ 48) "10.0.0.2:3410" ∧
        ¬ Owner threeNodes (10 ^ 48) "10.0.0.3:3410" := by
  refine ⟨isRing_threeNodes, ?_⟩
  decide +kernel

end ExchangeLabs.Chord
