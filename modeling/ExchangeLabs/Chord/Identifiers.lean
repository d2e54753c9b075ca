import ExchangeLabs.Chord.Routing
import ExchangeLabs.Chord.Stabilize

/-!
# Identifiers that are given

With `-i` a node gets an identifier that need not be the hash of its address.  A node
uses the identifier of its own, and knows of the others only their hashes.  In a ring
of at least two nodes whose pointers are all right by the identifiers, the searches in
the finger tables tell for every node whether its identifier is its hash.

## Main definitions

* `nodeId net a` — the identifier of the node at `a`.
* `Ordered net` — all pointers are those of the ring by the identifiers.
* `Works net` — every lookup returns the owner, and `stabilize` changes no pointer.

## Main results

* `stabilize_kept` — when `stabilize` changes no pointer.
* `id_eq_hash` — lookups are right only if the identifiers are the hashes.
* `works_iff` — **when given identifiers work.**
* `not_works` — two nodes with whose identifiers they do not.
-/

namespace ExchangeLabs.Chord

variable {net : Network} {a b s m x : Address} {n k : Node} {id : ℕ}

/-! ### The ring of the identifiers -/

/-- The identifier of the node at `a`. -/
def nodeId (net : Network) (a : Address) : ℕ := ((net.lookup a).map (·.id)).getD 0

theorem nodeId_eq (hn : net.lookup a = some n) : nodeId net a = n.id := by
  unfold nodeId
  rw [hn]
  rfl

/-- `m` is the first node whose identifier is at `id` or clockwise after it. -/
abbrev OwnerById (net : Network) (id : ℕ) (m : Address) : Prop :=
  Circle.Owns (nodeId net) (members net) hashMod id m

/-- `s` is the next node after `a` by the identifiers. -/
abbrev NextById (net : Network) (a s : Address) : Prop :=
  Circle.Follows (nodeId net) (members net) hashMod a s

instance : Decidable (OwnerById net id m) :=
  inferInstanceAs (Decidable (m ∈ members net ∧ ∀ m' ∈ members net, _ ≤ _))

instance : Decidable (NextById net a s) :=
  inferInstanceAs (Decidable (s ∈ members net ∧ ∀ m' ∈ members net, _ ≤ _))

/-- The identifiers are distinct points of the circle, and all pointers are those of the
ring of the identifiers. -/
structure Ordered (net : Network) : Prop where
  /-- Addresses are resolved, so none of them is empty. -/
  ne_empty : "" ∉ net
  lt : ∀ a n, net.lookup a = some n → n.id < hashMod
  inj : ∀ a ∈ net, ∀ b ∈ net, nodeId net a = nodeId net b → a = b
  numberOfSuccessors : ∀ a n, net.lookup a = some n → 1 ≤ n.numberOfSuccessors
  successor : ∀ a n, net.lookup a = some n → ∃ s ∈ n.successors.head?, NextById net a s
  predecessor : ∀ a n, net.lookup a = some n → n.predecessor ∈ net ∧ NextById net n.predecessor a
  finger : ∀ a n, net.lookup a = some n → ∀ i < keySize,
    ∃ f ∈ n.fingerTable[i + 1]?, OwnerById net (fingerTarget n.id (i + 1)) f

/-- Every lookup returns the first node at the identifier or after it, and no `stabilize`
changes a first successor or a predecessor. -/
structure Works (net : Network) : Prop where
  findSuccessor : ∀ a n, net.lookup a = some n → ∀ id < hashMod,
    ∃ m, Chord.findSuccessor net a n id = .ok m ∧ OwnerById net id m
  stabilize : ∀ a ∈ net, ∀ b n, net.lookup b = some n → ∃ n',
    (Chord.stabilize net a).lookup b = some n' ∧
      n'.successors.head? = n.successors.head? ∧ n'.predecessor = n.predecessor

namespace Ordered

variable (h : Ordered net)
include h

theorem placed : Circle.Placed (nodeId net) (members net) hashMod where
  lt a ha := by
    obtain ⟨n, hn⟩ := exists_lookup (mem_members.mp ha)
    rw [nodeId_eq hn]
    exact h.lt a n hn
  inj a ha b hb := h.inj a (mem_members.mp ha) b (mem_members.mp hb)

/-- The entries of a finger table are members. -/
theorem finger_mem (hn : net.lookup a = some n) {f : Address} (hf : f ∈ n.fingers) : f ∈ net := by
  obtain ⟨i, hi, hfi⟩ := mem_fingers.mp hf
  obtain ⟨i, rfl⟩ := Nat.exists_eq_add_of_le' hi
  obtain ⟨hlt, -⟩ := Vector.getElem?_eq_some_iff.mp hfi
  obtain ⟨f', hf', howner⟩ := h.finger a n hn i (Nat.lt_of_succ_lt_succ hlt)
  obtain rfl : f' = f := Option.some.inj (hf'.symm.trans hfi)
  exact mem_members.mp howner.1

/-- The node before the first successor is the node itself. -/
theorem predecessor_eq (ha : a ∈ net) (hs : NextById net a s) (hk : net.lookup s = some k) :
    k.predecessor = a := by
  obtain ⟨hmem, hnext⟩ := h.predecessor s k hk
  exact hnext.left_unique h.placed (mem_members.mpr hmem) (mem_members.mpr ha) hs

/-! ### `stabilize` -/

/-- **When `stabilize` changes no pointer**: its successor is no other node, or its own
hash does not come before that of the successor. -/
theorem stabilize_kept (hn : net.lookup a = some n) (hs : s ∈ n.successors.head?)
    (hkept : s = a ∨ between n.id (hash a) (hash s) false = false) (hb : net.lookup b = some k) :
    ∃ k', (Chord.stabilize net a).lookup b = some k' ∧
      k'.successors.head? = k.successors.head? ∧ k'.predecessor = k.predecessor := by
  have ha := mem_of_lookup hn
  obtain ⟨tail, hsucc⟩ := List.head?_eq_some_iff.mp hs
  have hnext : NextById net a s := by
    obtain ⟨s', hs', hnext⟩ := h.successor a n hn
    rwa [Option.mem_unique hs hs']
  obtain ⟨m, hm⟩ := exists_lookup (mem_members.mp hnext.1)
  have hpred := h.predecessor_eq ha hnext hm
  have hsettled : (if m.predecessor ≠ "" ∧ between n.id (hash m.predecessor) (hash s) false then
      m.predecessor else s) = s := by
    rw [hpred]
    rcases hkept with rfl | hkept
    · exact ite_self s
    · rw [if_neg]
      simp [hkept]
  have hne : m.successors ≠ [] := by
    obtain ⟨s', hs', -⟩ := h.successor s m hm
    intro hnil
    rw [hnil] at hs'
    cases hs'
  have heq := stabilize_eq hn hsucc hm hsettled hm hne (h.numberOfSuccessors a n hn)
  -- the successor has this node as its predecessor
  have hnotify : m.notify a = m := by
    have hne : a ≠ "" := by
      rintro rfl
      exact h.ne_empty ha
    unfold Node.notify
    rw [if_neg hne, hpred, if_neg hne, between_self]
    rfl
  have hcall : (callNotify net s a).lookup b = some k := by
    unfold callNotify
    rw [Table.lookup_modify]
    split
    · next hbs =>
      subst hbs
      rw [hm, Option.map_some, hnotify, ← hm, hb]
    · exact hb
  rw [heq, Table.lookup_modify, hcall]
  split
  · next hba =>
    subst hba
    rw [hn, Option.some.injEq] at hb
    subst hb
    exact ⟨_, rfl, by rw [hsucc]; rfl, rfl⟩
  · exact ⟨k, rfl, rfl, rfl⟩

/-! ### Lookups -/

omit h in
/-- Without a finger on the way, the lookup returns the successor. -/
theorem findSuccessor_of_none (hs : s ∈ n.successors.head?)
    (hstop : n.findClosetPredecessor a id = a) : Chord.findSuccessor net a n id = .ok s := by
  obtain ⟨tail, hsucc⟩ := List.head?_eq_some_iff.mp hs
  unfold Chord.findSuccessor
  rw [hstop, hsucc]
  exact if_pos rfl

omit h in
/-- Where the finger is right before the identifier, the lookup returns the successor of
the finger. -/
theorem findSuccessor_of_next {f : Address} (hf : n.findClosetPredecessor a id = f) (hne : f ≠ a)
    (hk : net.lookup f = some k) (hs : s ∈ k.successors.head?) (hid : id = (hash f + 1) % hashMod) :
    Chord.findSuccessor net a n id = .ok s := by
  obtain ⟨tail, hsucc⟩ := List.head?_eq_some_iff.mp hs
  have hbetween : between (hash f) id (hash s) true = true := by
    have hlt : id < hashMod := hid ▸ Nat.mod_lt _ (by decide)
    rw [between_true_iff (hash_lt f) hlt (hash_lt s), hid, Circle.arc_succ (hash_lt f) (by decide)]
    exact Circle.arc_pos (hash_lt f) (hash_lt s)
  have hlist : (callGetSuccessorList net f).getD [] = s :: tail := by
    unfold callGetSuccessorList
    rw [hk, Option.bind_some, hsucc]
    rfl
  unfold Chord.findSuccessor
  dsimp only
  rw [hf, if_neg hne, findSuccessorLoop, hlist]
  exact if_pos hbetween

/-- A node that is in its own finger table is its last entry. -/
theorem getElem?_keySize (hn : net.lookup a = some n) (hf : a ∈ n.fingers) :
    n.fingerTable[keySize]? = some a := by
  obtain ⟨i, hi, hai⟩ := mem_fingers.mp hf
  obtain ⟨i, rfl⟩ := Nat.exists_eq_add_of_le' hi
  have hlt : i < keySize := Nat.lt_of_succ_lt_succ (Vector.getElem?_eq_some_iff.mp hai).1
  obtain ⟨a', ha', howner⟩ := h.finger a n hn i hlt
  obtain rfl : a' = a := Option.some.inj (ha'.symm.trans hai)
  obtain ⟨f, hlast, howner'⟩ := h.finger a' n hn (keySize - 1) (by decide)
  have hid := h.lt a' n hn
  -- it owns its last target too, which comes after the one that it is found for
  have hgap : Circle.gap hashMod (fingerTarget n.id (i + 1)) (fingerTarget n.id keySize) ≤
      Circle.gap hashMod (fingerTarget n.id (i + 1)) (nodeId net a') := by
    rw [nodeId_eq hn]
    exact Circle.gap_add_le hid (Nat.two_pow_pos i)
      (Nat.pow_le_pow_right Nat.two_pos (Nat.le_sub_one_of_lt hlt)) (by decide)
  have hself : OwnerById net (fingerTarget n.id keySize) a' :=
    howner.of_gap_le h.placed (Nat.mod_lt _ (by decide)) (Nat.mod_lt _ (by decide)) hgap
  rw [howner'.unique h.placed (Nat.mod_lt _ (by decide)) hself] at hlast
  exact hlast

/-- So it is found first. -/
theorem findClosetPredecessor_self (hn : net.lookup a = some n) (hf : a ∈ n.fingers)
    (hbetween : between n.id (hash a) id false = true) : n.findClosetPredecessor a id = a := by
  have hne : a ≠ "" := by
    rintro rfl
    exact h.ne_empty (mem_of_lookup hn)
  have hhead : n.fingers.reverse.head? = some a := by
    rw [List.head?_reverse, List.getLast?_eq_getElem?, Node.fingers, List.getElem?_tail,
      List.length_tail, Vector.length_toList, Vector.getElem?_toList]
    exact h.getElem?_keySize hn hf
  obtain ⟨rest, hrest⟩ := List.head?_eq_some_iff.mp hhead
  unfold Node.findClosetPredecessor
  rw [hrest, List.find?_cons_of_pos]
  · rfl
  · simp [hne, hbetween]

/-- Where no finger is on the way to the identifier, the lookup returns the successor. -/
theorem findSuccessor_of_arc_le (hn : net.lookup a = some n) (hs : s ∈ n.successors.head?)
    (hid : id < hashMod)
    (hle : ∀ f ∈ n.fingers, Circle.arc hashMod n.id id ≤ Circle.arc hashMod n.id (hash f)) :
    Chord.findSuccessor net a n id = .ok s := by
  refine findSuccessor_of_none hs ?_
  rcases findClosetPredecessor_cases n a id with ⟨f, hf, -, -, hbetween⟩ | ⟨hstop, -⟩
  · rw [between_false_iff (h.lt a n hn) (hash_lt f) hid] at hbetween
    exact absurd (hle f hf) (not_le.mpr hbetween)
  · exact hstop

/-- Right after the first of the fingers by their hashes, one with its hash is found. -/
theorem exists_closest (hn : net.lookup a = some n) {f : Address} (hf : f ∈ n.fingers)
    (hlt : Circle.arc hashMod n.id (hash f) < hashMod)
    (hmin : ∀ g ∈ n.fingers, Circle.arc hashMod n.id (hash f) ≤ Circle.arc hashMod n.id (hash g)) :
    ∃ g ∈ n.fingers, n.findClosetPredecessor a ((hash f + 1) % hashMod) = g ∧ hash g = hash f := by
  have hid := h.lt a n hn
  have hq : (hash f + 1) % hashMod < hashMod := Nat.mod_lt _ (by decide)
  have harc := Circle.arc_succ_right hid (hash_lt f) hlt
  rcases findClosetPredecessor_cases n a ((hash f + 1) % hashMod) with
    ⟨g, hg, heq, -, hbetween⟩ | ⟨-, hnone⟩
  · rw [between_false_iff hid (hash_lt g) hq, harc, Nat.lt_succ_iff] at hbetween
    refine ⟨g, hg, heq, Circle.arc_inj hid (hash_lt g) (hash_lt f) ?_⟩
    exact Nat.le_antisymm hbetween (hmin g hg)
  · have hne : f ≠ "" := by
      rintro rfl
      exact h.ne_empty (h.finger_mem hn hf)
    have hbetween := hnone f hf hne
    rw [← Bool.not_eq_true, between_false_iff hid (hash_lt f) hq, harc] at hbetween
    exact absurd (Nat.lt_succ_self _) hbetween

section Hash

variable (hfind : ∀ a n, net.lookup a = some n → ∀ id < hashMod,
  ∃ m, Chord.findSuccessor net a n id = .ok m ∧ OwnerById net id m)
include hfind

omit h in
theorem owner_of_findSuccessor (hn : net.lookup a = some n) (hid : id < hashMod)
    (hm : Chord.findSuccessor net a n id = .ok m) : OwnerById net id m := by
  obtain ⟨m', hm', howner⟩ := hfind a n hn id hid
  rw [hm, Except.ok.injEq] at hm'
  rwa [hm']

/-- A node owns its own identifier, so the lookup of that does not return another. -/
theorem findSuccessor_id_ne (hn : net.lookup a = some n) (hne : s ≠ a) :
    Chord.findSuccessor net a n n.id ≠ .ok s := by
  intro hs
  have hid := h.lt a n hn
  have howns : OwnerById net (nodeId net a) a :=
    Circle.owns_pos (mem_members.mpr (mem_of_lookup hn)) (by rw [nodeId_eq hn]; exact hid)
  rw [nodeId_eq hn] at howns
  exact hne ((owner_of_findSuccessor hfind hn hid hs).unique h.placed hid howns)

/-- The first of the fingers by their hashes is on the way round, and no such finger is
the node itself. -/
theorem exists_first_finger (hn : net.lookup a = some n) (hs : s ∈ n.successors.head?)
    (hne : s ≠ a) : ∃ f ∈ n.fingers, Circle.arc hashMod n.id (hash f) < hashMod ∧
      (∀ g ∈ n.fingers, Circle.arc hashMod n.id (hash f) ≤ Circle.arc hashMod n.id (hash g)) ∧
      ∀ g ∈ n.fingers, hash g = hash f → g ≠ a := by
  have hid := h.lt a n hn
  have hself := h.findSuccessor_id_ne hfind hn hne
  obtain ⟨f₀, hf₀, hlt₀⟩ : ∃ f ∈ n.fingers, Circle.arc hashMod n.id (hash f) < hashMod := by
    by_contra hnone
    refine hself (h.findSuccessor_of_arc_le hn hs hid fun f hf => ?_)
    rw [Circle.arc_self]
    exact not_lt.mp fun hlt => hnone ⟨f, hf, hlt⟩
  obtain ⟨f, hf, hmin⟩ := n.fingers.toFinset.exists_min_image
    (fun f => Circle.arc hashMod n.id (hash f)) ⟨f₀, List.mem_toFinset.mpr hf₀⟩
  have hlt := Nat.lt_of_le_of_lt (hmin f₀ (List.mem_toFinset.mpr hf₀)) hlt₀
  refine ⟨f, List.mem_toFinset.mp hf, hlt, fun g hg => hmin g (List.mem_toFinset.mpr hg), ?_⟩
  rintro g hg hhash rfl
  -- else it would be found for its own identifier
  refine hself (findSuccessor_of_none hs (h.findClosetPredecessor_self hn hg ?_))
  rw [between_false_iff hid (hash_lt g) hid, Circle.arc_self, hhash]
  exact hlt

/-- **Lookups are right only if the identifiers are the hashes**, where there are at least
two nodes: the node before `x` can tell. -/
theorem id_eq_hash (hcard : (members net).card ≠ 1) (hk : net.lookup x = some k) :
    k.id = hash x := by
  have hS := h.placed
  have hx := mem_members.mpr (mem_of_lookup hk)
  obtain ⟨hmem, hnext⟩ := h.predecessor x k hk
  generalize k.predecessor = a at hmem hnext
  have ha := mem_members.mpr hmem
  obtain ⟨n, hn⟩ := exists_lookup hmem
  obtain ⟨s, hs, hnext'⟩ := h.successor a n hn
  obtain rfl : s = x := hnext'.unique hS ha hnext
  have hne : s ≠ a := by
    rintro rfl
    exact hcard (by rw [hnext.eq_singleton hS ha, Finset.card_singleton])
  obtain ⟨f, hf, hlt, hmin, hother⟩ := h.exists_first_finger hfind hn hs hne
  -- no finger comes before it, and so the successor owns its hash
  have howner := owner_of_findSuccessor hfind hn (hash_lt f)
    (h.findSuccessor_of_arc_le hn hs (hash_lt f) hmin)
  -- the next point is looked up at a finger with this hash
  have hq : (hash f + 1) % hashMod < hashMod := Nat.mod_lt _ (by decide)
  obtain ⟨g, hg, hclosest, hhash⟩ := h.exists_closest hn hf hlt hmin
  have hga := hother g hg hhash
  have hgnet := h.finger_mem hn hg
  obtain ⟨k', hk'⟩ := exists_lookup hgnet
  obtain ⟨y, hy, hnexty⟩ := h.successor g k' hk'
  have howner' := owner_of_findSuccessor hfind hn hq
    (findSuccessor_of_next hclosest hga hk' hy (by rw [hhash]))
  by_cases hxf : k.id = hash f
  · -- the finger is the successor
    rw [← hxf, ← nodeId_eq hk] at howner'
    have hnext₂ := (Circle.follows_iff_owns hS hx (by decide)).mpr howner'
    rw [hxf, ← hhash, hnexty.left_unique hS (mem_members.mpr hgnet) hx hnext₂]
  · -- else the successor also comes next after the finger
    have howner₂ := howner.succ hS (hash_lt f) (by rwa [nodeId_eq hk])
    obtain rfl := howner'.unique hS hq howner₂
    exact absurd (hnexty.left_unique hS (mem_members.mpr hgnet) ha hnext) hga

end Hash

/-! ### When identifiers work -/

section Hash

variable (hid : ∀ a n, net.lookup a = some n → n.id = hash a)
include hid

omit h in
theorem nodeId_eq_hash : ∀ a ∈ members net, nodeId net a = hash a := by
  intro a ha
  obtain ⟨n, hn⟩ := exists_lookup (mem_members.mp ha)
  rw [nodeId_eq hn, hid a n hn]

/-- If the identifiers are the hashes, the ring is stabilised. -/
theorem stabilised : Stabilised net := by
  have hpos := nodeId_eq_hash hid
  refine ⟨⟨⟨⟨h.ne_empty, hid, fun a ha b hb heq => h.inj a ha b hb ?_⟩, fun a n hn => ?_,
    fun a n hn f hf _ => h.finger_mem hn hf⟩, fun a ha i hi hi' => ?_⟩, fun a n hn => ?_⟩
  · rw [hpos a (mem_members.mpr ha), hpos b (mem_members.mpr hb), heq]
  · obtain ⟨s, hs, hnext⟩ := h.successor a n hn
    exact ⟨s, hs, hnext.congr hpos (mem_members.mpr (mem_of_lookup hn))⟩
  · obtain ⟨n, hn⟩ := exists_lookup ha
    obtain ⟨i, rfl⟩ := Nat.exists_eq_add_of_le' hi
    obtain ⟨f, hf, howner⟩ := h.finger a n hn i hi'
    exact ⟨n, hn, f, hf, howner.congr hpos⟩
  · obtain ⟨hmem, hnext⟩ := h.predecessor a n hn
    exact ⟨hmem, hnext.congr hpos (mem_members.mpr hmem)⟩

/-- Hashes work, if no lookup gives up. -/
theorem works_of_hash (harrives : ∀ a ∈ net, ∀ id < hashMod, Arrives net id a) : Works net := by
  have hring := h.stabilised hid
  have hpos := nodeId_eq_hash hid
  refine ⟨fun a n hn id hlt => ?_, fun a ha b k hb => ?_⟩
  · have ha := mem_of_lookup hn
    have howner := owner_ownerOf ha id
    exact ⟨_, hring.findSuccessor_eq hn hlt (harrives a ha id hlt) howner,
      howner.congr fun m hm => (hpos m hm).symm⟩
  · obtain ⟨n, hn⟩ := exists_lookup ha
    obtain ⟨s, hs, -⟩ := h.successor a n hn
    refine h.stabilize_kept hn hs (.inr ?_) hb
    rw [hid a n hn]
    exact between_self _ _

end Hash

/-- A node that is alone works with every identifier. -/
theorem works_of_card (hcard : (members net).card = 1) : Works net := by
  have honly : ∀ {a b}, a ∈ net → b ∈ net → b = a := fun {a b} ha hb =>
    Finset.card_le_one.mp hcard.le b (mem_members.mpr hb) a (mem_members.mpr ha)
  refine ⟨fun a n hn id _ => ?_, fun a ha b k hb => ?_⟩
  · have ha := mem_of_lookup hn
    obtain ⟨s, hs, hnext⟩ := h.successor a n hn
    obtain rfl := honly ha (mem_members.mp hnext.1)
    refine ⟨s, findSuccessor_of_none hs ?_, hnext.1, fun m hm => ?_⟩
    · rcases findClosetPredecessor_cases n s id with ⟨f, hf, heq, -⟩ | ⟨hstop, -⟩
      · rw [heq, honly ha (h.finger_mem hn hf)]
      · exact hstop
    · rw [honly ha (mem_members.mp hm)]
  · obtain ⟨n, hn⟩ := exists_lookup ha
    obtain ⟨s, hs, hnext⟩ := h.successor a n hn
    exact h.stabilize_kept hn hs (.inl (honly ha (mem_members.mp hnext.1))) hb

/-- **When given identifiers work**: where the node is alone, or all of them are the hashes
of the addresses and no lookup gives up. -/
theorem works_iff : Works net ↔ (members net).card = 1 ∨
    (∀ a n, net.lookup a = some n → n.id = hash a) ∧
      ∀ a ∈ net, ∀ id < hashMod, Arrives net id a := by
  constructor
  · intro hworks
    refine or_iff_not_imp_left.mpr fun hcard => ?_
    have hid : ∀ a n, net.lookup a = some n → n.id = hash a := fun a n hn =>
      h.id_eq_hash hworks.findSuccessor hcard hn
    refine ⟨hid, fun a ha id hlt => ?_⟩
    obtain ⟨n, hn⟩ := exists_lookup ha
    obtain ⟨m, hm, -⟩ := hworks.findSuccessor a n hn id hlt
    exact ((h.stabilised hid).findSuccessor_ok_iff hn hlt).mp ⟨m, hm⟩
  · rintro (hcard | ⟨hid, harrives⟩)
    · exact h.works_of_card hcard
    · exact h.works_of_hash hid harrives

end Ordered

/-! ### Two nodes -/

/-- All pointers of the node lead to `other`. -/
def pairedNode (id : ℕ) (other : Address) : Node where
  id := id
  predecessor := other
  successors := [other]
  fingerTable := Vector.replicate (keySize + 1) other
  bucket := ∅
  numberOfSuccessors := 1

/-- Two nodes that are half a turn apart. -/
def twoNodes : Network :=
  Table.ofList [("10.0.0.1:3410", pairedNode 0 "10.0.0.4:3410"),
    ("10.0.0.4:3410", pairedNode (2 ^ 159) "10.0.0.1:3410")]

instance : Decidable (Ordered net) :=
  decidable_of_iff
    (("" ∉ net ∧ (∀ e ∈ net.entries, e.2.id < hashMod) ∧
      (∀ a ∈ members net, ∀ b ∈ members net, nodeId net a = nodeId net b → a = b) ∧
      ∀ e ∈ net.entries, 1 ≤ e.2.numberOfSuccessors) ∧
      (∀ e ∈ net.entries, ∃ s ∈ e.2.successors.head?, NextById net e.1 s) ∧
      (∀ e ∈ net.entries, e.2.predecessor ∈ net ∧ NextById net e.2.predecessor e.1) ∧
      ∀ e ∈ net.entries, ∀ i < keySize,
        ∃ f ∈ e.2.fingerTable[i + 1]?, OwnerById net (fingerTarget e.2.id (i + 1)) f) <| by
    rw [← forall_lookup_iff (P := fun _ n => n.id < hashMod),
      ← forall_lookup_iff (P := fun _ n => 1 ≤ n.numberOfSuccessors),
      ← forall_lookup_iff (P := fun a n => ∃ s ∈ n.successors.head?, NextById net a s),
      ← forall_lookup_iff (P := fun a n => n.predecessor ∈ net ∧ NextById net n.predecessor a),
      ← forall_lookup_iff (P := fun _ n => ∀ i < keySize,
        ∃ f ∈ n.fingerTable[i + 1]?, OwnerById net (fingerTarget n.id (i + 1)) f)]
    simp only [mem_members]
    exact ⟨fun ⟨⟨h₁, h₂, h₃, h₄⟩, h₅, h₆, h₇⟩ => ⟨h₁, h₂, h₃, h₄, h₅, h₆, h₇⟩,
      fun h => ⟨⟨h.ne_empty, h.lt, h.inj, h.numberOfSuccessors⟩, h.successor, h.predecessor,
        h.finger⟩⟩

theorem ordered_twoNodes : Ordered twoNodes := by decide +kernel

theorem works_iff_twoNodes : Works twoNodes ↔ (members twoNodes).card = 1 ∨
    (∀ a n, twoNodes.lookup a = some n → n.id = hash a) ∧
      ∀ a ∈ twoNodes, ∀ id < hashMod, Arrives twoNodes id a :=
  ordered_twoNodes.works_iff

/-- **Given identifiers do not work**: the first node takes itself for the owner of an
identifier that the other one owns, and the `stabilize` of the other one changes its
first successor to itself. -/
theorem not_works : Ordered twoNodes ∧
    (∃ n ∈ twoNodes.lookup "10.0.0.1:3410",
      findSuccessor twoNodes "10.0.0.1:3410" n (hash "10.0.0.4:3410" + 1) = .ok "10.0.0.1:3410" ∧
        OwnerById twoNodes (hash "10.0.0.4:3410" + 1) "10.0.0.4:3410" ∧
        ¬ OwnerById twoNodes (hash "10.0.0.4:3410" + 1) "10.0.0.1:3410") ∧
    ∃ n ∈ (stabilize twoNodes "10.0.0.4:3410").lookup "10.0.0.4:3410",
      n.successors = ["10.0.0.4:3410"] := by
  refine ⟨ordered_twoNodes, ?_⟩
  decide +kernel

end ExchangeLabs.Chord
