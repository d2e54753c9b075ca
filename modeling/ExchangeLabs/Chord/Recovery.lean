import ExchangeLabs.Chord.Lists

/-!
# The ring recovers from failures

Some nodes of an ideal ring crash at once, but every node that is left has one of these in
its list.  The first of them in the list is the next one, so when every node has
stabilized, the first successors are right; what `stabilize` finds of crashed
predecessors it drops again, as they do not answer.  Then the nodes forget their crashed
predecessors, and at the next `stabilize` they are told the new ones.

## Main definitions

* `survivors net dead` — what is left of the network.
* `Reaching old live net` — while the first successors recover.
* `Headed live net` — when they have, and the predecessors do.

## Main results

* `stabilize_skip` — `stabilize` goes past the nodes at the front that have crashed.
* `stabilize_stays` — it does not take on a predecessor that has crashed.
* `recovery` — **first successors and predecessors are right after three rounds.**
-/

namespace ExchangeLabs.Chord

variable {old live net : Network} {a b d s : Address} {n m : Node} {pre tail : List Address}

/-! ### `stabilize` among crashed nodes -/

theorem isSome_callGetPredecessor : (callGetPredecessor net a).isSome ↔ a ∈ net := by
  unfold callGetPredecessor
  rw [Option.isSome_map, AList.lookup_isSome]

/-- The first entry that answers. -/
theorem findIdx?_successors (tail : List Address) (hdead : ∀ d ∈ pre, d ∉ net) (hs : s ∈ net) :
    (pre ++ s :: tail).findIdx? (fun b => (callGetPredecessor net b).isSome) = some pre.length := by
  induction pre with
  | nil =>
    rw [List.nil_append, List.findIdx?_cons, if_pos (isSome_callGetPredecessor.mpr hs)]
    rfl
  | cons d pre ih =>
    have hd : ¬ (callGetPredecessor net d).isSome := fun hsome =>
      hdead d List.mem_cons_self (isSome_callGetPredecessor.mp hsome)
    rw [List.cons_append, List.findIdx?_cons, if_neg hd,
      ih fun d' hd' => hdead d' (List.mem_cons_of_mem d hd')]
    rfl

/-- **The nodes at the front that have crashed are dropped** first of all. -/
theorem stabilize_skip (hn : net.lookup a = some n) (hsucc : n.successors = pre ++ s :: tail)
    (hdead : ∀ d ∈ pre, d ∉ net) (hs : s ∈ net) :
    stabilize net a =
      stabilize (Table.modify a (fun v => { v with successors := s :: tail }) net) a := by
  have hne : pre ++ s :: tail ≠ [] := by simp
  have hgetD : (pre ++ s :: tail).getD pre.length "" = s := by
    rw [List.getD_eq_getElem?_getD, List.getElem?_append_right le_rfl, Nat.sub_self]
    rfl
  -- nothing is cut off where the first node is alive
  have htrim : (if pre.length > 0 then
      Table.modify a (fun n =>
        if pre.length < n.successors.length then
          { n with successors := n.successors.drop pre.length }
        else n) net
      else net) = Table.modify a (fun v => { v with successors := s :: tail }) net := by
    split
    · refine Table.modify_congr fun v hv => ?_
      rw [hn, Option.some.injEq] at hv
      subst hv
      rw [hsucc, if_pos (by simp), List.drop_left]
    · next hpos =>
      have hnil : pre = [] := List.eq_nil_of_length_eq_zero (Nat.eq_zero_of_not_pos hpos)
      subst hnil
      refine (Table.modify_eq_self fun v hv => ?_).symm
      rw [hn, Option.some.injEq] at hv
      subst hv
      rw [← List.nil_append (s :: tail), ← hsucc]
  have hs' : s ∈ Table.modify a (fun v => { v with successors := s :: tail }) net :=
    Table.mem_modify.mpr hs
  conv_lhs => unfold stabilize
  conv_rhs => unfold stabilize
  rw [hn, Table.lookup_modify_self, hn, Option.map_some]
  dsimp only
  rw [hsucc, if_neg hne, findIdx?_successors tail hdead hs, if_neg (List.cons_ne_nil s tail)]
  have hfirst := findIdx?_successors tail (List.forall_mem_nil _) hs'
  rw [List.nil_append, List.length_nil] at hfirst
  rw [hfirst]
  dsimp only
  rw [htrim, hgetD, if_neg (Nat.lt_irrefl 0), List.getD_cons_zero]

/-- **A predecessor that has crashed is not taken on**, as it does not answer. -/
theorem stabilize_stays (hn : net.lookup a = some n) (hsucc : n.successors = s :: tail)
    (hm : net.lookup s = some m) (hdead : m.predecessor ∉ net)
    (hbetween : m.predecessor ≠ "" ∧ between n.id (hash m.predecessor) (hash s) false) :
    stabilize net a = net := by
  have hget : callGetPredecessor net s = some m.predecessor := by
    unfold callGetPredecessor
    rw [hm]
    rfl
  have hfirst := findIdx?_successors tail (List.forall_mem_nil _) (mem_of_lookup hm)
  rw [List.nil_append, List.length_nil] at hfirst
  have hnone := AList.lookup_eq_none.mpr hdead
  have hnotify : callNotify net m.predecessor a = net := Table.modify_of_lookup_eq_none _ hnone
  have hlist : callGetSuccessorList net m.predecessor = none := by
    unfold callGetSuccessorList
    rw [hnone]
    rfl
  unfold stabilize
  rw [hn]
  dsimp only
  rw [hsucc, if_neg (List.cons_ne_nil s tail), hfirst]
  dsimp only
  rw [if_neg (Nat.lt_irrefl 0), List.getD_cons_zero, hget]
  dsimp only
  rw [if_pos hbetween, hnotify, hlist]

/-! ### The first successors -/

/-- The first node of every list that is left is the next one; the predecessors are those of
the ring as it was.  The nodes that are left are those of `live`. -/
structure Reaching (old live net : Network) : Prop extends Identified net where
  members_eq : members net = members live
  next : ∀ a n, net.lookup a = some n → ∃ pre s tail, n.successors = pre ++ s :: tail ∧
    (∀ d ∈ pre, d ∉ net) ∧ Next live a s
  predecessor : ∀ a n, net.lookup a = some n → n.predecessor ∈ old ∧ Next old n.predecessor a
  numberOfSuccessors : ∀ a n, net.lookup a = some n → 1 ≤ n.numberOfSuccessors

/-- The first successor of the node at `a` is the next one. -/
def HeadRight (live : Network) (a : Address) (net : Network) : Prop :=
  ∀ n, net.lookup a = some n → ∃ s, n.successors.head? = some s ∧ Next live a s

theorem mem_iff_of_members_eq {net net' : Network} (h : members net = members net') :
    a ∈ net ↔ a ∈ net' := by
  rw [← mem_members, h, mem_members]

namespace Reaching

variable (hold : Identified old) (hsub : ∀ a ∈ live, a ∈ old) (h : Reaching old live net)
include hold hsub h

/-- The predecessor of the next node is the node itself, or it has crashed and lies between
the two. -/
theorem predecessor_cases (ha : a ∈ net) (hnext : Next live a s) (hm : net.lookup s = some m) :
    m.predecessor = a ∨ m.predecessor ∉ net ∧ m.predecessor ≠ "" ∧
      between (hash a) (hash m.predecessor) (hash s) false = true := by
  obtain ⟨hmem, hpred⟩ := h.predecessor s m hm
  have haLive := (mem_iff_of_members_eq h.members_eq).mp ha
  have hsLive := (mem_iff_of_members_eq h.members_eq).mp (mem_of_lookup hm)
  have hsubset : members live ⊆ members old := fun b hb =>
    mem_members.mpr (hsub b (mem_members.mp hb))
  by_cases hp : m.predecessor ∈ net
  · have hpLive := mem_members.mpr ((mem_iff_of_members_eq h.members_eq).mp hp)
    have hnext' : Next live m.predecessor s := hpred.mono hsubset (mem_members.mpr hsLive)
    refine .inl (hnext'.left_unique ?_ hpLive (mem_members.mpr haLive) hnext)
    exact ⟨fun b _ => hash_lt b, fun b hb c hc => hold.placed.inj b (hsubset hb) c (hsubset hc)⟩
  · refine .inr ⟨hp, fun hempty => hold.ne_empty (hempty ▸ hmem), ?_⟩
    have hne : a ≠ m.predecessor := by
      rintro rfl
      exact hp ha
    rw [between_false_iff (hash_lt a) (hash_lt _) (hash_lt s)]
    exact hpred.arc_lt hold.placed (mem_members.mpr hmem) (mem_members.mpr (hsub a haLive)) hne

/-- **`stabilize` puts the next node first**, and changes nothing but the list. -/
theorem stabilize_eq (hn : net.lookup a = some n) :
    ∃ s rest, Next live a s ∧
      stabilize net a = Table.modify a (fun v => { v with successors := s :: rest }) net := by
  obtain ⟨pre, s, tail, hsucc, hdead, hnext⟩ := h.next a n hn
  have hs : s ∈ net := (mem_iff_of_members_eq h.members_eq).mpr (mem_members.mp hnext.1)
  obtain ⟨m, hm⟩ := exists_lookup hs
  rw [stabilize_skip hn hsucc hdead hs]
  generalize hnet₁ : Table.modify a (fun v => { v with successors := s :: tail }) net = net₁
  have hn₁ : net₁.lookup a = some { n with successors := s :: tail } := by
    rw [← hnet₁, Table.lookup_modify_self, hn]
    rfl
  obtain ⟨m₁, hm₁, hpred₁, hne₁⟩ : ∃ m₁, net₁.lookup s = some m₁ ∧
      m₁.predecessor = m.predecessor ∧ m₁.successors ≠ [] := by
    rw [← hnet₁, Table.lookup_modify, hm]
    split
    · exact ⟨_, rfl, rfl, List.cons_ne_nil s tail⟩
    · obtain ⟨pre', s', tail', hsucc', -⟩ := h.next s m hm
      exact ⟨m, rfl, rfl, by rw [hsucc']; simp⟩
  rcases h.predecessor_cases hold hsub (mem_of_lookup hn) hnext hm with
    hback | ⟨hcrashed, hne, hbetween⟩
  · -- the successor points back, and its list is copied
    have hident : Identified net₁ := by
      rw [← hnet₁]
      exact h.toIdentified.modify fun v => rfl
    have hcopy := stabilize_of_ideal hident hn₁ rfl hm₁ (hpred₁.trans hback) hne₁
      (h.numberOfSuccessors a n hn)
    rw [← hnet₁, Table.modify_modify] at hcopy
    exact ⟨s, _, hnext, hnet₁ ▸ hcopy⟩
  · refine ⟨s, tail, hnext, ?_⟩
    rw [← hnet₁] at hn₁ hm₁ ⊢
    refine stabilize_stays hn₁ rfl hm₁ ?_ ?_
    · rw [hpred₁, Table.mem_modify]
      exact hcrashed
    · rw [hpred₁, h.id_eq a n hn]
      exact ⟨hne, hbetween⟩

theorem stabilize (a : Address) :
    Reaching old live (Chord.stabilize net a) ∧ HeadRight live a (Chord.stabilize net a) ∧
      ∀ b, HeadRight live b net → HeadRight live b (Chord.stabilize net a) := by
  by_cases ha : a ∈ net
  swap
  · rw [stabilize_of_notMem ha]
    refine ⟨h, fun n hn => ?_, fun b hb => hb⟩
    exact absurd (mem_of_lookup hn) ha
  obtain ⟨n, hn⟩ := exists_lookup ha
  obtain ⟨s, rest, hnext, heq⟩ := h.stabilize_eq hold hsub hn
  rw [heq]
  refine ⟨⟨h.toIdentified.modify fun v => rfl, (members_modify _ _ _).trans h.members_eq,
    fun b v' hv' => ?_, Table.forall_lookup_modify h.predecessor fun _ _ hpred => hpred,
    Table.forall_lookup_modify h.numberOfSuccessors fun _ _ hnumber => hnumber⟩,
    fun v' hv' => ?_, fun b hb v' hv' => ?_⟩
  · obtain ⟨v, hv, rfl⟩ := Table.exists_of_lookup_modify hv'
    split
    · next hba =>
      exact ⟨[], s, rest, rfl, fun d hd => absurd hd List.not_mem_nil, hba ▸ hnext⟩
    · obtain ⟨pre, s', tail, hsucc, hdead, hnext'⟩ := h.next b v hv
      exact ⟨pre, s', tail, hsucc, fun d hd hmem => hdead d hd (Table.mem_modify.mp hmem), hnext'⟩
  · obtain ⟨v, hv, rfl⟩ := Table.exists_of_lookup_modify hv'
    rw [if_pos rfl]
    exact ⟨s, rfl, hnext⟩
  · obtain ⟨v, hv, rfl⟩ := Table.exists_of_lookup_modify hv'
    split
    · next hba => exact ⟨s, rfl, hba ▸ hnext⟩
    · exact hb v hv

end Reaching

/-! ### The predecessors -/

/-- The first successors are right; so are the predecessors that have not crashed. -/
structure Headed (live net : Network) : Prop extends Identified net where
  members_eq : members net = members live
  head : ∀ a, HeadRight live a net
  predecessor : ∀ a n, net.lookup a = some n → n.predecessor ∈ net → Next live n.predecessor a
  numberOfSuccessors : ∀ a n, net.lookup a = some n → 1 ≤ n.numberOfSuccessors

/-- The node at `a` has no predecessor that has crashed. -/
def Cleared (a : Address) (net : Network) : Prop :=
  ∀ n, net.lookup a = some n → n.predecessor = "" ∨ n.predecessor ∈ net

/-- The node after the one at `a` has that as its predecessor. -/
def Told (live : Network) (a : Address) (net : Network) : Prop :=
  ∀ s m, a ∈ net → Next live a s → net.lookup s = some m → m.predecessor = a

theorem Reaching.headed (h : Reaching old live net) (hsub : ∀ a ∈ live, a ∈ old)
    (hhead : ∀ a ∈ net, HeadRight live a net) : Headed live net where
  toIdentified := h.toIdentified
  members_eq := h.members_eq
  head a n hn := hhead a (mem_of_lookup hn) n hn
  predecessor a n hn hp := by
    have hsubset : members live ⊆ members old := fun b hb =>
      mem_members.mpr (hsub b (mem_members.mp hb))
    refine (h.predecessor a n hn).2.mono hsubset ?_
    rw [← h.members_eq]
    exact mem_members.mpr (mem_of_lookup hn)
  numberOfSuccessors := h.numberOfSuccessors

namespace Headed

variable (h : Headed live net)
include h

/-- **`checkPredecessor` forgets a predecessor that has crashed**, and nothing else. -/
theorem checkPredecessor (a : Address) :
    Headed live (Chord.checkPredecessor net a) ∧ Cleared a (Chord.checkPredecessor net a) ∧
      ∀ b, Cleared b net → Cleared b (Chord.checkPredecessor net a) := by
  unfold Chord.checkPredecessor
  cases hn : net.lookup a with
  | none =>
    dsimp only
    refine ⟨h, fun n hn' => ?_, fun b hb => hb⟩
    rw [hn] at hn'
    cases hn'
  | some n =>
    dsimp only
    split
    · next hempty =>
      refine ⟨h, fun v hv => ?_, fun b hb => hb⟩
      rw [hn, Option.some.injEq] at hv
      exact .inl (hv ▸ hempty)
    split
    · next hmem =>
      refine ⟨h, fun v hv => ?_, fun b hb => hb⟩
      rw [hn, Option.some.injEq] at hv
      exact .inr (hv ▸ hmem)
    · next hempty hcrashed =>
      have hset : Table.modify a (fun v =>
          if v.predecessor = n.predecessor then { v with predecessor := "" } else v) net =
          Table.modify a (fun v => { v with predecessor := "" }) net := by
        refine Table.modify_congr fun v hv => ?_
        rw [hn, Option.some.injEq] at hv
        rw [if_pos (hv ▸ rfl)]
      rw [hset]
      refine ⟨⟨h.toIdentified.modify fun v => rfl, (members_modify _ _ _).trans h.members_eq,
        Table.forall_lookup_modify h.head fun _ _ hhead => hhead, fun b v' hv' hp => ?_,
        Table.forall_lookup_modify h.numberOfSuccessors fun _ _ hnumber => hnumber⟩,
        fun v' hv' => ?_, fun b hb v' hv' => ?_⟩
      · obtain ⟨v, hv, rfl⟩ := Table.exists_of_lookup_modify hv'
        rw [Table.mem_modify] at hp
        split at hp
        · exact absurd hp h.ne_empty
        · next hba =>
          rw [if_neg hba]
          exact h.predecessor b v hv hp
      · obtain ⟨v, hv, rfl⟩ := Table.exists_of_lookup_modify hv'
        rw [if_pos rfl]
        exact .inl rfl
      · obtain ⟨v, hv, rfl⟩ := Table.exists_of_lookup_modify hv'
        split
        · exact .inl rfl
        · exact (hb v hv).imp_right Table.mem_modify.mpr

/-- **`stabilize` tells the next node**, where no predecessor has crashed. -/
theorem stabilize_eq (hlive : Identified live) (hclear : ∀ a, Cleared a net)
    (hn : net.lookup a = some n) :
    ∃ s rest, Next live a s ∧ stabilize net a =
      Table.modify a (fun v => { v with successors := s :: rest })
        (Table.modify s (fun v => { v with predecessor := a }) net) := by
  have ha := mem_of_lookup hn
  have hane : a ≠ "" := by
    rintro rfl
    exact h.ne_empty ha
  obtain ⟨s, hhead, hnext⟩ := h.head a n hn
  obtain ⟨tail, hsucc⟩ := List.head?_eq_some_iff.mp hhead
  obtain ⟨m, hm⟩ := exists_lookup
    ((mem_iff_of_members_eq h.members_eq).mpr (mem_members.mp hnext.1))
  -- the next node knows the node already, or nobody
  have hpred : m.predecessor = "" ∨ m.predecessor = a := by
    refine (hclear s m hm).imp_right fun hmem => ?_
    refine (h.predecessor s m hm hmem).left_unique hlive.placed ?_ ?_ hnext
    · rw [← h.members_eq]
      exact mem_members.mpr hmem
    · rw [← h.members_eq]
      exact mem_members.mpr ha
  have hsettled : (if m.predecessor ≠ "" ∧ between n.id (hash m.predecessor) (hash s) false then
      m.predecessor else s) = s := by
    rw [if_neg]
    rintro ⟨hne, hbetween⟩
    rw [hpred.resolve_left hne, h.id_eq a n hn, between_self] at hbetween
    cases hbetween
  have hnotify : callNotify net s a =
      Table.modify s (fun v => { v with predecessor := a }) net := by
    refine Table.modify_congr fun v hv => ?_
    rw [hm, Option.some.injEq] at hv
    subst hv
    rcases hpred with hnone | hback
    · unfold Node.notify
      rw [if_neg hane, if_pos hnone]
    · rw [notify_of_predecessor hane hback, ← hback]
  have hne : m.successors ≠ [] := by
    obtain ⟨s', hhead', -⟩ := h.head s m hm
    rintro hnil
    rw [hnil] at hhead'
    cases hhead'
  have heq := Chord.stabilize_eq hn hsucc hm hsettled hm hne (h.numberOfSuccessors a n hn)
  rw [hnotify] at heq
  exact ⟨s, _, hnext, heq⟩

theorem stabilize (hlive : Identified live) (hclear : ∀ a, Cleared a net) (a : Address) :
    (Headed live (Chord.stabilize net a) ∧ ∀ b, Cleared b (Chord.stabilize net a)) ∧
      Told live a (Chord.stabilize net a) ∧
      ∀ b, Told live b net → Told live b (Chord.stabilize net a) := by
  by_cases ha : a ∈ net
  swap
  · rw [stabilize_of_notMem ha]
    exact ⟨⟨h, hclear⟩, fun s m hmem => absurd hmem ha, fun b hb => hb⟩
  obtain ⟨n, hn⟩ := exists_lookup ha
  obtain ⟨s, rest, hnext, heq⟩ := h.stabilize_eq hlive hclear hn
  have hmembers : members (Chord.stabilize net a) = members net := by
    rw [heq, members_modify, members_modify]
  have hmem : ∀ b, b ∈ Chord.stabilize net a ↔ b ∈ net := fun b => mem_iff_of_members_eq hmembers
  -- what has become of a node
  have hnode : ∀ b v', (Chord.stabilize net a).lookup b = some v' → ∃ v, net.lookup b = some v ∧
      v'.predecessor = (if b = s then a else v.predecessor) ∧
      v'.successors = (if b = a then s :: rest else v.successors) ∧
      v'.numberOfSuccessors = v.numberOfSuccessors := by
    intro b v' hv'
    rw [heq] at hv'
    obtain ⟨w, hw, rfl⟩ := Table.exists_of_lookup_modify hv'
    obtain ⟨v, hv, rfl⟩ := Table.exists_of_lookup_modify hw
    refine ⟨v, hv, ?_⟩
    split_ifs <;> exact ⟨rfl, rfl, rfl⟩
  have hmine : ∀ b, b ∈ net → Next live b s → b = a := by
    intro b hb hnext'
    refine hnext'.left_unique hlive.placed ?_ ?_ hnext
    · rw [← h.members_eq]
      exact mem_members.mpr hb
    · rw [← h.members_eq]
      exact mem_members.mpr ha
  refine ⟨⟨⟨?_, hmembers.trans h.members_eq, fun b v' hv' => ?_, fun b v' hv' hp => ?_,
    fun b v' hv' => ?_⟩, fun b v' hv' => ?_⟩, fun s' m' _ hnext' hm' => ?_,
    fun b hb s' m' hb' hnext' hm' => ?_⟩
  · rw [heq]
    refine Identified.modify (Identified.modify h.toIdentified ?_) ?_
    · intro v
      rfl
    · intro v
      rfl
  · obtain ⟨v, hv, -, hsucc, -⟩ := hnode b v' hv'
    rw [hsucc]
    split
    · next hba => exact ⟨s, rfl, hba ▸ hnext⟩
    · exact h.head b v hv
  · obtain ⟨v, hv, hpred, -, -⟩ := hnode b v' hv'
    rw [hpred] at hp ⊢
    split at hp
    · next hbs =>
      rw [if_pos hbs, hbs]
      exact hnext
    · next hbs =>
      rw [if_neg hbs]
      exact h.predecessor b v hv ((hmem _).mp hp)
  · obtain ⟨v, hv, -, -, hnumber⟩ := hnode b v' hv'
    rw [hnumber]
    exact h.numberOfSuccessors b v hv
  · obtain ⟨v, hv, hpred, -, -⟩ := hnode b v' hv'
    rw [hpred]
    split
    · exact .inr ((hmem a).mpr ha)
    · exact (hclear b v hv).imp_right (hmem _).mpr
  · obtain ⟨v, hv, hpred, -, -⟩ := hnode s' m' hm'
    have hs' : s' = s := by
      refine hnext'.unique hlive.placed ?_ hnext
      rw [← h.members_eq]
      exact mem_members.mpr ha
    rw [hpred, if_pos hs']
  · obtain ⟨v, hv, hpred, -, -⟩ := hnode s' m' hm'
    have hbnet := (hmem b).mp hb'
    rw [hpred]
    split
    · next hs' => exact (hmine b hbnet (hs' ▸ hnext')).symm
    · exact hb s' v hbnet hnext' hv

end Headed

/-! ### One round after the other -/

section Rounds

variable {round : List Address} (hround : ∀ a ∈ live, a ∈ round)
include hround

/-- After a round of `stabilize` the first successors are right. -/
theorem Reaching.round_stabilize (hold : Identified old) (hsub : ∀ a ∈ live, a ∈ old)
    (h : Reaching old live net) : Headed live (round.foldl Chord.stabilize net) := by
  obtain ⟨h', hhead⟩ := foldl_round (I := Reaching old live) (D := HeadRight live)
    (fun net a hinv => (hinv.stabilize hold hsub a).1)
    (fun net a hinv => (hinv.stabilize hold hsub a).2.1)
    (fun net a b hinv => (hinv.stabilize hold hsub a).2.2 b) round net h
  refine h'.headed hsub fun a ha => hhead a (.inl (hround a ?_))
  exact (mem_iff_of_members_eq h'.members_eq).mp ha

/-- After a round of `checkPredecessor` no predecessor has crashed. -/
theorem Headed.round_checkPredecessor (h : Headed live net) :
    Headed live (round.foldl Chord.checkPredecessor net) ∧
      ∀ a, Cleared a (round.foldl Chord.checkPredecessor net) := by
  obtain ⟨h', hclear⟩ := foldl_round (I := Headed live) (D := Cleared)
    (fun net a hinv => (hinv.checkPredecessor a).1)
    (fun net a hinv => (hinv.checkPredecessor a).2.1)
    (fun net a b hinv => (hinv.checkPredecessor a).2.2 b) round net h
  refine ⟨h', fun a n hn => hclear a (.inl (hround a ?_)) n hn⟩
  exact (mem_iff_of_members_eq h'.members_eq).mp (mem_of_lookup hn)

/-- And after one more round of `stabilize` the predecessors are right. -/
theorem Headed.round_stabilize (hlive : Identified live) (h : Headed live net)
    (hclear : ∀ a, Cleared a net) :
    Headed live (round.foldl Chord.stabilize net) ∧
      ∀ a n, (round.foldl Chord.stabilize net).lookup a = some n →
        n.predecessor = nodeBefore live a := by
  obtain ⟨⟨h', -⟩, htold⟩ := foldl_round
    (I := fun net => Headed live net ∧ ∀ a, Cleared a net) (D := Told live)
    (fun net a hinv => (hinv.1.stabilize hlive hinv.2 a).1)
    (fun net a hinv => (hinv.1.stabilize hlive hinv.2 a).2.1)
    (fun net a b hinv => (hinv.1.stabilize hlive hinv.2 a).2.2 b) round net ⟨h, hclear⟩
  refine ⟨h', fun a n hn => ?_⟩
  have ha := (mem_iff_of_members_eq h'.members_eq).mp (mem_of_lookup hn)
  -- the node before has told it
  have hprev := (nodeBefore_mem ha).1
  exact htold _ (.inl (hround _ hprev)) a n ((mem_iff_of_members_eq h'.members_eq).mpr hprev)
    (next_nodeBefore ha) hn

end Rounds

/-! ### Survivors -/

/-- What is left when the nodes of `dead` crash. -/
def survivors (net : Network) (dead : List Address) : Network := dead.foldr AList.erase net

section Survivors

variable {dead : List Address}

theorem lookup_survivors (hn : (survivors old dead).lookup a = some n) :
    old.lookup a = some n ∧ a ∉ dead := by
  unfold survivors at hn
  rw [lookup_foldr_erase] at hn
  split at hn
  · cases hn
  · next hdead => exact ⟨hn, hdead⟩

theorem mem_old_of_mem_survivors (ha : a ∈ survivors old dead) : a ∈ old := by
  obtain ⟨n, hn⟩ := exists_lookup ha
  exact mem_of_lookup (lookup_survivors hn).1

theorem identified_survivors (h : Identified old) (dead : List Address) :
    Identified (survivors old dead) where
  ne_empty hmem := h.ne_empty (mem_old_of_mem_survivors hmem)
  id_eq a n hn := h.id_eq a n (lookup_survivors hn).1
  inj a ha b hb := h.inj a (mem_old_of_mem_survivors ha) b (mem_old_of_mem_survivors hb)

/-- **The first node of a list that is left** is the next one. -/
theorem exists_next_survivor (h : Identified old) (ha : a ∈ old) {l : List Address}
    (hchain : List.IsChain (Next old) (a :: l)) (hcover : ∃ s ∈ l, s ∈ survivors old dead) :
    ∃ pre s tail, l = pre ++ s :: tail ∧ (∀ d ∈ pre, d ∉ survivors old dead) ∧
      Next (survivors old dead) a s := by
  obtain ⟨s₀, hs₀, hlive₀⟩ := hcover
  obtain ⟨s, hs⟩ : ∃ s, l.find? (· ∈ survivors old dead) = some s := by
    rw [← Option.isSome_iff_exists, List.find?_isSome]
    exact ⟨s₀, hs₀, decide_eq_true hlive₀⟩
  obtain ⟨hlive, pre, tail, rfl, hpre⟩ := List.find?_eq_some_iff_append.mp hs
  have hdead : ∀ d ∈ pre, d ∉ survivors old dead := by
    intro d hd hmem
    simpa [hmem] using hpre d hd
  refine ⟨pre, s, tail, rfl, hdead, ?_⟩
  refine Circle.follows_of_isChain h.placed (fun b hb => ?_) (mem_members.mpr ha)
    ( List.IsChain.prefix hchain ?_) (fun d hd hmem => hdead d hd (mem_members.mp hmem))
    (mem_members.mpr (of_decide_eq_true hlive))
  · exact mem_members.mpr (mem_old_of_mem_survivors (mem_members.mp hb))
  · exact ⟨tail, by simp⟩

theorem reaching_survivors (h : Oriented old) (hlisted : Listed old)
    (hcover : ∀ a n, (survivors old dead).lookup a = some n →
      ∃ s ∈ n.successors, s ∈ survivors old dead) :
    Reaching old (survivors old dead) (survivors old dead) where
  toIdentified := identified_survivors h.toIdentified dead
  members_eq := rfl
  next a n hn := by
    have hn' := (lookup_survivors hn).1
    exact exists_next_survivor h.toIdentified (mem_of_lookup hn') (hlisted a n hn').2
      (hcover a n hn)
  predecessor a n hn := h.predecessor a n (lookup_survivors hn).1
  numberOfSuccessors a n hn := by
    obtain ⟨s, hs, -⟩ := hcover a n hn
    rw [← (hlisted a n (lookup_survivors hn).1).1]
    exact List.length_pos_of_mem hs

/-- **The ring recovers**: in an ideal ring some nodes crash at once, and every survivor has
a survivor in its list.  When every survivor has stabilized, the first successors are right;
when each has then checked its predecessor, and after that stabilized once more, the
predecessors are right, too.  The order within a round does not matter. -/
theorem recovery (h : Oriented old) (hlisted : Listed old)
    (hcover : ∀ a n, (survivors old dead).lookup a = some n →
      ∃ s ∈ n.successors, s ∈ survivors old dead) {first second third : List Address}
    (hfirst : ∀ a ∈ survivors old dead, a ∈ first)
    (hsecond : ∀ a ∈ survivors old dead, a ∈ second)
    (hthird : ∀ a ∈ survivors old dead, a ∈ third) :
    (∀ a ∈ survivors old dead, ∃ n s,
      (first.foldl stabilize (survivors old dead)).lookup a = some n ∧
        n.successors.head? = some s ∧ Next (survivors old dead) a s) ∧
    ∀ a ∈ survivors old dead, ∃ n,
      (third.foldl stabilize (second.foldl checkPredecessor
        (first.foldl stabilize (survivors old dead)))).lookup a = some n ∧
        n.predecessor ∈ survivors old dead ∧ Next (survivors old dead) n.predecessor a := by
  have hlive := identified_survivors h.toIdentified dead
  have hsub : ∀ a ∈ survivors old dead, a ∈ old := fun a ha => mem_old_of_mem_survivors ha
  have hreaching := reaching_survivors h hlisted hcover
  generalize survivors old dead = live at hfirst hsecond hthird hlive hsub hreaching ⊢
  have hheaded₁ := hreaching.round_stabilize hfirst h.toIdentified hsub
  obtain ⟨hheaded₂, hclear⟩ := hheaded₁.round_checkPredecessor hsecond
  obtain ⟨hheaded₃, hpred⟩ := hheaded₂.round_stabilize hthird hlive hclear
  refine ⟨fun a ha => ?_, fun a ha => ?_⟩
  · obtain ⟨n, hn⟩ := exists_lookup ((mem_iff_of_members_eq hheaded₁.members_eq).mpr ha)
    obtain ⟨s, hhead, hnext⟩ := hheaded₁.head a n hn
    exact ⟨n, s, hn, hhead, hnext⟩
  · obtain ⟨n, hn⟩ := exists_lookup ((mem_iff_of_members_eq hheaded₃.members_eq).mpr ha)
    refine ⟨n, hn, ?_⟩
    rw [hpred a n hn]
    exact ⟨(nodeBefore_mem ha).1, next_nodeBefore ha⟩

/-- One of three nodes crashes. -/
theorem recovery_threeRing : ∃ n s m,
    (["10.0.0.3:3410", "10.0.0.1:3410"].foldl stabilize
      (survivors threeRing ["10.0.0.2:3410"])).lookup "10.0.0.3:3410" = some n ∧
      n.successors.head? = some s ∧ Next (survivors threeRing ["10.0.0.2:3410"]) "10.0.0.3:3410" s ∧
      (["10.0.0.1:3410", "10.0.0.3:3410"].foldl stabilize
        (["10.0.0.3:3410", "10.0.0.1:3410"].foldl checkPredecessor
          (["10.0.0.3:3410", "10.0.0.1:3410"].foldl stabilize
            (survivors threeRing ["10.0.0.2:3410"])))).lookup "10.0.0.1:3410" = some m ∧
      Next (survivors threeRing ["10.0.0.2:3410"]) m.predecessor "10.0.0.1:3410" := by
  have horiented : Oriented threeRing := by decide +kernel
  have hlisted : Listed threeRing :=
    listed_restabilise (identified_newNodes nodup_threeRing (by decide))
  have hcover : ∀ a n, (survivors threeRing ["10.0.0.2:3410"]).lookup a = some n →
      ∃ s ∈ n.successors, s ∈ survivors threeRing ["10.0.0.2:3410"] :=
    (forall_lookup_iff (P := fun _ n =>
      ∃ s ∈ n.successors, s ∈ survivors threeRing ["10.0.0.2:3410"])).mpr (by decide +kernel)
  have hmembers : members (survivors threeRing ["10.0.0.2:3410"]) =
      {"10.0.0.3:3410", "10.0.0.1:3410"} := by decide +kernel
  have hround : ∀ a ∈ survivors threeRing ["10.0.0.2:3410"],
      a ∈ ["10.0.0.3:3410", "10.0.0.1:3410"] := by
    intro a ha
    rw [← mem_members, hmembers] at ha
    simpa using ha
  have hround' : ∀ a ∈ survivors threeRing ["10.0.0.2:3410"],
      a ∈ ["10.0.0.1:3410", "10.0.0.3:3410"] := by
    intro a ha
    simpa [or_comm] using hround a ha
  obtain ⟨hfirst, hlast⟩ := recovery horiented hlisted hcover hround hround hround'
  obtain ⟨n, s, hn, hhead, hnext⟩ := hfirst "10.0.0.3:3410" (by decide +kernel)
  obtain ⟨m, hm, -, hpred⟩ := hlast "10.0.0.1:3410" (by decide +kernel)
  exact ⟨n, s, m, hn, hhead, hnext, hm, hpred⟩

end Survivors

end ExchangeLabs.Chord
