import ExchangeLabs.Lib.Exploration
import ExchangeLabs.Porcupine.CheckSingle

/-!
# The checker decides linearizability

The variables of `checkSingle` are a state of the search for a linearization, and every iteration
of its loop is a step of it.  So the loop comes to an end, the verdict is right, and what is
remembered as the longest prefixes are the longest beginnings of a linearization.

## Main definitions

* `Recorded` — what is remembered of the search.
* `Verdict` — what can be said of a result.

## Main results

* `Running.iterate`, `Running.loop` — an iteration, and the loop.
* `checkSingle_verdict` — **`checkSingle` returns with a verdict**, whatever is read in `kill`.
-/

namespace ExchangeLabs.Porcupine

open ExchangeLabs.Linearization

variable {S I O : Type} {model : Model S I O} {op : ℕ → I × O} {N n : ℕ} {computePartial : Bool}
  {nodes : List (Node I O)} {s s' : Search S I O} {c c' : Config ℕ S} {ft fr : List ℕ}
  {h₀ : List (Event ℕ)} {longest longest' : List (Option (List ℤ))} {es : List (Entry I O)}

/-- What is remembered of the search. -/
structure Recorded (model : Model S I O) (op : ℕ → I × O) (n : ℕ) (computePartial : Bool)
    (h₀ : List (Event ℕ)) (c : Config ℕ S) (longest : List (Option (List ℤ))) : Prop where
  length : longest.length = n
  /-- Every prefix is the beginning of a linearization. -/
  begins : ∀ (i : ℕ) seq, longest[i]? = some (some seq) → ∃ order : List ℕ,
    seq = order.map Nat.cast ∧ i ∈ order ∧
      Begins (Before h₀) (opStep model op) model.init (ops h₀) order
  /-- What was left is remembered. -/
  noted : computePartial = true → ∀ p ∈ c.seen, OnPath c.frames c.state p ∨
    ∀ i ∈ p.1, AtLeast longest i p.1.card
  covered : computePartial = true → Covered longest

theorem recorded_start : Recorded model op n computePartial h₀ (.start model.init h₀)
    (List.replicate n none) where
  length := List.length_replicate
  begins := by
    intro i seq hi
    rw [List.getElem?_replicate] at hi
    split at hi <;> cases hi
  noted := fun _ _ hp => absurd hp (Set.notMem_empty _)
  covered := by
    intro _ i seq hi
    rw [List.getElem?_replicate] at hi
    split at hi <;> cases hi

/-- What is remembered is kept by a step that does not put an operation back. -/
theorem Recorded.call (hrec : Recorded model op n computePartial h₀ c longest)
    {equal : S → S → Prop} (hnext : Next (opStep model op) equal c c') {a : ℕ}
    {rest : List (Event ℕ)} (hrest : c.rest = .call a :: rest) :
    Recorded model op n computePartial h₀ c' longest := by
  refine ⟨hrec.length, hrec.begins, fun hpartial => ?_, hrec.covered⟩
  have hnoted := hrec.noted hpartial
  cases hnext with
  | illegal _ _ => exact hnoted
  | seen _ _ _ _ => exact hnoted
  | take _ _ =>
    intro p hp
    rcases Set.mem_insert_iff.mp hp with rfl | hp
    · exact .inl (.inl rfl)
    · exact (hnoted p hp).imp_left .inr
  | putBack hrest' _ =>
    rw [hrest] at hrest'
    cases hrest'

/-- The state that is left is remembered. -/
theorem Recorded.putBack (hh₀ : WellFormed h₀)
    (hcoherent : Coherent (opStep model op) model.init h₀ c)
    (hrec : Recorded model op n computePartial h₀ c longest)
    (hnote : Noted computePartial (taken c.frames).reverse longest longest')
    {equal : S → S → Prop} (hnext : Next (opStep model op) equal c c') {b : ℕ}
    {rest : List (Event ℕ)} (hrest : c.rest = .ret b :: rest) :
    Recorded model op n computePartial h₀ c' longest' := by
  refine ⟨hnote.length.trans hrec.length, fun i seq hi => ?_, fun hpartial p hp => ?_,
    fun hpartial => ?_⟩
  · rcases hnote.old i seq hi with hi | ⟨hmem, hseq⟩
    · exact hrec.begins i seq hi
    · exact ⟨_, hseq, hmem, (hcoherent.path.begins hh₀).1⟩
  · have hnoted := hrec.noted hpartial
    have hnew := hnote.noted hpartial
    have hnodup := hcoherent.path.nodup_taken
    cases hnext with
    | illegal hrest' _ | seen hrest' _ _ _ | take hrest' _ =>
      rw [hrest] at hrest'
      cases hrest'
    | putBack hrest' hframes =>
      rw [hframes] at hnoted hnew hnodup
      -- the state that is left now, one that is still on the path, or one left before
      rcases hnoted p hp with (rfl | hon) | hleft
      · refine .inr fun i hi => ?_
        rw [List.toFinset_card_of_nodup hnodup, ← List.length_reverse]
        exact hnew i (List.mem_reverse.mpr (List.mem_toFinset.mp hi))
      · exact .inl hon
      · exact .inr fun i hi => hnote.kept i _ (hleft i hi)
  · subst hpartial
    exact hnote.covered (hrec.covered rfl)

/-! ### The loop -/

/-- What can be said of the result `(ok, longest)` for the operations `operations`, which were
called and over in the order `before`. -/
structure Verdict (before : ℕ → ℕ → Prop) (step : S → ℕ → Option S) (init : S)
    (operations : List ℕ) (n : ℕ) (computePartial : Bool) (killed : Prop) (ok : Bool)
    (longest : List (Option (List ℤ))) : Prop where
  linearizable : ok = true → Linearizable before step init operations
  notLinearizable : ok = false → ¬ killed → ¬ Linearizable before step init operations
  length : longest.length = n
  begins : ∀ (i : ℕ) seq, longest[i]? = some (some seq) → ∃ order : List ℕ,
    seq = order.map Nat.cast ∧ i ∈ order ∧ Begins before step init operations order
  longest : computePartial = true → ¬ killed → ∀ order, Begins before step init operations order →
    ∀ i ∈ order, AtLeast longest i order.length

variable {before : ℕ → ℕ → Prop} {step : S → ℕ → Option S} {init : S}
    {operations operations' : List ℕ}
  {killed : Prop} {ok : Bool}

/-- The order in which the operations are listed does not matter. -/
theorem Verdict.congr
    (h : Verdict before step init operations n computePartial killed ok longest)
    (hoperations : operations.Perm operations') :
    Verdict before step init operations' n computePartial killed ok longest where
  linearizable := fun hok => (linearizable_congr hoperations).mp (h.linearizable hok)
  notLinearizable := fun hok hkilled =>
    mt (linearizable_congr hoperations).mpr (h.notLinearizable hok hkilled)
  length := h.length
  begins := by
    intro i seq hi
    obtain ⟨order, hseq, hmem, horder⟩ := h.begins i seq hi
    exact ⟨order, hseq, hmem, horder.congr hoperations⟩
  longest := fun hpartial hkilled order horder =>
    h.longest hpartial hkilled order (horder.congr hoperations.symm)

theorem Verdict.mono {killed' : Prop}
    (h : Verdict before step init operations n computePartial killed ok longest)
    (hkilled : killed → killed') :
    Verdict before step init operations n computePartial killed' ok longest where
  linearizable := h.linearizable
  notLinearizable := fun hok hnot => h.notLinearizable hok (mt hkilled hnot)
  length := h.length
  begins := h.begins
  longest := fun hpartial hnot => h.longest hpartial (mt hkilled hnot)

/-- For every operation the longest prefix is remembered, or nothing if there is none. -/
theorem Verdict.longest_or_none (h : Verdict before step init operations n true killed ok longest)
    (hkilled : ¬ killed) (i : ℕ) (hi : i < n) :
    (longest[i]? = some none ∧ ∀ order, Begins before step init operations order → i ∉ order) ∨
    ∃ order : List ℕ, longest[i]? = some (some (order.map Nat.cast)) ∧ i ∈ order ∧
      Begins before step init operations order ∧
      ∀ order', Begins before step init operations order' → i ∈ order' →
        order'.length ≤ order.length := by
  have hlongest := h.longest rfl hkilled
  have hi' : i < longest.length := h.length.symm ▸ hi
  have hentry := List.getElem?_eq_getElem hi'
  -- what is remembered decides; a partial linearization would have been remembered
  cases hseq : longest[i] with
  | none =>
    rw [hseq] at hentry
    refine .inl ⟨hentry, fun order horder hmem => ?_⟩
    obtain ⟨seq, hseq', -⟩ := hlongest order horder i hmem
    rw [hentry] at hseq'
    cases hseq'
  | some seq =>
    rw [hseq] at hentry
    obtain ⟨order, rfl, hmem, horder⟩ := h.begins i seq hentry
    refine .inr ⟨order, hentry, hmem, horder, fun order' horder' hmem' => ?_⟩
    obtain ⟨seq', hseq', hle⟩ := hlongest order' horder' i hmem'
    rw [hentry] at hseq'
    obtain rfl := Option.some.inj (Option.some.inj hseq')
    rwa [List.length_map] at hle

/-- Only what is known of the operations matters. -/
theorem Verdict.of_congr {before' : ℕ → ℕ → Prop} {step' : S → ℕ → Option S}
    (h : Verdict before step init operations n computePartial killed ok longest)
    (hbefore : ∀ a ∈ operations, ∀ b ∈ operations, before a b ↔ before' a b)
    (hstep : ∀ a ∈ operations, ∀ s, step s a = step' s a) :
    Verdict before' step' init operations n computePartial killed ok longest := by
  have hbefore' : ∀ a ∈ operations, ∀ b ∈ operations, before' a b ↔ before a b :=
    fun a ha b hb => (hbefore a ha b hb).symm
  have hstep' : ∀ a ∈ operations, ∀ s, step' s a = step s a := fun a ha s => (hstep a ha s).symm
  refine ⟨fun hok => (h.linearizable hok).of_congr hbefore hstep, fun hok hkilled hlin => ?_,
    h.length, fun i seq hi => ?_, fun hpartial hkilled order horder => ?_⟩
  · exact h.notLinearizable hok hkilled (hlin.of_congr hbefore' hstep')
  · obtain ⟨order, hseq, hmem, horder⟩ := h.begins i seq hi
    exact ⟨order, hseq, hmem, horder.of_congr hbefore hstep⟩
  · exact h.longest hpartial hkilled order (horder.of_congr hbefore' hstep')

/-- The variables are those of a search for a linearization of `h₀`. -/
structure Running (model : Model S I O) (op : ℕ → I × O) (N n : ℕ) (nodes : List (Node I O))
    (computePartial : Bool) (h₀ : List (Event ℕ)) (s : Search S I O) (c : Config ℕ S)
    (ft fr : List ℕ) : Prop where
  sim : Sim nodes N n s c ft fr
  coherent : Coherent (opStep model op) model.init h₀ c
  explored : Explored (opStep model op) (fun s t => model.equal s t = true) h₀ c
  recorded : Recorded model op n computePartial h₀ c s.longest

/-- The search has found a linearization. -/
theorem Running.found (hset : Setting op N n nodes) (hh₀ : WellFormed h₀)
    (hops : (ops h₀).Perm (List.range n))
    (h : Running model op N n nodes computePartial h₀ s c ft fr)
    (hnil : s.heap.links.next N = none) (kill : Bool) (killed : Prop) :
    ∃ longest, iterate model computePartial N n kill s = some (.result true longest) ∧
      Verdict (Before h₀) (opStep model op) model.init (ops h₀) n computePartial killed true
        longest := by
  -- the list has nothing but its head, so nothing is left to linearize
  have hempty : c.history = [] := by
    have hhead := h.sim.linked.next_head
    rw [hnil] at hhead
    rw [← h.sim.map_eq, List.head?_eq_none_iff.mp hhead.symm]
    rfl
  have hids := Levels.callIds hset h.sim.levels s.heap h.sim.heap
  rw [List.reverse_reverse] at hids
  have hlin := h.coherent.linearizes hh₀ hempty
  refine ⟨List.replicate n (some ((taken c.frames).reverse.map Nat.cast)), ?_, fun _ => ⟨_, hlin⟩,
    fun hne => absurd hne (by decide), List.length_replicate, fun i seq hi => ?_,
    fun _ _ order horder i hi => ?_⟩
  · rw [iterate, if_pos hnil, hids]
    rfl
  · rw [List.getElem?_replicate] at hi
    split at hi
    · next hlt =>
      obtain rfl := Option.some.inj (Option.some.inj hi)
      exact ⟨_, rfl, (hlin.perm.trans hops).mem_iff.mpr (List.mem_range.mpr hlt),
        (h.coherent.path.begins hh₀).1⟩
    · cases hi
  · -- no partial linearization is longer than one with all operations
    have hlt : i < n := List.mem_range.mp (hops.mem_iff.mp (horder.subset hi))
    refine ⟨_, List.getElem?_replicate_of_lt hlt, ?_⟩
    rw [List.length_map, hlin.perm.length_eq]
    exact (horder.nodup.subperm horder.subset).length_le

/-- The search has tried everything. -/
theorem Running.exhausted (hset : Setting op N n nodes) (hequal : EqualSound model)
    (hh₀ : WellFormed h₀) (h : Running model op N n nodes computePartial h₀ s c ft fr)
    {b : ℕ} {rest : List (Event ℕ)} (hrest : c.rest = .ret b :: rest) (hframes : c.frames = [])
    (killed : Prop) :
    iterate model computePartial N n false s = some (.result false s.longest) ∧
      Verdict (Before h₀) (opStep model op) model.init (ops h₀) n computePartial killed false
        s.longest := by
  refine ⟨h.sim.giveUp hset model computePartial hrest hframes, fun hne => absurd hne (by decide),
    fun _ _ => h.coherent.not_canFinish hh₀ hframes hrest, h.recorded.length, h.recorded.begins,
    fun hpartial _ order horder i hi => ?_⟩
  obtain ⟨t, hseen, -⟩ := h.explored.exists_seen (hequal.simulates op) hh₀ h.coherent hframes hrest
    (List.ne_nil_of_mem hi) horder
  rcases h.recorded.noted hpartial _ hseen with hon | hleft
  · rw [hframes] at hon
    exact hon.elim
  · rw [← List.toFinset_card_of_nodup horder.nodup]
    exact hleft i (List.mem_toFinset.mpr hi)

/-- The search was told to stop. -/
theorem Running.stopped (h : Running model op N n nodes computePartial h₀ s c ft fr)
    (hne : s.heap.links.next N ≠ none) {killed : Prop} (hkilled : killed) :
    iterate model computePartial N n true s = some (.result false s.longest) ∧
      Verdict (Before h₀) (opStep model op) model.init (ops h₀) n computePartial killed false
        s.longest := by
  refine ⟨?_, fun hne => absurd hne (by decide), fun _ hnot => absurd hkilled hnot,
    h.recorded.length, h.recorded.begins, fun _ hnot => absurd hkilled hnot⟩
  rw [iterate, if_neg hne, if_pos rfl]

/-- **An iteration** is a step of the search, or the search is at its end. -/
theorem Running.iterate (hset : Setting op N n nodes) (hequal : EqualSound model)
    (hh₀ : WellFormed h₀) (hops : (ops h₀).Perm (List.range n))
    (h : Running model op N n nodes computePartial h₀ s c ft fr) (kill : Bool) {killed : Prop}
    (hkilled : kill = true → killed) :
    (∃ ok longest, Porcupine.iterate model computePartial N n kill s =
        some (.result ok longest) ∧
      Verdict (Before h₀) (opStep model op) model.init (ops h₀) n computePartial killed ok
        longest) ∨
    ∃ s' c' ft' fr', Porcupine.iterate model computePartial N n kill s = some (.again s') ∧
      weight h₀.length c' < weight h₀.length c ∧
      Running model op N n nodes computePartial h₀ s' c' ft' fr' := by
  by_cases hnil : s.heap.links.next N = none
  · obtain ⟨longest, hresult⟩ := h.found hset hh₀ hops hnil kill killed
    exact .inl ⟨true, longest, hresult⟩
  cases kill with
  | true => exact .inl ⟨false, s.longest, h.stopped hnil (hkilled rfl)⟩
  | false =>
    have hne : c.history ≠ [] := by
      intro hempty
      rw [← h.sim.map_eq, List.map_eq_nil_iff] at hempty
      rw [h.sim.linked.next_head, hempty] at hnil
      exact hnil rfl
    -- a step of the search keeps what the loop relies on
    have hkeep : ∀ {c' : Config ℕ S},
        Next (opStep model op) (fun s t => model.equal s t = true) c c' →
        weight h₀.length c' < weight h₀.length c ∧
          Coherent (opStep model op) model.init h₀ c' ∧
          Explored (opStep model op) (fun s t => model.equal s t = true) h₀ c' := fun hnext =>
      ⟨h.coherent.weight_lt hh₀ hnext, h.coherent.next (hequal.simulates op) hh₀ hnext,
        h.explored.next hh₀ h.coherent hnext⟩
    cases hrest : c.rest with
    | nil => exact absurd hrest (h.coherent.rest_ne_nil hh₀ hne)
    | cons e rest =>
      cases e with
      | call a =>
        obtain ⟨s', c', ft', fr', hiterate, hnext, hsim, hlongest⟩ :=
          h.sim.call hset (h.coherent.path.wellFormed hh₀) computePartial hrest
        obtain ⟨hweight, hcoherent, hexplored⟩ := hkeep hnext
        exact .inr ⟨s', c', ft', fr', hiterate, hweight, hsim, hcoherent, hexplored,
          hlongest ▸ h.recorded.call hnext hrest⟩
      -- the operation of this return has not been taken, so the last one is put back
      | ret b =>
        cases hframes : c.frames with
        | nil => exact .inl ⟨false, s.longest, h.exhausted hset hequal hh₀ hrest hframes killed⟩
        | cons f frames =>
          obtain ⟨s', c', ft', fr', hiterate, hnext, hsim, hnoted⟩ :=
            h.sim.putBack hset h.coherent.path.nodup_taken model computePartial hrest hframes
          obtain ⟨hweight, hcoherent, hexplored⟩ := hkeep hnext
          exact .inr ⟨s', c', ft', fr', hiterate, hweight, hsim, hcoherent, hexplored,
            h.recorded.putBack hh₀ h.coherent hnoted hnext hrest⟩

/-- **The loop** comes to an end: what is left to try goes down. -/
theorem Running.loop (hset : Setting op N n nodes) (hequal : EqualSound model)
    (hh₀ : WellFormed h₀) (hops : (ops h₀).Perm (List.range n))
    (h : Running model op N n nodes computePartial h₀ s c ft fr) {fuel : ℕ}
    (hfuel : weight h₀.length c < fuel) (kill : ℕ → Bool) :
    ∃ ok longest, Porcupine.loop model computePartial N n fuel kill s = some (ok, longest) ∧
      Verdict (Before h₀) (opStep model op) model.init (ops h₀) n computePartial
        (∃ t, kill t = true) ok longest := by
  induction fuel generalizing s c ft fr kill with
  | zero => exact absurd hfuel (Nat.not_lt_zero _)
  | succ fuel ih =>
    have hkilled : kill 0 = true → ∃ t, kill t = true := fun hkill => ⟨0, hkill⟩
    rcases h.iterate hset hequal hh₀ hops (kill 0) hkilled with
      ⟨ok, longest, hiterate, hverdict⟩ | ⟨s', c', ft', fr', hiterate, hweight, h'⟩
    · refine ⟨ok, longest, ?_, hverdict⟩
      rw [Porcupine.loop, hiterate]
    · obtain ⟨ok, longest, hloop, hverdict⟩ := ih h' (by omega) fun t => kill (t + 1)
      refine ⟨ok, longest, ?_, ?_⟩
      · rw [Porcupine.loop, hiterate]
        exact hloop
      · have hlater : (∃ t, kill (t + 1) = true) → ∃ t, kill t = true := fun ⟨t, ht⟩ => ⟨t + 1, ht⟩
        exact ⟨hverdict.linearizable, fun hok hnot => hverdict.notLinearizable hok (mt hlater hnot),
          hverdict.length, hverdict.begins,
          fun hpartial hnot => hverdict.longest hpartial (mt hlater hnot)⟩

/-! ### The check of a history -/

/-- Every operation is called once. -/
theorem nodup_ops (hh₀ : WellFormed h₀) : (ops h₀).Nodup := by
  refine hh₀.nodup.filterMap fun e e' a he he' => ?_
  cases e with
  | call b =>
    cases e' with
    | call b' =>
      rw [Event.called_call, Option.mem_some_iff] at he he'
      rw [he, he']
    | ret b' => cases he'
  | ret b => cases he

/-- Half of the events are calls. -/
theorem length_ops (hh₀ : WellFormed h₀) : h₀.length = 2 * (ops h₀).length := by
  have hnodup : ((ops h₀).map Event.call ++ (ops h₀).map Event.ret).Nodup := by
    rw [List.nodup_append]
    refine ⟨(nodup_ops hh₀).map fun a b hab => Event.call.inj hab,
      (nodup_ops hh₀).map fun a b hab => Event.ret.inj hab, ?_⟩
    rintro e he e' he' rfl
    obtain ⟨a, -, rfl⟩ := List.mem_map.mp he
    obtain ⟨b, -, hb⟩ := List.mem_map.mp he'
    cases hb
  have hperm : h₀.Perm ((ops h₀).map Event.call ++ (ops h₀).map Event.ret) := by
    rw [List.perm_ext_iff_of_nodup hh₀.nodup hnodup]
    intro e
    cases e with
    | call a => simp
    | ret a =>
      have hret : .ret a ∈ h₀ ↔ .call a ∈ h₀ :=
        ⟨hh₀.called a, fun ha => (hh₀.returns a ha).subset (by simp)⟩
      simp [hret]
  rw [hperm.length_eq, List.length_append, List.length_map, List.length_map, Nat.two_mul]

/-- The operations of a history are all the numbers below `n`. -/
theorem IsHistory.ops_perm (hes : IsHistory op es) :
    (ops (es.map Entry.event)).Perm (List.range (es.length / 2)) := by
  have hlength := length_ops hes.wellFormed
  rw [List.length_map] at hlength
  have hsubset : ops (es.map Entry.event) ⊆ List.range (es.length / 2) := by
    intro a ha
    obtain ⟨e, he, hevent⟩ := List.mem_map.mp (mem_ops.mp ha)
    have hid : e.id = a := by
      unfold Entry.event at hevent
      split at hevent
      · exact Event.call.inj hevent
      · cases hevent
    exact List.mem_range.mpr (hid ▸ hes.lt e he)
  refine (List.subperm_of_subset (nodup_ops hes.wellFormed) hsubset).perm_of_length_le ?_
  rw [List.length_range]
  omega

/-- The loop begins with the search. -/
theorem IsHistory.running (hes : IsHistory op es) (model : Model S I O) (computePartial : Bool) :
    ∃ s, prepare model es = some (es.length, es.length / 2, s) ∧
      Setting op es.length (es.length / 2) s.heap.nodes ∧
      Running model op es.length (es.length / 2) s.heap.nodes computePartial (es.map Entry.event) s
        (.start model.init (es.map Entry.event)) [] (cells es.length) := by
  obtain ⟨s, hprepare, hlinked, hwired, hmap, hentry, hstate, hlinearized, hcache, hcalls,
    hlongest⟩ := prepare_spec hes model
  refine ⟨s, hprepare, ⟨hwired, hmap ▸ hes.wellFormed, fun p hp => ?_⟩,
    ⟨rfl, hlinked, List.Sublist.refl _, rfl, hmap, hentry, hstate, ?_, ?_, ?_, ?_⟩,
    coherent_start _ _ _, explored_start _ _ _ _, ?_⟩
  · have hevent : eventAt s.heap.nodes p ∈ es.map Entry.event :=
      hmap ▸ List.mem_map_of_mem (mem_cells.mpr hp)
    obtain ⟨e, he, heq⟩ := List.mem_map.mp hevent
    rw [← heq, Entry.event]
    split
    · exact hes.lt e he
    · exact hes.lt e he
  · rw [hlinearized]
    exact represents_newBitset _
  · rw [hcalls]
    trivial
  · rw [hcache]
    intro hash e he
    cases he
  · rw [hlongest, List.length_replicate]
  · rw [hlongest]
    exact recorded_start

/-- **The result of `checkSingle`**, whatever is read in `kill`. -/
theorem checkSingle_verdict (hequal : EqualSound model) (hes : IsHistory op es)
    (computePartial : Bool) : ∃ bound, ∀ kill fuel, bound ≤ fuel → ∃ ok longest,
      checkSingle model es computePartial kill fuel = some (ok, longest) ∧
      Verdict (Before (es.map Entry.event)) (opStep model op) model.init
        (List.range (es.length / 2))
        (es.length / 2) computePartial (∃ t, kill t = true) ok longest := by
  obtain ⟨s, hprepare, hset, hrunning⟩ := hes.running model computePartial
  refine ⟨weight (es.map Entry.event).length (Config.start model.init (es.map Entry.event)) + 1,
    fun kill fuel hfuel => ?_⟩
  obtain ⟨ok, longest, hloop, hverdict⟩ :=
    hrunning.loop hset hequal hes.wellFormed hes.ops_perm (Nat.lt_of_succ_le hfuel) kill
  refine ⟨ok, longest, ?_, hverdict.congr hes.ops_perm⟩
  rw [checkSingle, hprepare]
  exact hloop

end ExchangeLabs.Porcupine
