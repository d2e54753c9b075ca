import Mathlib.Tactic.Ring
import ExchangeLabs.Porcupine.Nodes

/-!
# The loop of the checker

The loop of `checkSingle` is the search for a linearization: its list of nodes is the history
without the operations that were taken out, and its stack of calls is these operations.

## Main definitions

* `opStep model op` — the object, as operations are done to it.
* `Sim` — the variables of `checkSingle` are a state of the search.
* `Noted`, `Covered` — what is remembered as the longest prefixes.

## Main results

* `Sim.call`, `Sim.putBack` — **an iteration is a step of the search.**
* `noteLongest_spec` — the calls are remembered for their operations.
* `Covered.noteLongest_eq_self` — no list is stored twice.
-/

namespace ExchangeLabs.Porcupine

open ExchangeLabs.Linearization

variable {S I O : Type} {model : Model S I O} {op : ℕ → I × O} {N n : ℕ}
  {nodes : List (Node I O)} {s s' : Search S I O} {c : Config ℕ S} {ft fr : List ℕ}

/-- The operation with the number `a` is done to the object. -/
def opStep (model : Model S I O) (op : ℕ → I × O) (state : S) (a : ℕ) : Option S :=
  let (ok, newState) := model.step state (op a).1 (op a).2
  if ok then some newState else none

/-- Equal states can do the same. -/
def EqualSound (model : Model S I O) : Prop :=
  ∀ s t, model.equal s t = true → ∀ i o, (model.step s i o).1 = true →
    (model.step t i o).1 = true ∧ model.equal (model.step s i o).2 (model.step t i o).2 = true

theorem opStep_eq_some {state newState : S} {a : ℕ} :
    opStep model op state a = some newState ↔
      model.step state (op a).1 (op a).2 = (true, newState) := by
  unfold opStep
  split
  next ok newState' heq =>
    cases ok <;> simp [heq]

theorem opStep_eq_none {state : S} {a : ℕ} :
    opStep model op state a = none ↔ (model.step state (op a).1 (op a).2).1 = false := by
  unfold opStep
  split
  next ok newState' heq =>
    cases ok <;> simp [heq]

theorem EqualSound.simulates (hequal : EqualSound model) (op : ℕ → I × O) (s t : S) (a : ℕ) (s' : S)
    (hst : model.equal s t = true) (hs' : opStep model op s a = some s') :
    ∃ t', opStep model op t a = some t' ∧ model.equal s' t' = true := by
  rw [opStep_eq_some] at hs'
  obtain ⟨hok, heq⟩ := hequal s t hst (op a).1 (op a).2 (by rw [hs'])
  rw [hs'] at heq
  exact ⟨_, opStep_eq_some.mpr (Prod.ext hok rfl), heq⟩

/-! ### The variables and the search -/

/-- The calls, the last one first, are the operations that were taken out; putting each of
them back leads to the list from which it was taken. -/
def Levels (nodes : List (Node I O)) (N : ℕ) :
    List (CallsEntry S) → List (Frame ℕ S) → Links ℕ → Prop
  | [], [], _ => True
  | v :: calls, f :: frames, links =>
    v.state = f.state ∧ eventAt nodes v.entry = .call f.op ∧ ∃ links' ft fr,
      unlift { nodes := nodes, links := links } v.entry =
        some { nodes := nodes, links := links' } ∧
      Linked links' (N :: (ft ++ v.entry :: fr)) ∧ (ft ++ v.entry :: fr).Sublist (cells N) ∧
      ft.map (eventAt nodes) = f.tried ∧ fr.map (eventAt nodes) = f.rest ∧
      Levels nodes N calls frames links'
  | _, _, _ => False

/-- The variables are the state `c` of the search; `ft` are the nodes before `entry`, and `fr`
those from it on. -/
structure Sim (nodes : List (Node I O)) (N n : ℕ) (s : Search S I O) (c : Config ℕ S)
    (ft fr : List ℕ) : Prop where
  heap : s.heap.nodes = nodes
  linked : Linked s.heap.links (N :: (ft ++ fr))
  sublist : (ft ++ fr).Sublist (cells N)
  tried : ft.map (eventAt nodes) = c.tried
  rest : fr.map (eventAt nodes) = c.rest
  entry : s.entry = fr.head?
  state : s.state = c.state
  linearized : Represents n (taken c.frames).toFinset s.linearized
  levels : Levels nodes N s.calls.reverse c.frames s.heap.links
  cache : ∀ hash, ∀ e ∈ s.cache hash, ∃ T, Represents n T e.linearized ∧ (T, e.state) ∈ c.seen
  longest : s.longest.length = n

/-- What does not change during the search. -/
structure Setting (op : ℕ → I × O) (N n : ℕ) (nodes : List (Node I O)) : Prop where
  wired : Wired op N nodes
  wellFormed : WellFormed ((cells N).map (eventAt nodes))
  lt : ∀ p < N, (eventAt nodes p).op < n

/-- The ids of the calls are the operations that were taken out. -/
theorem Levels.callIds (hset : Setting op N n nodes) {calls : List (CallsEntry S)}
    {frames : List (Frame ℕ S)} {links : Links ℕ} (h : Levels nodes N calls frames links)
    (hp : Heap I O) (hnodes : hp.nodes = nodes) :
    callIds hp calls.reverse = some ((taken frames).reverse.map Nat.cast) := by
  induction calls generalizing frames links with
  | nil =>
    cases frames with
    | nil => rfl
    | cons f frames => exact h.elim
  | cons v calls ih =>
    cases frames with
    | nil => exact h.elim
    | cons f frames =>
      obtain ⟨-, hevent, links', ft, fr, -, -, hsub, -, -, hlevels⟩ := h
      have hlt : v.entry < N := mem_cells.mp (hsub.subset (by simp))
      obtain ⟨node, r, node', hnode, hid, -⟩ := hset.wired.call v.entry hlt f.op hevent
      have hih := ih hlevels
      unfold Porcupine.callIds at hih ⊢
      rw [List.reverse_cons, List.mapM_append, hih]
      simp [hnodes, hnode, hid]

theorem Levels.length_eq {calls : List (CallsEntry S)} {frames : List (Frame ℕ S)}
    {links : Links ℕ} (h : Levels nodes N calls frames links) : calls.length = frames.length := by
  induction calls generalizing frames links with
  | nil =>
    cases frames with
    | nil => rfl
    | cons f frames => exact h.elim
  | cons v calls ih =>
    cases frames with
    | nil => exact h.elim
    | cons f frames =>
      obtain ⟨-, -, _, _, _, -, -, -, -, -, hlevels⟩ := h
      rw [List.length_cons, List.length_cons, ih hlevels]

theorem Sim.getLast? (h : Sim nodes N n s c ft fr) {f : Frame ℕ S} {frames : List (Frame ℕ S)}
    (hframes : c.frames = f :: frames) : ∃ v calls, s.calls = calls ++ [v] ∧
      Levels nodes N (v :: calls.reverse) (f :: frames) s.heap.links := by
  have hlevels := h.levels
  rw [hframes] at hlevels
  cases hcalls : s.calls.reverse with
  | nil =>
    rw [hcalls] at hlevels
    exact hlevels.elim
  | cons v calls =>
    rw [hcalls] at hlevels
    refine ⟨v, calls.reverse, ?_, by rwa [List.reverse_reverse]⟩
    rw [← List.reverse_reverse s.calls, hcalls, List.reverse_cons]

theorem Sim.calls_eq_nil (h : Sim nodes N n s c ft fr) (hframes : c.frames = []) :
    s.calls = [] := by
  have hlevels := h.levels
  rw [hframes] at hlevels
  cases hcalls : s.calls.reverse with
  | nil => exact List.reverse_eq_nil_iff.mp hcalls
  | cons v calls =>
    rw [hcalls] at hlevels
    exact hlevels.elim

theorem Sim.map_eq (h : Sim nodes N n s c ft fr) : (ft ++ fr).map (eventAt nodes) = c.history := by
  rw [List.map_append, h.tried, h.rest]
  rfl

/-! ### One iteration -/

/-- The node that the search looks at. -/
theorem Sim.entry_cons (h : Sim nodes N n s c ft fr) {e : Event ℕ} {rest : List (Event ℕ)}
    (hrest : c.rest = e :: rest) : ∃ p fr', fr = p :: fr' ∧ s.entry = some p ∧ p < N ∧
      eventAt nodes p = e ∧ fr'.map (eventAt nodes) = rest := by
  have hfr := h.rest
  rw [hrest] at hfr
  obtain ⟨p, fr', rfl, hp, hfr'⟩ := List.map_eq_cons_iff.mp hfr
  refine ⟨p, fr', rfl, h.entry, mem_cells.mp (h.sublist.subset (by simp)), hp, hfr'⟩

/-- The list is not empty. -/
theorem Sim.next_ne_none (h : Sim nodes N n s c ft fr) (hfr : fr ≠ []) :
    s.heap.links.next N ≠ none := by
  rw [h.linked.next_head]
  cases ft with
  | nil =>
    cases fr with
    | nil => exact absurd rfl hfr
    | cons p fr => simp
  | cons p ft => simp

/-- A call is passed over. -/
theorem Sim.skip (h : Sim nodes N n s c ft fr) {p a : ℕ} {fr' : List ℕ}
    {rest : List (Event ℕ)} (hrest : c.rest = .call a :: rest) (hfr : fr = p :: fr') :
    Sim nodes N n { s with entry := s.heap.links.next p }
      { c with tried := c.tried ++ [.call a], rest := rest } (ft ++ [p]) fr' := by
  have happend : ft ++ fr = ft ++ [p] ++ fr' := by
    rw [hfr, List.append_assoc, List.singleton_append]
  have hlinked := h.linked
  have hsublist := h.sublist
  have hmap := h.rest
  rw [hfr, hrest, List.map_cons] at hmap
  obtain ⟨hp, hfr'⟩ := List.cons.inj hmap
  rw [happend] at hlinked hsublist
  refine ⟨h.heap, hlinked, hsublist, ?_, hfr', ?_, h.state, h.linearized, h.levels, h.cache,
    h.longest⟩
  · rw [List.map_append, h.tried, List.map_singleton, hp]
  · rw [List.append_assoc, List.singleton_append, ← List.cons_append] at hlinked
    exact hlinked.next_eq

/-- The return of a call is behind it in the list. -/
theorem exists_middle (hset : Setting op N n nodes) (hsublist : (ft ++ fr).Sublist (cells N))
    {p r a : ℕ} {fr' : List ℕ} (hfr : fr = p :: fr') (hp : eventAt nodes p = .call a)
    (hr : r < N) (hret : eventAt nodes r = .ret a)
    (hwf : WellFormed ((ft ++ fr).map (eventAt nodes))) :
    ∃ middle back, fr' = middle ++ r :: back := by
  -- the return is in the list, and there is no other node that records it
  have hmem : Event.ret a ∈ (ft ++ fr).map (eventAt nodes) := by
    have hpair := hwf.returns a (List.mem_map.mpr ⟨p, by simp [hfr], hp⟩)
    exact hpair.subset (by simp)
  obtain ⟨r', hr', hret'⟩ := List.mem_map.mp hmem
  have hinj := List.inj_on_of_nodup_map hset.wellFormed.nodup
  obtain rfl : r' = r := hinj (hsublist.subset hr') (mem_cells.mpr hr) (hret'.trans hret.symm)
  have hpr : r' ≠ p := by
    rintro rfl
    rw [hp] at hret
    cases hret
  rcases List.mem_append.mp hr' with hr' | hr'
  · -- it would be recorded before the call
    exfalso
    have hnodup := hwf.nodup
    have hpair := hwf.returns a (List.mem_map.mpr ⟨p, by simp [hfr], hp⟩)
    refine not_sublist_swap hnodup hpair ?_
    rw [List.map_append]
    refine (List.singleton_sublist.mpr (List.mem_map.mpr ⟨r', hr', hret⟩)).append
      (List.singleton_sublist.mpr (List.mem_map.mpr ⟨p, by simp [hfr], hp⟩))
  · rw [hfr] at hr'
    exact List.append_of_mem ((List.mem_cons.mp hr').resolve_left hpr)

/-- The list without a call and its return is the history without the operation. -/
theorem map_eq_remove (hset : Setting op N n nodes) {front middle back : List ℕ} {p r a : ℕ}
    (hsublist : (front ++ p :: (middle ++ r :: back)).Sublist (cells N))
    (hp : eventAt nodes p = .call a) (hr : eventAt nodes r = .ret a) :
    (front ++ (middle ++ back)).map (eventAt nodes) =
      remove a ((front ++ p :: (middle ++ r :: back)).map (eventAt nodes)) := by
  have hinj := List.inj_on_of_nodup_map hset.wellFormed.nodup
  have hnodup := hsublist.nodup (nodup_cells N)
  have hother : ∀ q ∈ front ++ (middle ++ back), (eventAt nodes q).op ≠ a := by
    intro q hq hqa
    have hqmem : q ∈ front ++ p :: (middle ++ r :: back) := by
      simp only [List.mem_append, List.mem_cons] at hq ⊢
      tauto
    have hqN := hsublist.subset hqmem
    have hqpr : q = p ∨ q = r := by
      cases he : eventAt nodes q with
      | call b =>
        rw [he, Event.op_call] at hqa
        subst hqa
        exact .inl (hinj hqN (hsublist.subset (by simp)) (he.trans hp.symm))
      | ret b =>
        rw [he, Event.op_ret] at hqa
        subst hqa
        exact .inr (hinj hqN (hsublist.subset (by simp)) (he.trans hr.symm))
    rw [List.nodup_middle, List.nodup_cons] at hnodup
    obtain ⟨hpnot, hnodup⟩ := hnodup
    rw [← List.append_assoc, List.nodup_middle, List.nodup_cons] at hnodup
    rcases hqpr with rfl | rfl
    · refine hpnot ?_
      simp only [List.mem_append, List.mem_cons] at hq ⊢
      tauto
    · refine hnodup.1 ?_
      simpa using hq
  have hfilter : ∀ xs : List ℕ, (∀ q ∈ xs, (eventAt nodes q).op ≠ a) →
      remove a (xs.map (eventAt nodes)) = xs.map (eventAt nodes) := by
    intro xs hxs
    refine List.filter_eq_self.mpr fun e he => ?_
    obtain ⟨q, hq, rfl⟩ := List.mem_map.mp he
    exact decide_eq_true (hxs q hq)
  simp only [List.map_append, List.map_cons, remove_append, hp, hr, remove_call_cons]
  rw [remove_cons_of_eq (a := a) (e := .ret a) rfl,
    hfilter front fun q hq => hother q (List.mem_append_left _ hq),
    hfilter middle fun q hq => hother q (List.mem_append_right _ (List.mem_append_left _ hq)),
    hfilter back fun q hq => hother q (List.mem_append_right _ (List.mem_append_right _ hq))]

theorem Wired.stepValues (hset : Setting op N n nodes) {p a : ℕ} (hp : p < N)
    (hevent : eventAt nodes p = .call a) (model : Model S I O) (state : S) :
    ∃ node r node', nodes[p]? = some node ∧ node.id = a ∧ node.matching = some r ∧
      nodes[r]? = some node' ∧ r < N ∧ eventAt nodes r = .ret a ∧
      model.stepValues state node.value node'.value =
        some (model.step state (op a).1 (op a).2) := by
  obtain ⟨node, r, node', hnode, hid, hvalue, hmatching, hnode', hvalue', hr, hret⟩ :=
    hset.wired.call p hp a hevent
  refine ⟨node, r, node', hnode, hid, hmatching, hnode', hr, hret, ?_⟩
  rw [hvalue, hvalue']
  rfl

theorem exists_of_cacheContains {cache : Cache S} {e : CacheEntry S}
    (h : cacheContains model cache e = true) : ∃ hash, ∃ e' ∈ cache hash,
      e.linearized.equals e'.linearized = true ∧ model.equal e.state e'.state = true := by
  obtain ⟨e', he', hequal⟩ := List.any_eq_true.mp h
  rw [Bool.and_eq_true] at hequal
  exact ⟨_, e', he', hequal⟩

theorem toNat?_natCast (a : ℕ) : (a : ℤ).toNat? = some a := rfl

/-- **Looking at a call** is a step of the search. -/
theorem Sim.call (hset : Setting op N n nodes) (h : Sim nodes N n s c ft fr)
    (hwf : WellFormed c.history) (computePartial : Bool) {a : ℕ} {rest : List (Event ℕ)}
    (hrest : c.rest = .call a :: rest) :
    ∃ s' c' ft' fr', iterate model computePartial N n false s = some (.again s') ∧
      Next (opStep model op) (fun s t => model.equal s t = true) c c' ∧
      Sim nodes N n s' c' ft' fr' ∧ s'.longest = s.longest := by
  obtain ⟨p, fr', hfr, hentry, hpN, hevent, hfr'⟩ := h.entry_cons hrest
  obtain ⟨node, r, node', hnode, hid, hmatching, hnode', hrN, hret, hstep⟩ :=
    Wired.stepValues hset hpN hevent model s.state
  have hne := h.next_ne_none (hfr ▸ List.cons_ne_nil p fr')
  have hiterate : iterate model computePartial N n false s =
      (if (model.step s.state (op a).1 (op a).2).1 then do
        let newLinearized ← s.linearized.set a
        let newCacheEntry := { linearized := newLinearized
                               state := (model.step s.state (op a).1 (op a).2).2 : CacheEntry S }
        if cacheContains model s.cache newCacheEntry then
          some (.again { s with entry := s.heap.links.next p })
        else
          let heap ← lift s.heap p
          some (.again { s with
            heap := heap
            entry := heap.links.next N
            state := (model.step s.state (op a).1 (op a).2).2
            linearized := newLinearized
            cache := Function.update s.cache newLinearized.hash
              (s.cache newLinearized.hash ++ [newCacheEntry])
            calls := s.calls ++ [{ entry := p, state := s.state }] })
      else some (.again { s with entry := s.heap.links.next p })) := by
    simp only [iterate, if_neg hne, hentry, h.heap, hnode, hmatching, hnode', hstep, hid,
      Option.bind_eq_bind, Option.bind_some, Bool.false_eq_true, if_false, toNat?_natCast]
  by_cases hok : (model.step s.state (op a).1 (op a).2).1 = true
  swap
  · -- the object cannot execute the operation
    rw [Bool.not_eq_true] at hok
    rw [hok] at hiterate
    rw [h.state] at hok
    exact ⟨_, _, _, _, hiterate, .illegal hrest (opStep_eq_none.mpr hok), h.skip hrest hfr, rfl⟩
  have hop : opStep model op c.state a = some (model.step s.state (op a).1 (op a).2).2 :=
    h.state ▸ opStep_eq_some.mpr (Prod.ext hok rfl)
  have han : a < n := by
    have := hset.lt p hpN
    rwa [hevent] at this
  obtain ⟨newLinearized, hset', hlinearized⟩ := h.linearized.set han
  rw [← List.toFinset_cons] at hlinearized
  rw [hok, if_pos rfl, hset', Option.bind_eq_bind, Option.bind_some] at hiterate
  by_cases hcontains : cacheContains model s.cache
      { linearized := newLinearized, state := (model.step s.state (op a).1 (op a).2).2 } = true
  · -- the search was there before
    obtain ⟨hash, e', he', hequals, hequal⟩ := exists_of_cacheContains hcontains
    obtain ⟨T, hT, hseen⟩ := h.cache hash e' he'
    obtain rfl := (hlinearized.equals_iff hT).mp hequals
    rw [if_pos hcontains] at hiterate
    exact ⟨_, _, _, _, hiterate, .seen hrest hop hequal hseen, h.skip hrest hfr, rfl⟩
  · -- the operation is taken out
    rw [if_neg hcontains] at hiterate
    have hmap := h.map_eq
    obtain ⟨middle, back, rfl⟩ :=
      exists_middle hset h.sublist hfr hevent hrN hret (hmap.symm ▸ hwf)
    subst hfr
    have hnodup : (N :: (ft ++ p :: (middle ++ r :: back))).Nodup := by
      rw [List.nodup_cons]
      refine ⟨fun hmem => ?_, h.sublist.nodup (nodup_cells N)⟩
      exact lt_irrefl N (mem_cells.mp (h.sublist.subset hmem))
    obtain ⟨heap, hlift, hnodes, hlinked, hunlift⟩ :=
      lift_spec (h.heap.symm ▸ hnode) hmatching h.linked hnodup
    rw [hlift, Option.bind_eq_bind, Option.bind_some] at hiterate
    have hremove := map_eq_remove hset h.sublist hevent hret
    rw [hmap] at hremove
    refine ⟨_, _, [], ft ++ (middle ++ back), hiterate, .take hrest hop, ?_, rfl⟩
    refine ⟨hnodes.trans h.heap, hlinked, ?_, rfl, hremove, hlinked.next_head, rfl, hlinearized, ?_,
      ?_, h.longest⟩
    · refine List.Sublist.trans ?_ h.sublist
      refine List.Sublist.append_left ?_ ft
      refine List.Sublist.cons p ?_
      exact (List.sublist_cons_self r back).append_left middle
    · show Levels nodes N (s.calls ++ [_]).reverse _ heap.links
      rw [List.reverse_append, List.reverse_singleton, List.singleton_append]
      refine ⟨h.state, hevent, s.heap.links, ft, middle ++ r :: back, ?_, h.linked, h.sublist,
        h.tried, hfr', h.levels⟩
      rw [← hnodes.trans h.heap, hunlift, hnodes]
    · intro hash e he
      by_cases hhash : hash = newLinearized.hash
      · subst hhash
        simp only [Function.update_self, List.mem_append, List.mem_singleton] at he
        rcases he with he | rfl
        · obtain ⟨T, hT, hseen⟩ := h.cache _ e he
          exact ⟨T, hT, Set.mem_insert_of_mem _ hseen⟩
        · exact ⟨_, hlinearized, Set.mem_insert _ _⟩
      · simp only [Function.update_of_ne hhash] at he
        obtain ⟨T, hT, hseen⟩ := h.cache _ e he
        exact ⟨T, hT, Set.mem_insert_of_mem _ hseen⟩

/-! ### The partial linearizations -/

/-- A prefix of at least `k` operations is remembered for `i`. -/
def AtLeast (longest : List (Option (List ℤ))) (i k : ℕ) : Prop :=
  ∃ seq, longest[i]? = some (some seq) ∧ k ≤ seq.length

/-- The prefix `order` was remembered for its operations, unless there was a longer one. -/
structure Noted (computePartial : Bool) (order : List ℕ)
    (longest longest' : List (Option (List ℤ))) : Prop where
  length : longest'.length = longest.length
  old : ∀ (i : ℕ) seq, longest'[i]? = some (some seq) →
    longest[i]? = some (some seq) ∨ i ∈ order ∧ seq = order.map Nat.cast
  kept : ∀ i k, AtLeast longest i k → AtLeast longest' i k
  noted : computePartial = true → ∀ i ∈ order, AtLeast longest' i order.length

/-- A call is not remembered, if a prefix that is as long already is. -/
theorem noteOne_of_atLeast {longest : List (Option (List ℤ))} {a k : ℕ} (h : AtLeast longest a k)
    (seq : List ℤ) : noteOne k seq longest a = some longest := by
  obtain ⟨seq', hold, hk⟩ := h
  have hall : ¬ (some seq').all (fun seq' => decide (seq'.length < k)) = true := by simpa using hk
  simp only [noteOne, toNat?_natCast, hold, Option.bind_eq_bind, Option.bind_some, if_neg hall]

/-- **A call is remembered**, unless a prefix that is as long already is. -/
theorem noteOne_spec {longest : List (Option (List ℤ))} {a : ℕ} (ha : a < longest.length)
    (seq : List ℤ) : ∃ longest', noteOne seq.length seq longest a = some longest' ∧
      longest'.length = longest.length ∧
      (∀ (i : ℕ) seq', longest'[i]? = some (some seq') →
        longest[i]? = some (some seq') ∨ i = a ∧ seq' = seq) ∧
      (∀ i k, AtLeast longest i k → AtLeast longest' i k) ∧ AtLeast longest' a seq.length := by
  have hold : longest[a]? = some longest[a] := List.getElem?_eq_getElem ha
  by_cases hall : longest[a].all (fun seq' => decide (seq'.length < seq.length)) = true
  · refine ⟨longest.set a (some seq), ?_, List.length_set, fun i seq' hi => ?_,
      fun i k hi => ?_, ?_⟩
    · simp only [noteOne, toNat?_natCast, hold, Option.bind_eq_bind, Option.bind_some, if_pos hall]
    · by_cases hia : a = i
      · subst hia
        rw [List.getElem?_set_self ha] at hi
        cases hi
        exact .inr ⟨rfl, rfl⟩
      · rw [List.getElem?_set_ne hia] at hi
        exact .inl hi
    · obtain ⟨seq', hseq', hk⟩ := hi
      by_cases hia : a = i
      · subst hia
        rw [hold] at hseq'
        rw [Option.some.inj hseq', Option.all_some, decide_eq_true_eq] at hall
        exact ⟨seq, List.getElem?_set_self ha, hk.trans hall.le⟩
      · exact ⟨seq', by rwa [List.getElem?_set_ne hia], hk⟩
    · exact ⟨seq, List.getElem?_set_self ha, le_rfl⟩
  · have hleast : AtLeast longest a seq.length := by
      cases hseq' : longest[a] with
      | none => simp [hseq'] at hall
      | some seq' =>
        rw [hseq', Option.all_some, decide_eq_true_eq, Nat.not_lt] at hall
        exact ⟨seq', hseq' ▸ hold, hall⟩
    exact ⟨longest, noteOne_of_atLeast hleast seq, rfl, fun i seq' hi => .inl hi,
      fun i k hi => hi, hleast⟩

/-- **The calls are remembered** for their operations. -/
theorem noteLongest_spec {h : Heap I O} {calls : List (CallsEntry S)}
    {longest : List (Option (List ℤ))} {order : List ℕ}
    (hids : callIds h calls = some (order.map Nat.cast)) (hlength : calls.length = order.length)
    (horder : ∀ a ∈ order, a < longest.length) :
    ∃ longest', noteLongest h calls longest = some longest' ∧
      Noted true order longest longest' := by
  rw [← List.length_map (Nat.cast : ℕ → ℤ)] at hlength
  generalize hseq : order.map (Nat.cast : ℕ → ℤ) = seq at hids hlength
  have hfold : ∀ rest : List ℕ, (∀ a ∈ rest, a ∈ order) → ∀ longest : List (Option (List ℤ)),
      (∀ a ∈ order, a < longest.length) → ∃ longest',
        (rest.map Nat.cast).foldlM (noteOne seq.length seq) longest = some longest' ∧
        longest'.length = longest.length ∧
        (∀ (i : ℕ) seq', longest'[i]? = some (some seq') →
          longest[i]? = some (some seq') ∨ i ∈ order ∧ seq' = seq) ∧
        (∀ i k, AtLeast longest i k → AtLeast longest' i k) ∧
        ∀ i ∈ rest, AtLeast longest' i seq.length := by
    intro rest
    induction rest with
    | nil =>
      intro _ longest _
      exact ⟨longest, rfl, rfl, fun i seq' hi => .inl hi, fun i k hi => hi, by simp⟩
    | cons a rest ih =>
      intro hrest longest hlt
      obtain ⟨ha, hrest⟩ := List.forall_mem_cons.mp hrest
      have hnote := noteOne_spec (hlt a ha) seq
      obtain ⟨l₁, hl₁, hlength₁, hold₁, hkept₁, hnoted₁⟩ := hnote
      obtain ⟨l₂, hl₂, hlength₂, hold₂, hkept₂, hnoted₂⟩ := ih hrest l₁ (by rwa [hlength₁])
      refine ⟨l₂, ?_, hlength₂.trans hlength₁, fun i seq' hi => ?_,
        fun i k hi => hkept₂ i k (hkept₁ i k hi), fun i hi => ?_⟩
      · rw [List.map_cons, List.foldlM_cons, hl₁, Option.bind_eq_bind, Option.bind_some, hl₂]
      · rcases hold₂ i seq' hi with hi | hi
        · refine (hold₁ i seq' hi).imp_right ?_
          rintro ⟨rfl, hseq'⟩
          exact ⟨ha, hseq'⟩
        · exact .inr hi
      · rcases List.mem_cons.mp hi with rfl | hi
        · exact hkept₂ i _ hnoted₁
        · exact hnoted₂ i hi
  obtain ⟨longest', hl, hlen, hold, hkept, hnoted⟩ := hfold order (fun _ ha => ha) longest horder
  refine ⟨longest', ?_, hlen, fun i seq' hi => hseq ▸ hold i seq' hi, hkept, fun _ i hi => ?_⟩
  · rw [hseq] at hl
    rw [noteLongest, hids, Option.bind_eq_bind, Option.bind_some, hlength]
    exact hl
  · rw [← List.length_map (Nat.cast : ℕ → ℤ), hseq]
    exact hnoted i hi

/-- For every operation of a list that is remembered, it or a list that is as long is. -/
def Covered (longest : List (Option (List ℤ))) : Prop :=
  ∀ (i : ℕ) seq, longest[i]? = some (some seq) → ∀ a : ℕ, (a : ℤ) ∈ seq →
    AtLeast longest a seq.length

theorem Noted.covered {order : List ℕ} {longest longest' : List (Option (List ℤ))}
    (h : Noted true order longest longest') (hc : Covered longest) : Covered longest' := by
  intro i seq hi a ha
  rcases h.old i seq hi with hi | ⟨-, rfl⟩
  · exact h.kept a _ (hc i seq hi a ha)
  · obtain ⟨b, hb, hba⟩ := List.mem_map.mp ha
    obtain rfl := Int.ofNat.inj hba
    rw [List.length_map]
    exact h.noted rfl b hb

/-- **No list is stored twice**: if the calls are remembered already, nothing changes. -/
theorem Covered.noteLongest_eq_self {h : Heap I O} {calls : List (CallsEntry S)}
    {longest : List (Option (List ℤ))} {order : List ℕ} (hc : Covered longest)
    (hids : callIds h calls = some (order.map Nat.cast)) (hlength : calls.length = order.length)
    {i : ℕ} (hi : longest[i]? = some (some (order.map Nat.cast))) :
    noteLongest h calls longest = some longest := by
  have hkept : ∀ a ∈ order, AtLeast longest a order.length := by
    intro a ha
    have hcovers := hc i _ hi a (List.mem_map_of_mem ha)
    rwa [List.length_map] at hcovers
  have hfold : ∀ rest : List ℕ, rest ⊆ order →
      (rest.map Nat.cast).foldlM (noteOne order.length (order.map Nat.cast)) longest =
        some longest := by
    intro rest
    induction rest with
    | nil => exact fun _ => rfl
    | cons a rest ih =>
      intro hrest
      obtain ⟨ha, hrest⟩ := List.cons_subset.mp hrest
      rw [List.map_cons, List.foldlM_cons, noteOne_of_atLeast (hkept a ha), Option.bind_eq_bind,
        Option.bind_some, ih hrest]
  rw [noteLongest, hids, Option.bind_eq_bind, Option.bind_some, hlength]
  exact hfold order (List.Subset.refl _)

/-! ### Putting an operation back -/

/-- The node of a return. -/
theorem Sim.entry_ret (hset : Setting op N n nodes) (h : Sim nodes N n s c ft fr) {b : ℕ}
    {rest : List (Event ℕ)} (hrest : c.rest = .ret b :: rest) :
    ∃ p node, s.entry = some p ∧ s.heap.nodes[p]? = some node ∧ node.matching = none ∧
      s.heap.links.next N ≠ none := by
  obtain ⟨p, fr', hfr, hentry, hpN, hevent, -⟩ := h.entry_cons hrest
  obtain ⟨node, hnode, hmatching⟩ := hset.wired.ret p hpN b hevent
  exact ⟨p, node, hentry, h.heap.symm ▸ hnode, hmatching,
    h.next_ne_none (hfr ▸ List.cons_ne_nil p fr')⟩

/-- Nothing is left to try. -/
theorem Sim.giveUp (hset : Setting op N n nodes) (h : Sim nodes N n s c ft fr)
    (model : Model S I O) (computePartial : Bool) {b : ℕ} {rest : List (Event ℕ)}
    (hrest : c.rest = .ret b :: rest) (hframes : c.frames = []) :
    iterate model computePartial N n false s = some (.result false s.longest) := by
  obtain ⟨p, node, hentry, hnode, hmatching, hne⟩ := h.entry_ret hset hrest
  have hcalls := h.calls_eq_nil hframes
  simp only [iterate, if_neg hne, hentry, hnode, hmatching, hcalls, List.getLast?_nil,
    Option.bind_eq_bind, Option.bind_some, Bool.false_eq_true, if_false]

/-- **Putting an operation back** is a step of the search. -/
theorem Sim.putBack (hset : Setting op N n nodes) (h : Sim nodes N n s c ft fr)
    (hnodup : (taken c.frames).Nodup) (model : Model S I O) (computePartial : Bool) {b : ℕ}
    {rest : List (Event ℕ)} (hrest : c.rest = .ret b :: rest) {f : Frame ℕ S}
    {frames : List (Frame ℕ S)} (hframes : c.frames = f :: frames) :
    ∃ s' c' ft' fr', iterate model computePartial N n false s = some (.again s') ∧
      Next (opStep model op) (fun s t => model.equal s t = true) c c' ∧
      Sim nodes N n s' c' ft' fr' ∧
      Noted computePartial (taken c.frames).reverse s.longest s'.longest := by
  obtain ⟨p, node, hentry, hnode, hmatching, hne⟩ := h.entry_ret hset hrest
  obtain ⟨v, calls, hcalls, hlevels⟩ := h.getLast? hframes
  obtain ⟨hstate, hevent, links', ft', fr', hunlift, hlinked, hsublist, htried, hfr', hbelow⟩ :=
    hlevels
  have hvN : v.entry < N := mem_cells.mp (hsublist.subset (by simp))
  obtain ⟨vnode, r, -, hvnode, hid, -⟩ := hset.wired.call v.entry hvN f.op hevent
  have hlt : f.op < n := by
    have := hset.lt _ hvN
    rwa [hevent] at this
  have hheap : s.heap = { nodes := nodes, links := s.heap.links } := by rw [← h.heap]
  rw [hframes] at hnodup
  -- the calls are remembered
  obtain ⟨longest', hlongest', hnoted⟩ : ∃ longest',
      (if computePartial then noteLongest s.heap s.calls s.longest else some s.longest) =
        some longest' ∧
      Noted computePartial (taken c.frames).reverse s.longest longest' := by
    cases computePartial with
    | false =>
      exact ⟨s.longest, rfl, rfl, fun _ _ hi => .inl hi, fun _ _ hi => hi, fun hne => by cases hne⟩
    | true =>
      have hids := Levels.callIds hset h.levels s.heap h.heap
      rw [List.reverse_reverse] at hids
      have hlength := Levels.length_eq h.levels
      rw [List.length_reverse] at hlength
      refine noteLongest_spec hids (by simp [hlength]) fun a ha => ?_
      rw [h.longest]
      exact h.linearized.lt a (by simpa using ha)
  obtain ⟨linearized, hclear, hlinearized⟩ := h.linearized.clear hlt
  refine ⟨{ s with
      heap := { nodes := nodes, links := links' }
      entry := links'.next v.entry
      state := v.state
      linearized := linearized
      calls := calls
      longest := longest' }, _, ft' ++ [v.entry], fr', ?_, .putBack hrest hframes, ?_, hnoted⟩
  · have hlast : s.calls.getLast? = some v := by rw [hcalls, List.getLast?_concat]
    have hdrop : s.calls.dropLast = calls := by rw [hcalls, List.dropLast_concat]
    have hvnode' : s.heap.nodes[v.entry]? = some vnode := h.heap.symm ▸ hvnode
    have hunlift' : unlift s.heap v.entry = some { nodes := nodes, links := links' } := by
      rw [hheap, hunlift]
    simp only [iterate, if_neg hne, hentry, hnode, hmatching, hlast, hdrop, hvnode', hid,
      toNat?_natCast, hclear, hunlift', Option.bind_eq_bind, Option.bind_some, Bool.false_eq_true,
      if_false]
    cases computePartial with
    | false =>
      obtain rfl : s.longest = longest' := Option.some.inj hlongest'
      rfl
    | true =>
      rw [if_pos rfl] at hlongest' ⊢
      rw [hlongest']
      rfl
  · have happend : ft' ++ v.entry :: fr' = ft' ++ [v.entry] ++ fr' := by simp
    refine ⟨rfl, happend ▸ hlinked, happend ▸ hsublist, ?_, hfr', ?_, hstate, ?_, ?_, h.cache, ?_⟩
    · rw [List.map_append, htried, List.map_singleton, hevent]
    · rw [← List.cons_append] at hlinked
      exact hlinked.next_eq
    · rw [hframes, taken_cons, List.toFinset_cons, Finset.erase_insert] at hlinearized
      · exact hlinearized
      · rw [taken_cons, List.nodup_cons] at hnodup
        simpa using hnodup.1
    · exact hbelow
    · exact hnoted.length.trans h.longest

end ExchangeLabs.Porcupine
