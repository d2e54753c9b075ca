import Mathlib.Data.List.MinMax
import Mathlib.Data.List.Perm.Basic
import Mathlib.Data.List.Perm.Subperm
import Mathlib.Order.Defs.LinearOrder
import ExchangeLabs.Lib.Run

/-!
# Linearizable histories

A history is a list of operations, some of which were over before others began.  It is
linearizable when its operations can be put into an order that the object they were done to
can execute and in which no operation comes before one that was over when it began.

## Main definitions

* `Linearizes before step s ops order` — `order` is such an order.
* `Linearizable before step s ops` — there is one.
* `Begins before step s ops order` — `order` looks like the beginning of one.
* `byKey key step` — the object that consists of one part for every key.

## Main results

* `Linearizable.cons`, `Linearizable.exists_first` — a linearization from its first operation.
* `linearizable_map_iff` — operations under other names.
* `linearizable_byKey_iff` — **locality**: when operations take time, a history of a product
  is linearizable if and only if its history at every key is.
-/

namespace ExchangeLabs.Linearization

variable {α β σ κ τ : Type*} {before before' : α → α → Prop} {step : σ → α → Option σ} {s s' : σ}
  {ops ops' order : List α} {a : α}

/-- The order `order` of the operations `ops` keeps their order in time, and the object can
execute it from the state `s`. -/
structure Linearizes (before : α → α → Prop) (step : σ → α → Option σ) (s : σ)
    (ops order : List α) : Prop where
  perm : order.Perm ops
  respects : order.Pairwise fun a b => ¬ before b a
  legal : (run step s order).isSome

/-- Some order of the operations is a linearization. -/
def Linearizable (before : α → α → Prop) (step : σ → α → Option σ) (s : σ) (ops : List α) : Prop :=
  ∃ order, Linearizes before step s ops order

/-- The order `order` of some of the operations may be the beginning of a linearization: it
keeps their order in time, contains with an operation all that were over before it began, and
the object can execute it. -/
structure Begins (before : α → α → Prop) (step : σ → α → Option σ) (s : σ)
    (ops order : List α) : Prop where
  nodup : order.Nodup
  subset : order ⊆ ops
  respects : order.Pairwise fun a b => ¬ before b a
  closed : ∀ a ∈ order, ∀ b ∈ ops, before b a → b ∈ order
  legal : (run step s order).isSome

theorem linearizes_nil : Linearizes before step s [] [] :=
  ⟨.nil, .nil, rfl⟩

theorem Linearizes.congr (h : Linearizes before step s ops order) (hops : ops.Perm ops') :
    Linearizes before step s ops' order :=
  ⟨h.perm.trans hops, h.respects, h.legal⟩

theorem Begins.congr (h : Begins before step s ops order) (hops : ops.Perm ops') :
    Begins before step s ops' order where
  nodup := h.nodup
  subset := List.Subset.trans h.subset hops.subset
  respects := h.respects
  closed := fun a ha b hb => h.closed a ha b (hops.symm.subset hb)
  legal := h.legal

theorem linearizable_congr (hops : ops.Perm ops') :
    Linearizable before step s ops ↔ Linearizable before step s ops' := by
  constructor
  · rintro ⟨order, h⟩
    exact ⟨order, h.congr hops⟩
  · rintro ⟨order, h⟩
    exact ⟨order, h.congr hops.symm⟩

/-- Only the order in time of the operations themselves matters. -/
theorem Linearizes.of_before (h : Linearizes before step s ops order)
    (hbefore : ∀ a ∈ ops, ∀ b ∈ ops, before' a b → before a b) :
    Linearizes before' step s ops order := by
  obtain ⟨hperm, hrespects, hlegal⟩ := h
  refine ⟨hperm, ?_, hlegal⟩
  refine hrespects.imp_of_mem ?_
  intro a b ha hb hab hba
  exact hab (hbefore b (hperm.subset hb) a (hperm.subset ha) hba)

theorem Linearizable.of_before (h : Linearizable before step s ops)
    (hbefore : ∀ a ∈ ops, ∀ b ∈ ops, before' a b → before a b) :
    Linearizable before' step s ops := by
  obtain ⟨order, h⟩ := h
  exact ⟨order, h.of_before hbefore⟩

/-- A state that can do whatever another one can finishes whatever that one finishes. -/
theorem Linearizable.of_simulates {equal : σ → σ → Prop} {t : σ}
    (h : Linearizable before step s ops) (hst : equal s t)
    (hequal : ∀ s t a s', equal s t → step s a = some s' →
      ∃ t', step t a = some t' ∧ equal s' t') : Linearizable before step t ops := by
  obtain ⟨order, hperm, hrespects, hlegal⟩ := h
  refine ⟨order, hperm, hrespects, ?_⟩
  clear hperm hrespects
  induction order generalizing s t with
  | nil => rfl
  | cons a order ih =>
    obtain ⟨s₂, hs₂⟩ := Option.isSome_iff_exists.mp hlegal
    obtain ⟨s', hs', hrest⟩ := Option.bind_eq_some_iff.mp hs₂
    obtain ⟨t', ht', hst'⟩ := hequal s t a s' hst hs'
    rw [run, ht', Option.bind_some]
    exact ih hst' (hrest ▸ rfl)

theorem run_congr {step' : σ → α → Option σ} (hstep : ∀ a ∈ order, ∀ s, step s a = step' s a)
    (s : σ) : run step s order = run step' s order := by
  induction order generalizing s with
  | nil => rfl
  | cons a order ih =>
    rw [run, run, hstep a List.mem_cons_self]
    exact Option.bind_congr fun t _ => ih (fun b hb => hstep b (List.mem_cons_of_mem a hb)) t

/-- Only what is known of the operations matters. -/
theorem Begins.of_congr {step' : σ → α → Option σ} (h : Begins before step s ops order)
    (hbefore : ∀ a ∈ ops, ∀ b ∈ ops, before a b ↔ before' a b)
    (hstep : ∀ a ∈ ops, ∀ s, step s a = step' s a) : Begins before' step' s ops order where
  nodup := h.nodup
  subset := h.subset
  respects := h.respects.imp_of_mem fun ha hb =>
    mt (hbefore _ (h.subset hb) _ (h.subset ha)).mpr
  closed := fun a ha b hb hba => h.closed a ha b hb ((hbefore b hb a (h.subset ha)).mpr hba)
  legal := by
    rw [← run_congr fun a ha => hstep a (h.subset ha)]
    exact h.legal

theorem Linearizable.of_congr {step' : σ → α → Option σ} (h : Linearizable before step s ops)
    (hbefore : ∀ a ∈ ops, ∀ b ∈ ops, before a b ↔ before' a b)
    (hstep : ∀ a ∈ ops, ∀ s, step s a = step' s a) : Linearizable before' step' s ops := by
  obtain ⟨order, hperm, hrespects, hlegal⟩ := h
  refine ⟨order, hperm, hrespects.imp_of_mem fun ha hb =>
    mt (hbefore _ (hperm.subset hb) _ (hperm.subset ha)).mpr, ?_⟩
  rwa [← run_congr fun a ha => hstep a (hperm.subset ha)]

/-! ### The first operation -/

/-- An operation that none of the others is over before may come first. -/
theorem Linearizes.cons (h : Linearizes before step s' ops' order)
    (hops : ops.Perm (a :: ops')) (hfirst : ∀ b ∈ ops', ¬ before b a)
    (hstep : step s a = some s') : Linearizes before step s ops (a :: order) where
  perm := (h.perm.cons a).trans hops.symm
  respects := by
    rw [List.pairwise_cons]
    exact ⟨fun b hb => hfirst b (h.perm.subset hb), h.respects⟩
  legal := by
    rw [run, hstep, Option.bind_some]
    exact h.legal

theorem Linearizable.cons (h : Linearizable before step s' ops')
    (hops : ops.Perm (a :: ops')) (hfirst : ∀ b ∈ ops', ¬ before b a)
    (hstep : step s a = some s') : Linearizable before step s ops := by
  obtain ⟨order, h⟩ := h
  exact ⟨a :: order, h.cons hops hfirst hstep⟩

/-- What follows the first operation of a linearization is one of the other operations. -/
theorem Linearizes.tail (h : Linearizes before step s ops (a :: order))
    (hops : ops.Perm (a :: ops')) : (∀ b ∈ ops', ¬ before b a) ∧
      ∃ s', step s a = some s' ∧ Linearizes before step s' ops' order := by
  obtain ⟨hperm, hrespects, hlegal⟩ := h
  have hperm' : order.Perm ops' := (hperm.trans hops).cons_inv
  rw [List.pairwise_cons] at hrespects
  rw [run] at hlegal
  obtain ⟨s', hs'⟩ : ∃ s', step s a = some s' := by
    cases hstep : step s a with
    | none => rw [hstep] at hlegal; cases hlegal
    | some s' => exact ⟨s', rfl⟩
  rw [hs', Option.bind_some] at hlegal
  exact ⟨fun b hb => hrespects.1 b (hperm'.symm.subset hb), s', hs', hperm', hrespects.2, hlegal⟩

/-- A linearization begins with some operation. -/
theorem Linearizable.exists_first (h : Linearizable before step s ops) (hops : ops ≠ []) :
    ∃ a ∈ ops, ∀ ops', ops.Perm (a :: ops') → (∀ b ∈ ops', ¬ before b a) ∧
      ∃ s', step s a = some s' ∧ Linearizable before step s' ops' := by
  obtain ⟨order, h⟩ := h
  cases order with
  | nil => exact absurd h.perm.symm.eq_nil hops
  | cons a order =>
    refine ⟨a, h.perm.subset List.mem_cons_self, fun ops' hops' => ?_⟩
    obtain ⟨hfirst, s', hstep, h'⟩ := h.tail hops'
    exact ⟨hfirst, s', hstep, order, h'⟩

/-! ### Other names -/

theorem run_map (step : σ → α → Option σ) (f : β → α) (s : σ) (order : List β) :
    run step s (order.map f) = run (fun s i => step s (f i)) s order := by
  induction order generalizing s with
  | nil => rfl
  | cons i order ih =>
    rw [List.map_cons, run, run]
    exact Option.bind_congr fun t _ => ih t

/-- **Operations under other names** have the same linearizations. -/
theorem linearizable_map_iff {f : β → α} {ids : List β} :
    Linearizable before step s (ids.map f) ↔
      Linearizable (fun i j => before (f i) (f j)) (fun s i => step s (f i)) s ids := by
  constructor
  · rintro ⟨order, hperm, hrespects, hlegal⟩
    obtain ⟨order', rfl, hperm'⟩ := (congrFun₂ (List.eq_map_comp_perm f) _ _).mpr hperm
    rw [List.pairwise_map] at hrespects
    rw [run_map] at hlegal
    exact ⟨order', hperm', hrespects, hlegal⟩
  · rintro ⟨order, hperm, hrespects, hlegal⟩
    refine ⟨order.map f, hperm.map f, List.pairwise_map.mpr hrespects, ?_⟩
    rw [run_map]
    exact hlegal

/-! ### Locality -/

section Product

variable [DecidableEq κ] {key : α → κ} {part : τ → α → Option τ} {state : κ → τ}

/-- The object with one part for every key: an operation is done to the part at its key. -/
def byKey (key : α → κ) (part : τ → α → Option τ) (state : κ → τ) (a : α) : Option (κ → τ) :=
  (part (state (key a)) a).map (Function.update state (key a))

/-- The operations at the key `k`. -/
def atKey (key : α → κ) (k : κ) (ops : List α) : List α := ops.filter fun a => key a = k

/-- What a run of the product does at one key is a run of that part. -/
theorem run_atKey {state' : κ → τ} (h : run (byKey key part) state order = some state') (k : κ) :
    run part (state k) (atKey key k order) = some (state' k) := by
  induction order generalizing state with
  | nil =>
    cases h
    rfl
  | cons a order ih =>
    obtain ⟨next, hnext, hrest⟩ := Option.bind_eq_some_iff.mp h
    obtain ⟨v, hv, rfl⟩ := Option.map_eq_some_iff.mp hnext
    have hih := ih hrest
    by_cases hk : key a = k
    · subst hk
      rw [Function.update_self] at hih
      rw [atKey, List.filter_cons_of_pos (by simp), run, hv, Option.bind_some]
      exact hih
    · rw [Function.update_of_ne (fun heq => hk heq.symm)] at hih
      rw [atKey, List.filter_cons_of_neg (by simpa using hk)]
      exact hih

/-- The history at one key of a history that is linearizable is so. -/
theorem Linearizable.atKey (h : Linearizable before (byKey key part) state ops) (k : κ) :
    Linearizable before part (state k) (atKey key k ops) := by
  obtain ⟨order, hperm, hrespects, hlegal⟩ := h
  obtain ⟨state', hrun⟩ := Option.isSome_iff_exists.mp hlegal
  refine ⟨Linearization.atKey key k order, hperm.filter _, hrespects.filter _, ?_⟩
  rw [run_atKey hrun k]
  rfl

variable {T : Type*} [LinearOrder T] {call ret : α → T}

/-- An operation whose part may execute it first, and that no other one was over before: such
an operation is first at the key of the operation that is over first of all. -/
theorem exists_first_of_parts (hops : ops ≠ []) (htime : ∀ a ∈ ops, call a ≤ ret a)
    (h : ∀ k, Linearizable (fun a b => ret a < call b) part (state k) (atKey key k ops)) :
    ∃ a ops' v, ops.Perm (a :: ops') ∧ (∀ b ∈ ops', ¬ ret b < call a) ∧
      part (state (key a)) a = some v ∧
      Linearizable (fun a b => ret a < call b) part v (atKey key (key a) ops') := by
  obtain ⟨b, hmin⟩ : ∃ b, b ∈ ops.argmin ret :=
    Option.ne_none_iff_exists'.mp fun hnone => hops (List.argmin_eq_none.mp hnone)
  have hb : b ∈ ops := List.argmin_mem hmin
  obtain ⟨order, horder⟩ := h (key b)
  have hbAt : b ∈ order := horder.perm.symm.subset (List.mem_filter.mpr ⟨hb, by simp⟩)
  cases order with
  | nil => cases hbAt
  | cons a order =>
    obtain ⟨haOps, hkey⟩ := List.mem_filter.mp (horder.perm.subset List.mem_cons_self)
    have hkey : key a = key b := by simpa using hkey
    obtain ⟨front, back, rfl⟩ := List.append_of_mem haOps
    have hmiddle : (front ++ a :: back).Perm (a :: (front ++ back)) := List.perm_middle
    have hparts : (atKey key (key b) (front ++ a :: back)).Perm
        (a :: atKey key (key b) (front ++ back)) := by
      have := hmiddle.filter (fun c => decide (key c = key b))
      rwa [List.filter_cons_of_pos (by simpa using hkey)] at this
    obtain ⟨-, v, hv, hrest⟩ := horder.tail hparts
    refine ⟨a, front ++ back, v, hmiddle, fun c hc hlt => ?_, hkey ▸ hv, hkey ▸ ⟨order, hrest⟩⟩
    -- `b` is over before `c` is, so it would be over before `a` began
    have hbc := List.le_of_mem_argmin (hmiddle.symm.subset (List.mem_cons_of_mem a hc)) hmin
    have hba : ret b < call a := lt_of_le_of_lt hbc hlt
    rcases List.mem_cons.mp hbAt with rfl | hbRest
    · exact absurd hba (not_lt.mpr (htime b haOps))
    · exact (List.pairwise_cons.mp horder.respects).1 b hbRest hba

/-- **Locality**: when every operation begins before it is over, a history of a product is
linearizable if and only if its history at every key is. -/
theorem linearizable_byKey_iff (htime : ∀ a ∈ ops, call a ≤ ret a) :
    Linearizable (fun a b => ret a < call b) (byKey key part) state ops ↔
      ∀ k, Linearizable (fun a b => ret a < call b) part (state k) (atKey key k ops) := by
  refine ⟨Linearizable.atKey, fun h => ?_⟩
  -- on the number of operations; one is taken off that may be first
  induction hn : ops.length generalizing ops state with
  | zero =>
    rw [List.length_eq_zero_iff] at hn
    subst hn
    exact ⟨[], linearizes_nil⟩
  | succ n ih =>
    have hops : ops ≠ [] := by
      rintro rfl
      cases hn
    obtain ⟨a, ops', v, hperm, hfirst, hv, hrest⟩ := exists_first_of_parts hops htime h
    have hlength : ops'.length = n := by
      have := hperm.length_eq
      rw [List.length_cons, hn] at this
      omega
    have htime' : ∀ b ∈ ops', call b ≤ ret b :=
      fun b hb => htime b (hperm.symm.subset (List.mem_cons_of_mem a hb))
    have hstep : byKey key part state a = some (Function.update state (key a) v) := by
      rw [byKey, hv]
      rfl
    refine (ih htime' (fun k => ?_) hlength).cons hperm hfirst hstep
    by_cases hk : k = key a
    · subst hk
      rw [Function.update_self]
      exact hrest
    · rw [Function.update_of_ne hk]
      refine (linearizable_congr ?_).mp (h k)
      have hfilter := hperm.filter (fun c => decide (key c = k))
      rwa [List.filter_cons_of_neg (by simpa using fun heq => hk heq.symm)] at hfilter

end Product

end ExchangeLabs.Linearization
