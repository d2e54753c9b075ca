import Mathlib.Logic.Relation
import ExchangeLabs.Lib.Backtracking

/-!
# What the search has seen

When nothing is left to try, the search has been in every state to which some beginning of a
linearization leads, or in one that counts as equal, and with the same operations taken out.

## Main definitions

* `MayBeFirst h a` — no operation of `h` was over before `a` began.
* `Explored step equal s₀ h₀ c` — the invariant.

## Main results

* `Explored.next` — the invariant is kept.
* `Explored.exists_seen` — **every beginning of a linearization was seen.**
-/

namespace ExchangeLabs.Linearization

open Relation

variable {α σ : Type*} [DecidableEq α] {a b : α} {step : σ → α → Option σ} {equal : σ → σ → Prop}
  {s₀ s t s' : σ} {h h₀ : List (Event α)} {seen seen' : Set (Finset α × σ)} {T : Finset α}
  {frames : List (Frame α σ)} {c c' : Config α σ}

/-- No operation of `h` was over before `a` began. -/
def MayBeFirst (h : List (Event α)) (a : α) : Prop :=
  .call a ∈ h ∧ ∀ b, .call b ∈ h → b ≠ a → ¬ Before h b a

/-- The state after `a` was seen, if there is one. -/
def Covered (step : σ → α → Option σ) (equal : σ → σ → Prop) (seen : Set (Finset α × σ))
    (T : Finset α) (t : σ) (a : α) : Prop :=
  ∀ s', step t a = some s' → ∃ t', ReflTransGen equal s' t' ∧ (insert a T, t') ∈ seen

/-- What was tried before each of the operations that were taken out is covered, and so is the
operation itself. -/
def PathCovered (step : σ → α → Option σ) (equal : σ → σ → Prop) (seen : Set (Finset α × σ)) :
    List (Frame α σ) → Prop
  | [] => True
  | f :: frames => (∀ a, .call a ∈ f.tried ++ [.call f.op] →
      Covered step equal seen (taken frames).toFinset f.state a) ∧
        PathCovered step equal seen frames

/-- Every state that was seen is on the way, or what may come next was seen as well. -/
structure Explored (step : σ → α → Option σ) (equal : σ → σ → Prop) (h₀ : List (Event α))
    (c : Config α σ) : Prop where
  tried : ∀ a, .call a ∈ c.tried → Covered step equal c.seen (taken c.frames).toFinset c.state a
  path : PathCovered step equal c.seen c.frames
  seen : ∀ p ∈ c.seen, OnPath c.frames c.state p ∨
    ∀ a, MayBeFirst (without p.1 h₀) a → Covered step equal c.seen p.1 p.2 a

theorem explored_start (step : σ → α → Option σ) (equal : σ → σ → Prop) (s₀ : σ)
    (h₀ : List (Event α)) : Explored step equal h₀ (.start s₀ h₀) where
  tried := fun _ ha => absurd ha List.not_mem_nil
  path := trivial
  seen := fun _ hp => absurd hp (Set.notMem_empty _)

theorem Covered.mono (hcovered : Covered step equal seen T t a) (hseen : seen ⊆ seen') :
    Covered step equal seen' T t a := by
  intro s' hs'
  obtain ⟨t', hst, ht'⟩ := hcovered s' hs'
  exact ⟨t', hst, hseen ht'⟩

theorem PathCovered.mono (hpath : PathCovered step equal seen frames) (hseen : seen ⊆ seen') :
    PathCovered step equal seen' frames := by
  induction frames with
  | nil => trivial
  | cons f frames ih => exact ⟨fun a ha => (hpath.1 a ha).mono hseen, ih hpath.2⟩

/-- Another operation was tried. -/
theorem Explored.skip {rest : List (Event α)} (hc : Explored step equal h₀ c)
    (ha : Covered step equal c.seen (taken c.frames).toFinset c.state a) :
    Explored step equal h₀ { c with tried := c.tried ++ [.call a], rest := rest } := by
  refine ⟨fun b hb => ?_, hc.path, hc.seen⟩
  rcases List.mem_append.mp hb with hb | hb
  · exact hc.tried b hb
  · cases List.mem_singleton.mp hb
    exact ha

/-- What may come first was tried when nothing is left to try. -/
theorem Coherent.mem_tried (hh₀ : WellFormed h₀) (hc : Coherent step s₀ h₀ c)
    {rest : List (Event α)}
    (hrest : c.rest = .ret b :: rest) (ha : MayBeFirst (without (taken c.frames).toFinset h₀) a) :
    .call a ∈ c.tried := by
  have hhistory : c.history = c.tried ++ .ret b :: rest := by rw [Config.history, hrest]
  rw [← hc.path.history_eq, hhistory] at ha
  exact mem_of_first (hhistory ▸ hc.path.wellFormed hh₀) ha.1 ha.2

/-- **The invariant is kept.** -/
theorem Explored.next (hh₀ : WellFormed h₀) (hcoherent : Coherent step s₀ h₀ c)
    (hc : Explored step equal h₀ c) (hnext : Next step equal c c') :
    Explored step equal h₀ c' := by
  cases hnext with
  | illegal hrest hstep =>
    refine hc.skip fun s' hs' => ?_
    rw [hstep] at hs'
    cases hs'
  | @seen a rest s' t hrest hstep hst hseen =>
    refine hc.skip fun s₂ hs₂ => ?_
    rw [hstep] at hs₂
    cases hs₂
    rw [List.toFinset_cons] at hseen
    exact ⟨t, .single hst, hseen⟩
  | @take a rest s' hrest hstep =>
    have hmono := Set.subset_insert ((a :: taken c.frames).toFinset, s') c.seen
    refine ⟨fun b hb => absurd hb List.not_mem_nil, ⟨fun b hb => ?_, hc.path.mono hmono⟩,
      fun p hp => ?_⟩
    · rcases List.mem_append.mp hb with hb | hb
      · exact (hc.tried b hb).mono hmono
      · cases List.mem_singleton.mp hb
        intro s₂ hs₂
        rw [hstep] at hs₂
        cases hs₂
        rw [← List.toFinset_cons]
        exact ⟨s', .refl, Set.mem_insert _ _⟩
    · rcases Set.mem_insert_iff.mp hp with rfl | hp
      · exact .inl (.inl rfl)
      · rcases hc.seen p hp with hon | hclosed
        · exact .inl (.inr hon)
        · exact .inr fun b hb => (hclosed b hb).mono hmono
  | @putBack b rest f frames hrest hframes =>
    have hpath := hc.path
    have hseen := hc.seen
    have htried := hc.tried
    have hall : ∀ a, MayBeFirst (without (taken c.frames).toFinset h₀) a → .call a ∈ c.tried :=
      fun a ha => hcoherent.mem_tried hh₀ hrest ha
    rw [hframes] at hpath hseen htried hall
    refine ⟨hpath.1, hpath.2, fun p hp => ?_⟩
    rcases hseen p hp with (rfl | hon) | hclosed
    · -- the state that is left: what may come next was tried
      exact .inr fun a ha => htried a (hall a ha)
    · exact .inl hon
    · exact .inr hclosed

/-! ### Every beginning was seen -/

omit [DecidableEq α] in
theorem Begins.of_append {before : α → α → Prop} {operations order order' : List α}
    (horder : Begins before step s operations (order ++ order')) :
    Begins before step s operations order := by
  obtain ⟨hnodup, hsubset, hrespects, hclosed, hlegal⟩ := horder
  rw [List.pairwise_append] at hrespects
  refine ⟨hnodup.of_append_left, (List.append_subset.mp hsubset).1, hrespects.1,
    fun a ha b hb hbefore => ?_, ?_⟩
  · refine (List.mem_append.mp
      (hclosed a (List.mem_append_left _ ha) b hb hbefore)).resolve_right fun hb' => ?_
    exact hrespects.2.2 a ha b hb' hbefore
  · rw [run_append] at hlegal
    cases hrun : run step s order with
    | none =>
      rw [hrun] at hlegal
      cases hlegal
    | some t => rfl

/-- The last operation of a beginning may come first in what the others leave. -/
theorem Begins.mayBeFirst {order : List α}
    (horder : Begins (Before h₀) step s (ops h₀) (order ++ [a])) :
    MayBeFirst (without order.toFinset h₀) a := by
  obtain ⟨hnodup, hsubset, -, hclosed, -⟩ := horder
  have hnew : a ∉ order := by
    rw [List.nodup_append_comm] at hnodup
    exact (List.nodup_cons.mp hnodup).1
  refine ⟨List.mem_filter.mpr ⟨mem_ops.mp (hsubset (by simp)), by simpa using hnew⟩,
    fun b hb hba hbefore => ?_⟩
  obtain ⟨hb, hbnew⟩ := List.mem_filter.mp hb
  have := hclosed a (by simp) b (mem_ops.mpr hb) (hbefore.trans List.filter_sublist)
  rw [List.mem_append, List.mem_singleton] at this
  rcases this with hmem | rfl
  · simp [hmem] at hbnew
  · exact hba rfl

omit [DecidableEq α] in
/-- States that count as equal can do the same. -/
theorem exists_step_of_reflTransGen (hequal : ∀ s t a s', equal s t → step s a = some s' →
      ∃ t', step t a = some t' ∧ equal s' t')
    (hst : ReflTransGen equal s t) (hs' : step s a = some s') :
    ∃ t', step t a = some t' ∧ ReflTransGen equal s' t' := by
  induction hst with
  | refl => exact ⟨s', hs', .refl⟩
  | tail _ hequal' ih =>
    obtain ⟨t', ht', hst'⟩ := ih
    obtain ⟨u', hu', htu⟩ := hequal _ _ _ _ hequal' ht'
    exact ⟨u', hu', hst'.tail htu⟩

/-- **Every beginning of a linearization was seen** when nothing is left to try. -/
theorem Explored.exists_seen (hequal : ∀ s t a s', equal s t → step s a = some s' →
      ∃ t', step t a = some t' ∧ equal s' t')
    (hh₀ : WellFormed h₀) (hcoherent : Coherent step s₀ h₀ c) (hc : Explored step equal h₀ c)
    (hframes : c.frames = []) {rest : List (Event α)} (hrest : c.rest = .ret b :: rest)
    {order : List α} (hne : order ≠ [])
    (horder : Begins (Before h₀) step s₀ (ops h₀) order) :
    ∃ t, (order.toFinset, t) ∈ c.seen ∧
      ∀ s, run step s₀ order = some s → ReflTransGen equal s t := by
  have hpath := hcoherent.path
  rw [hframes] at hpath
  -- the states that were seen, and the one from which the search began, are closed
  have hclosed : ∀ T t, T = ∅ ∧ t = s₀ ∨ (T, t) ∈ c.seen →
      ∀ a, MayBeFirst (without T h₀) a → Covered step equal c.seen T t a := by
    rintro T t (⟨rfl, rfl⟩ | hT) a ha
    · have htried := hc.tried a (hcoherent.mem_tried hh₀ hrest (by rwa [hframes]))
      rw [hframes, hpath.1] at htried
      exact htried
    · rcases hc.seen _ hT with hon | hclosed
      · rw [hframes] at hon
        exact hon.elim
      · exact hclosed a ha
  induction order using List.reverseRecOn with
  | nil => exact absurd rfl hne
  | append_singleton order a ih =>
    obtain ⟨s, hs⟩ := Option.isSome_iff_exists.mp horder.legal
    rw [run_append] at hs
    obtain ⟨s₁, hs₁, hlast⟩ := Option.bind_eq_some_iff.mp hs
    obtain ⟨t₁, ht₁, hst₁⟩ : ∃ t₁, (order.toFinset = ∅ ∧ t₁ = s₀ ∨ (order.toFinset, t₁) ∈ c.seen) ∧
        ReflTransGen equal s₁ t₁ := by
      by_cases hempty : order = []
      · subst hempty
        exact ⟨s₀, .inl ⟨rfl, rfl⟩, by rw [Option.some.inj hs₁]⟩
      · obtain ⟨t₁, ht₁, hst₁⟩ := ih hempty horder.of_append
        exact ⟨t₁, .inr ht₁, hst₁ s₁ hs₁⟩
    have hstep : step s₁ a = some s := by
      rw [run] at hlast
      obtain ⟨s₂, hs₂, heq⟩ := Option.bind_eq_some_iff.mp hlast
      rw [hs₂]
      exact heq
    obtain ⟨t₂, ht₂, hst₂⟩ := exists_step_of_reflTransGen hequal hst₁ hstep
    obtain ⟨t₃, ht₃, hmem⟩ := hclosed _ _ ht₁ a horder.mayBeFirst t₂ ht₂
    refine ⟨t₃, ?_, fun s' hs' => ?_⟩
    · rw [List.toFinset_append, List.toFinset_cons, List.toFinset_nil, insert_empty_eq,
        Finset.union_comm]
      exact hmem
    · rw [run_append, hs₁, Option.bind_some, hlast] at hs'
      cases hs'
      exact hst₂.trans ht₃

end ExchangeLabs.Linearization
