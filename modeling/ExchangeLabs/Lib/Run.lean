import Mathlib.Tactic.Common

/-!
# Runs of a transition system

A system is a partial step function: `step s e = none` when the event `e` cannot
happen in the state `s`.  Runs may be restricted to steps that meet a condition
on the event and the state before it.

## Main definitions

* `run step s es` — the state after the events `es`.
* `restrict step ok` — the system without the steps that do not meet `ok`.
* `ReachWhile step ok s t` — `t` is reached from `s` by steps that meet `ok`.
* `Reach step s t` — `t` is reached from `s`.

## Main results

* `ReachWhile.invariant` — the induction rule for invariants.
* `reach_of_run`, `reachWhile_of_run`, `ReachWhile.of_run` — a computed run is a run.
* `foldl_round` — what a round of events achieves, whatever their order.
-/

namespace ExchangeLabs

variable {σ ε : Type*} {step : σ → ε → Option σ} {ok ok' : σ → ε → Prop} {s t u : σ}

/-- The state after a list of events, if they can all happen in order. -/
def run (step : σ → ε → Option σ) : σ → List ε → Option σ
  | s, [] => some s
  | s, e :: es => (step s e).bind fun s' => run step s' es

theorem run_append (step : σ → ε → Option σ) (s : σ) (es es' : List ε) :
    run step s (es ++ es') = (run step s es).bind fun t => run step t es' := by
  induction es generalizing s with
  | nil => rfl
  | cons e es ih =>
    rw [List.cons_append, run, run, Option.bind_assoc]
    exact Option.bind_congr fun t _ => ih t

/-- The steps that meet the condition `ok`. -/
def restrict (step : σ → ε → Option σ) (ok : σ → ε → Prop) [∀ s e, Decidable (ok s e)] (s : σ)
    (e : ε) : Option σ := if ok s e then step s e else none

/-- `t` is reached from `s` by steps that all meet the condition `ok`. -/
inductive ReachWhile (step : σ → ε → Option σ) (ok : σ → ε → Prop) (s : σ) : σ → Prop
  | refl : ReachWhile step ok s s
  | tail {t u : σ} (e : ε) (ht : ReachWhile step ok s t) (hok : ok t e)
      (hstep : step t e = some u) : ReachWhile step ok s u

/-- `t` is reached from `s`. -/
abbrev Reach (step : σ → ε → Option σ) : σ → σ → Prop := ReachWhile step fun _ _ => True

theorem ReachWhile.mono (h : ∀ s e, ok s e → ok' s e) (ht : ReachWhile step ok s t) :
    ReachWhile step ok' s t := by
  induction ht with
  | refl => exact .refl
  | tail e _ hok hstep ih => exact .tail e ih (h _ _ hok) hstep

theorem ReachWhile.trans (ht : ReachWhile step ok s t) (hu : ReachWhile step ok t u) :
    ReachWhile step ok s u := by
  induction hu with
  | refl => exact ht
  | tail e _ hok hstep ih => exact .tail e ih hok hstep

/-- **The invariant rule**: what holds at first and is preserved by the steps
that meet the condition holds in every state they reach. -/
theorem ReachWhile.invariant {P : σ → Prop} (hs : P s)
    (hstep : ∀ t e u, P t → ok t e → step t e = some u → P u) (ht : ReachWhile step ok s t) :
    P t := by
  induction ht with
  | refl => exact hs
  | tail e _ hok hstep' ih => exact hstep _ e _ ih hok hstep'

/-- A run that was computed is a run of steps that meet the condition. -/
theorem reachWhile_of_run [∀ s e, Decidable (ok s e)] : ∀ (es : List ε) (s t : σ),
    run (restrict step ok) s es = some t → ReachWhile step ok s t := by
  intro es
  induction es with
  | nil =>
    intro s t h
    cases h
    exact .refl
  | cons e es ih =>
    intro s t h
    obtain ⟨s', hs', ht⟩ := Option.bind_eq_some_iff.mp h
    unfold restrict at hs'
    split at hs'
    · next hok => exact (ReachWhile.tail e .refl hok hs').trans (ih s' t ht)
    · cases hs'

/-- A run that was computed is a run. -/
theorem reach_of_run (es : List ε) (s t : σ) (h : run step s es = some t) : Reach step s t := by
  refine reachWhile_of_run es s t (h ▸ congrArg (fun f => run f s es) ?_)
  funext s e
  exact if_pos trivial

/-- **The rule for rounds**: where every event keeps the invariant, achieves something of its
own and undoes nothing of what another one has achieved, a round of events achieves it all. -/
theorem foldl_round {f : σ → ε → σ} {I : σ → Prop} {D : ε → σ → Prop}
    (hinv : ∀ s e, I s → I (f s e)) (hdone : ∀ s e, I s → D e (f s e))
    (hkeep : ∀ s e e', I s → D e' s → D e' (f s e)) (round : List ε) :
    ∀ s, I s → I (round.foldl f s) ∧ ∀ e, e ∈ round ∨ D e s → D e (round.foldl f s) := by
  induction round with
  | nil =>
    intro s h
    exact ⟨h, fun e he => he.resolve_left List.not_mem_nil⟩
  | cons e round ih =>
    intro s h
    obtain ⟨h', hround⟩ := ih (f s e) (hinv s e h)
    refine ⟨h', fun e' he' => hround e' ?_⟩
    rcases he' with hmem | hold
    · rcases List.mem_cons.mp hmem with rfl | hmem
      · exact .inr (hdone s e' h)
      · exact .inl hmem
    · exact .inr (hkeep s e e' h hold)

end ExchangeLabs
