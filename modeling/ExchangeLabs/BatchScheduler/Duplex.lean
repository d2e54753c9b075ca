import ExchangeLabs.BatchScheduler.Accounting

/-!
# One direction at a time

A wake-up is given for the direction that the bus has, or is opened in, at that moment,
and the task that uses it boards without another look at the bus.  So the bus is
half-duplex as long as it keeps its direction while there are wake-ups outstanding.
The code does not see to that: the last task on the bus sets the direction back to -1, and
what it finds then may open the bus the other way.

## Main definitions

* `Bus.Finds b d` — `release_slot` finds a task of the direction to wake.
* `System.KeepsDirection` — the last task that leaves re-opens the bus in its own
  direction if wake-ups are outstanding.
* `System.Safe` — the bus is within its capacity and half-duplex.

## Main results

* `safe_of_reach` — **the bus is safe in every run of such steps.**
* `not_safe` — it is not in all runs.
-/

namespace ExchangeLabs.BatchScheduler

namespace Bus

/-- `release_slot` finds a task of the direction to wake: there is an empty slot (or more
are promised than there are), and a priority task of the direction, or a normal one and no
priority task of the other. -/
def Finds (b : Bus) (d : Direction) : Prop :=
  b.emptyBusSlots ≠ 0 ∧
    (0 < b.tasks ⟨d, .priority⟩ ∨ b.tasks ⟨d.other, .priority⟩ = 0 ∧ 0 < b.tasks ⟨d, .normal⟩)

instance (b : Bus) (d : Direction) : Decidable (b.Finds d) :=
  inferInstanceAs (Decidable (_ ∧ _))

/-- An idle bus is opened in this direction.  Senders are looked for first. -/
def Reopens (b : Bus) : Direction → Prop
  | .send => b.Finds .send
  | .receive => ¬ b.Finds .send ∧ b.Finds .receive

instance (b : Bus) (d : Direction) : Decidable (b.Reopens d) :=
  match d with
  | .send => inferInstanceAs (Decidable (b.Finds .send))
  | .receive => inferInstanceAs (Decidable (_ ∧ _))

/-! ### What `release_slot` decides -/

variable {b : Bus} {d : Direction}

theorem wakeDirection_direction (d : Direction) (b : Bus) :
    ∀ kind ∈ (b.wakeDirection d).2, kind.direction = d := by
  intro kind hkind
  by_cases h : b.busDirection = some d.other
  · rw [wakeDirection_skip h] at hkind
    cases hkind
  · rw [wakeDirection_eq h] at hkind
    rcases List.mem_append.mp hkind with hmem | hmem <;> rw [List.eq_of_mem_replicate hmem]

theorem finds_iff (b : Bus) (d : Direction) :
    b.Finds d ↔ b.toWake ⟨d, .priority⟩ + b.wakeNormal d > 0 := by
  have hfirst := toWake_pos (b := b) ⟨d, .priority⟩
  by_cases hprio : 0 < b.toWake ⟨d, .priority⟩
  · obtain ⟨hempty, htasks⟩ := hfirst.mp hprio
    exact ⟨fun _ => by omega, fun _ => ⟨hempty, Or.inl htasks⟩⟩
  · -- with no priority task woken, the second call sees the counters as they were
    have hzero : b.toWake ⟨d, .priority⟩ = 0 := by omega
    have hsame : (b.wakeupWaitingTask ⟨d, .priority⟩).1 = b := by
      simp [wakeupWaitingTask, hzero]
    have hsecond := toWake_pos (b := b) ⟨d, .normal⟩
    unfold Finds wakeNormal
    rw [hsame, hzero, Nat.zero_add]
    by_cases hother : b.tasks ⟨d.other, .priority⟩ = 0
    · rw [if_pos hother]
      constructor
      · rintro ⟨hempty, htasks | ⟨-, htasks⟩⟩
        · exact absurd (hfirst.mpr ⟨hempty, htasks⟩) hprio
        · exact hsecond.mpr ⟨hempty, htasks⟩
      · intro hpos
        obtain ⟨hempty, htasks⟩ := hsecond.mp hpos
        exact ⟨hempty, Or.inr ⟨hother, htasks⟩⟩
    · rw [if_neg hother]
      constructor
      · rintro ⟨hempty, htasks | ⟨hzero', -⟩⟩
        · exact absurd (hfirst.mpr ⟨hempty, htasks⟩) hprio
        · exact absurd hzero' hother
      · intro hpos
        exact absurd hpos (lt_irrefl 0)

theorem wakeDirection_of_finds (h : b.busDirection ≠ some d.other) (hfinds : b.Finds d) :
    (b.wakeDirection d).1.busDirection = some d := by
  rw [wakeDirection_eq h]
  exact if_pos ((finds_iff b d).mp hfinds)

theorem wakeDirection_ne_nil (h : b.busDirection ≠ some d.other) :
    (b.wakeDirection d).2 ≠ [] ↔ b.Finds d := by
  rw [finds_iff, wakeDirection_eq h, ← List.length_pos_iff, List.length_append,
    List.length_replicate, List.length_replicate]

theorem wakeDirection_of_not_finds (hfinds : ¬ b.Finds d) : b.wakeDirection d = (b, []) := by
  by_cases h : b.busDirection = some d.other
  · exact wakeDirection_skip h
  · rw [finds_iff] at hfinds
    rw [wakeDirection_eq h, if_neg hfinds]
    have hfirst : b.toWake ⟨d, .priority⟩ = 0 := by omega
    have hsecond : b.wakeNormal d = 0 := by omega
    simp [hfirst, hsecond]

/-- A block of `release_slot` keeps the direction of a bus that has one. -/
theorem wakeDirection_keeps {d' : Direction} (h : b.busDirection = some d') :
    (b.wakeDirection d).1.busDirection = some d' := by
  by_cases hskip : b.busDirection = some d.other
  · rw [wakeDirection_skip hskip, h]
  · have hd : d' = d := by
      rcases d'.eq_or_eq_other d with hd | hd
      · exact hd
      · exact absurd (h.trans (congrArg some hd)) hskip
    rw [wakeDirection_eq hskip]
    dsimp only
    split
    · rw [hd]
    · exact h

/-- Who is woken has the direction of the bus. -/
theorem wakeDirection_woken {kind : Task} (hkind : kind ∈ (b.wakeDirection d).2) :
    (b.wakeDirection d).1.busDirection = some kind.direction := by
  rw [wakeDirection_direction d b kind hkind]
  by_cases h : b.busDirection = some d.other
  · rw [wakeDirection_skip h] at hkind
    cases hkind
  · by_cases hfinds : b.Finds d
    · exact wakeDirection_of_finds h hfinds
    · rw [wakeDirection_of_not_finds hfinds] at hkind
      cases hkind

theorem releaseWakes_woken {kind : Task} (hkind : kind ∈ b.releaseWakes.2) :
    b.releaseWakes.1.busDirection = some kind.direction := by
  rw [releaseWakes_eq] at hkind ⊢
  rcases List.mem_append.mp hkind with hmem | hmem
  · exact wakeDirection_keeps (wakeDirection_woken hmem)
  · exact wakeDirection_woken hmem

/-- As long as someone is left, the bus keeps its direction. -/
theorem releaseWakes_keeps (h : b.taskOnBus ≠ 0) (hd : b.busDirection = some d) :
    b.releaseWakes.1.busDirection = some d := by
  have hidle : b.idle = b := if_neg h
  rw [releaseWakes_eq, hidle]
  exact wakeDirection_keeps (wakeDirection_keeps hd)

theorem releaseWakes_reopens (h : b.taskOnBus = 0) (hd : b.Reopens d) :
    b.releaseWakes.1.busDirection = some d := by
  have hidle : b.idle = { b with busDirection := none } := if_pos h
  rw [releaseWakes_eq, hidle]
  cases d with
  | send => exact wakeDirection_keeps (wakeDirection_of_finds (by simp) hd)
  | receive =>
    obtain ⟨hsend, hreceive⟩ := hd
    have hskip : Bus.wakeDirection .send { b with busDirection := none } =
        ({ b with busDirection := none }, []) := wakeDirection_of_not_finds hsend
    rw [hskip]
    exact wakeDirection_of_finds (by simp) hreceive

end Bus

/-! ### The invariant -/

/-- The tasks of a kind on the bus and the wake-ups of the kind that are outstanding. -/
def System.claims (s : System) (kind : Task) : ℕ := s.atKind Phase.aboard kind + s.owed kind

/-- All who are on the bus or have been woken for it have its direction. -/
structure System.Duplex (s : System) : Prop where
  claims : ∀ kind, 0 < s.claims kind → s.bus.busDirection = some kind.direction
  /-- a task that is about to board was let in, or was woken, for this direction -/
  boarding : ∀ (i : ℕ) (task : Task), s.threads[i]? = some ⟨task, .boarding⟩ →
    ∀ d, s.bus.busDirection = some d → d = task.direction
  releasing : ∀ (i : ℕ) (task : Task), s.threads[i]? = some ⟨task, .releasing⟩ →
    s.bus.busDirection = some task.direction

/-- When the last task leaves while wake-ups are outstanding, it re-opens the bus in the
direction that it had. -/
def System.KeepsDirection (s : System) : Event → Prop
  | .create _ => True
  | .run i => ∀ thread ∈ s.threads[i]?, thread.phase = .releasing → s.bus.taskOnBus = 0 →
      0 < s.bus.waitingTask → s.bus.Reopens thread.task.direction

instance (s : System) (e : Event) : Decidable (s.KeepsDirection e) :=
  match e with
  | .create _ => inferInstanceAs (Decidable True)
  | .run i => inferInstanceAs (Decidable (∀ thread ∈ s.threads[i]?, _))

theorem duplex_init : System.init.Duplex where
  claims kind h := absurd h (lt_irrefl 0)
  boarding i task h := by cases h
  releasing i task h := by cases h

section Move

variable {s t : System} {i : ℕ} {task : Task} {p q : Phase}

theorem claims_eq {g h : Task → ℕ} (hi : s.threads[i]? = some ⟨task, p⟩)
    (ht : t.threads = s.threads.set i ⟨task, q⟩)
    (howed : ∀ kind, t.owed kind + g kind = s.owed kind + h kind) (kind : Task) :
    t.claims kind + g kind + (if task = kind then p.aboard else 0) =
      s.claims kind + h kind + (if task = kind then q.aboard else 0) := by
  have haboard := atKind_move Phase.aboard kind hi ht
  have := howed kind
  unfold System.claims
  omega

/-- A step that neither boards nor releases makes no new claim. -/
theorem System.Duplex.claims_move (hd : s.Duplex) (hi : s.threads[i]? = some ⟨task, p⟩)
    (ht : t.threads = s.threads.set i ⟨task, q⟩)
    (howed : ∀ kind, t.owed kind + s.used (.run i) kind = s.owed kind + s.given (.run i) kind)
    (hp : p ≠ .releasing) {kind : Task} (hq : task = kind → q.aboard ≤ p.aboard)
    (hpos : 0 < t.claims kind) : s.bus.busDirection = some kind.direction := by
  apply hd.claims
  have := claims_eq hi ht howed kind
  rw [given_eq hi hp] at this
  dsimp only at this
  split_ifs at this with hk
  · have := hq hk
    omega
  · omega

/-- Only the thread in the critical section sets the direction, so the others that are about to
board or to release are not concerned. -/
theorem System.Duplex.move (hd : s.Duplex) (hc : s.Counted) (hi : s.threads[i]? = some ⟨task, p⟩)
    (ht : t.threads = s.threads.set i ⟨task, q⟩)
    (hdir : 0 < p.critical ∨ t.bus.busDirection = s.bus.busDirection)
    (hclaims : ∀ kind, 0 < t.claims kind → t.bus.busDirection = some kind.direction)
    (hboarding : q = .boarding → ∀ d, t.bus.busDirection = some d → d = task.direction)
    (hreleasing : q = .releasing → t.bus.busDirection = some task.direction) : t.Duplex := by
  have hsame : ∀ {j : ℕ} {thread : Thread}, j ≠ i → s.threads[j]? = some thread →
      0 < thread.phase.critical → t.bus.busDirection = s.bus.busDirection := by
    intro j thread hji hj hcrit
    rcases hdir with hp | hdir
    · exact absurd (hc.critical_unique hj hi hcrit hp) hji
    · exact hdir
  refine ⟨hclaims, ?_, ?_⟩
  · intro j task' hj
    rw [ht] at hj
    rcases getElem?_set_cases hj with ⟨-, heq⟩ | ⟨hji, hj⟩
    · cases heq
      exact hboarding rfl
    · rw [hsame hji hj Nat.one_pos]
      exact hd.boarding j task' hj
  · intro j task' hj
    rw [ht] at hj
    rcases getElem?_set_cases hj with ⟨-, heq⟩ | ⟨hji, hj⟩
    · cases heq
      exact hreleasing rfl
    · rw [hsame hji hj Nat.one_pos]
      exact hd.releasing j task' hj

end Move

theorem System.Duplex.create {s : System} (hd : s.Duplex) (task : Task) :
    System.Duplex { s with threads := s.threads ++ [⟨task, .enter⟩] } := by
  have hmem : ∀ {i : ℕ} {thread : Thread}, (s.threads ++ [⟨task, .enter⟩])[i]? = some thread →
      thread.phase ≠ .enter → s.threads[i]? = some thread := by
    intro i thread hi hphase
    rw [List.getElem?_append] at hi
    split_ifs at hi with hlt
    · exact hi
    · rw [List.getElem?_singleton] at hi
      split_ifs at hi
      cases hi
      exact absurd rfl hphase
  refine ⟨fun kind hpos => hd.claims kind ?_, ?_, ?_⟩
  · have := (Stepped.create task).owed kind (s := s)
    unfold System.claims at hpos ⊢
    rw [atKind_create _ rfl] at hpos
    simp only [System.used, System.given] at this
    omega
  · intro i task' hi
    exact hd.boarding i task' (hmem hi (by simp))
  · intro i task' hi
    exact hd.releasing i task' (hmem hi (by simp))

/-- Nobody is on an idle bus, and with no wake-up outstanding nothing binds its direction. -/
theorem System.Counted.claims_eq_zero {s : System} (hc : s.Counted) (hbus : s.bus.taskOnBus = 0)
    (hwaiting : s.bus.waitingTask ≤ 0) (kind : Task) : s.claims kind = 0 := by
  have haboard : s.atKind Phase.aboard kind ≤ s.at Phase.aboard :=
    census_mono (fun thread => by split <;> omega) _
  have howed := le_total s.owed kind
  have := hc.taskOnBus
  have := hc.waitingTask
  unfold System.claims
  omega

/-- A task is let in if the bus is idle or has its direction. -/
theorem direction_of_mustWait {b : Bus} {task : Task} (h : b.mustWait task = false) {d : Direction}
    (hd : b.busDirection = some d) : d = task.direction := by
  by_contra hne
  have : b.busDirection ≠ none ∧ b.busDirection ≠ some task.direction := by
    rw [hd]
    exact ⟨by simp, by simpa using hne⟩
  unfold Bus.mustWait at h
  rw [if_pos this] at h
  split_ifs at h

theorem System.Duplex.step {s s' : System} {e : Event} (hd : s.Duplex) (hc : s.Counted)
    (hok : s.KeepsDirection e) (h : Stepped s e s') : s'.Duplex := by
  have howed := h.owed
  cases h with
  | create task => exact hd.create task
  | proceed i task hi hmutex hwait =>
    refine hd.move hc hi rfl (Or.inr rfl) ?_ ?_ (by simp)
    · exact fun kind => hd.claims_move hi rfl howed (by simp) (by simp [Phase.aboard])
    · intro _ d hdir
      exact direction_of_mustWait hwait hdir
  | retake i task hi hmutex =>
    refine hd.move hc hi rfl (Or.inr rfl) ?_ ?_ (by simp)
    · exact fun kind => hd.claims_move hi rfl howed (by simp) (by simp [Phase.aboard])
    · -- the wake-up that it used was one for the direction of the bus
      intro _ d hdir
      have hclaim : s.bus.busDirection = some task.direction := by
        apply hd.claims
        have hcalled : 1 ≤ s.atKind Phase.called task := le_atKind Phase.called hi
        unfold System.claims System.owed
        omega
      exact Option.some.inj (hdir.symm.trans hclaim)
  | board i task hi hslots =>
    refine hd.move hc hi rfl (Or.inl Nat.one_pos) ?_ (by simp) (by simp)
    intro kind hpos
    show some task.direction = some kind.direction
    by_cases hk : task = kind
    · rw [hk]
    · have hclaim : s.bus.busDirection = some kind.direction :=
        hd.claims_move hi rfl howed (by simp) (fun hk' => absurd hk' hk) hpos
      rw [hd.boarding i task hi _ hclaim]
  | arrive i task hi hmutex =>
    refine hd.move hc hi rfl (Or.inr rfl) ?_ (by simp) ?_
    · exact fun kind => hd.claims_move hi rfl howed (by simp) (by simp [Phase.aboard])
    · intro _
      apply hd.claims
      have haboard : 1 ≤ s.atKind Phase.aboard task := le_atKind Phase.aboard hi
      unfold System.claims
      omega
  | release i task hi =>
    refine hd.move hc hi rfl (Or.inl Nat.one_pos) ?_ (by simp) (by simp)
    intro kind hpos
    show s.bus.releaseWakes.1.busDirection = some kind.direction
    have hclaims := claims_eq hi rfl howed kind
    rw [given_releasing hi] at hclaims
    by_cases hwoken : kind ∈ s.bus.releaseWakes.2
    · exact Bus.releaseWakes_woken hwoken
    · have hold : 0 < s.claims kind := by
        have hcount := List.count_eq_zero_of_not_mem hwoken
        simp only [Phase.aboard, ite_self] at hclaims
        omega
      have hdir := hd.claims kind hold
      by_cases hbus : s.bus.taskOnBus = 0
      · -- nobody is left, so the claim is a wake-up
        have hwaiting : 0 < s.bus.waitingTask := by
          by_contra hle
          have := hc.claims_eq_zero hbus (by omega) kind
          omega
        have hreopens := hok ⟨task, .releasing⟩ hi rfl hbus hwaiting
        rw [Bus.releaseWakes_reopens hbus hreopens, ← hdir]
        exact (hd.releasing i task hi).symm
      · exact Bus.releaseWakes_keeps hbus hdir
  | wait i task hi hmutex hwait | park i task hi | depart i task hi | wake i task kind kinds hi
  | finish i task hi | hear i task hi hsem =>
    refine hd.move hc hi rfl (Or.inr rfl) ?_ (by simp) (by simp)
    exact fun kind => hd.claims_move hi rfl howed (by simp) (by simp [Phase.aboard])

/-! ### Safety of the bus -/

/-- The bus is within its capacity, and all tasks on it have one direction. -/
def System.Safe (s : System) : Prop :=
  s.at Phase.aboard ≤ busCapacity ∧
    ∀ a ∈ s.threads, ∀ b ∈ s.threads, 0 < a.phase.aboard → 0 < b.phase.aboard →
      a.task.direction = b.task.direction

theorem System.Duplex.direction_eq {s : System} (hd : s.Duplex) {a : Thread} (ha : a ∈ s.threads)
    (haboard : 0 < a.phase.aboard) : s.bus.busDirection = some a.task.direction := by
  obtain ⟨i, hi⟩ := List.mem_iff_getElem?.mp ha
  have hle : a.phase.aboard ≤ s.atKind Phase.aboard a.task := le_atKind Phase.aboard hi
  apply hd.claims
  unfold System.claims
  omega

/-- **The bus is safe** in every run in which it keeps its direction while wake-ups are
outstanding. -/
theorem safe_of_reach {s : System} (hs : ReachWhile step System.KeepsDirection System.init s) :
    s.Safe := by
  have hinv : s.Counted ∧ s.Duplex := by
    refine hs.invariant (P := fun s => s.Counted ∧ s.Duplex) ⟨counted_init, duplex_init⟩
      fun t e u ⟨hc, hd⟩ hok hstep => ?_
    have hstepped := stepped_of_step hstep
    exact ⟨hc.step hstepped, hd.step hc hok hstepped⟩
  refine ⟨aboard_le_of_reach hs, fun a ha b hb haboard hboard => ?_⟩
  have hdir := hinv.2.direction_eq ha haboard
  rw [hinv.2.direction_eq hb hboard] at hdir
  exact (Option.some.inj hdir).symm

/-- A sender leaves the bus to two receivers, and the first of them to leave in turn finds the
second one woken. -/
def handOver : List Event :=
  [.create ⟨.send, .normal⟩, .create ⟨.receive, .normal⟩, .create ⟨.receive, .normal⟩] ++
    List.replicate 3 (.run 0) ++ List.replicate 2 (.run 1) ++ List.replicate 2 (.run 2) ++
    List.replicate 5 (.run 0) ++ List.replicate 8 (.run 1) ++ List.replicate 3 (.run 2)

theorem safe_handOver :
    ∃ s, run (restrict step System.KeepsDirection) System.init handOver = some s ∧ s.Safe := by
  have hrun : (run (restrict step System.KeepsDirection) System.init handOver).isSome := by
    decide +kernel
  obtain ⟨s, hs⟩ := Option.isSome_iff_exists.mp hrun
  exact ⟨s, hs, safe_of_reach (reachWhile_of_run _ _ _ hs)⟩

/-- A receiver is woken on an idle bus; another one passes it, and when that one leaves, the bus
is opened for a priority sender.  Both board. -/
def crossing : List Event :=
  [.create ⟨.send, .normal⟩, .create ⟨.receive, .normal⟩, .create ⟨.receive, .normal⟩,
    .create ⟨.send, .priority⟩] ++
    List.replicate 3 (.run 0) ++ List.replicate 2 (.run 1) ++ List.replicate 4 (.run 0) ++
    List.replicate 3 (.run 2) ++ List.replicate 2 (.run 3) ++ List.replicate 4 (.run 2) ++
    List.replicate 4 (.run 1) ++ List.replicate 4 (.run 3)

/-- **The bus is not half-duplex**: a receiver and a sender transfer at one time. -/
theorem not_safe : ∃ s, Reach step System.init s ∧
    ∃ a ∈ s.threads, ∃ b ∈ s.threads, a.phase = .transfer ∧ b.phase = .transfer ∧
      a.task.direction ≠ b.task.direction := by
  have hrun : ∃ s ∈ run step System.init crossing, ∃ a ∈ s.threads, ∃ b ∈ s.threads,
      a.phase = .transfer ∧ b.phase = .transfer ∧ a.task.direction ≠ b.task.direction := by
    decide +kernel
  obtain ⟨s, hs, hcross⟩ := hrun
  exact ⟨s, reach_of_run crossing _ _ hs, hcross⟩

end ExchangeLabs.BatchScheduler
