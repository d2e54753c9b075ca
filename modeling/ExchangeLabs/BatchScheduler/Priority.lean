import ExchangeLabs.BatchScheduler.Progress

/-!
# Priority tasks go first

The rule that `get_slot` states for priority tasks, and `release_slot` keeps: a normal task
does not get the bus while priority tasks wait, whatever their direction.  `release_slot`
looks at the priority counters of both directions before it wakes a normal task.
`get_slot` looks at the one of the task's own direction only.

## Main definitions

* `System.Acquires s i d u` — a normal task enters in `s`, need not wait, and takes its
  slot in `u`.
* `System.PriorityRule s` — no such task overtakes a priority task, nor does one that is
  woken.
* `System.YieldsToPriority` — no normal task enters a bus that it need not wait for while
  priority tasks of the other direction have not been woken.
* `System.PriorityFirst` — what `release_slot` has yet to signal.

## Main results

* `priorityFirst_of_reach` — a normal task is woken after all priority tasks, in every run.
* `priorityRule_of_reach` — **the rule holds in runs in which normal tasks yield.**
* `not_priorityRule` — it does not hold in others.
-/

namespace ExchangeLabs.BatchScheduler

/-! ### The rule -/

/-- The thread `i` runs a normal task, enters `get_slot` in `s` and finds `must_wait` false; in `u`,
after steps of other threads, it takes a slot. -/
structure System.Acquires (s : System) (i : ℕ) (d : Direction) (u : System) : Prop where
  enters : s.threads[i]? = some ⟨⟨d, .normal⟩, .enter⟩
  free : s.bus.mustWait ⟨d, .normal⟩ = false
  others : ∃ t, step s (.run i) = some t ∧ ReachWhile step (fun _ e => e ≠ .run i) t u
  takes : (step u (.run i)).isSome

/-- A normal task that enters while there are slots for its direction finds no priority task of the
other direction that waits and was not woken. -/
def System.YieldsToPriority (s : System) : Event → Prop
  | .create _ => True
  | .run i => ∀ thread ∈ s.threads[i]?, thread.phase = .enter → thread.task.priority = .normal →
      s.bus.mustWait thread.task = false →
      s.unwoken ⟨thread.task.direction.other, .priority⟩ ≤ 0

instance (s : System) (e : Event) : Decidable (s.YieldsToPriority e) :=
  match e with
  | .create _ => inferInstanceAs (Decidable True)
  | .run i => inferInstanceAs (Decidable (∀ thread ∈ s.threads[i]?, _))

/-- When a normal task takes a slot for which it has not waited, and when one is signalled, no
priority task of either direction waits without having been woken. -/
def System.PriorityRule (s : System) : Prop :=
  (∀ i d u, s.YieldsToPriority (.run i) → s.Acquires i d u →
    ∀ d', u.unwoken ⟨d', .priority⟩ ≤ 0) ∧
  ∀ (i : ℕ) (task : Task) (d : Direction) (kinds : List Task),
    s.threads[i]? = some ⟨task, .waking (⟨d, .normal⟩ :: kinds)⟩ →
      ∀ d', s.unwoken ⟨d', .priority⟩ ≤ 0

/-! ### What `release_slot` signals -/

/-- Priority tasks are signalled first, and if normal tasks are signalled at all, then every
priority task that was not woken yet is. -/
structure Bus.PriorityFirst (kinds : List Task) (unwoken : Task → ℤ) : Prop where
  order : kinds.Pairwise fun kind kind' => kind.priority = .normal → kind'.priority = .normal
  all : (∃ d, (⟨d, .normal⟩ : Task) ∈ kinds) → ∀ d,
    unwoken ⟨d, .priority⟩ ≤ kinds.count ⟨d, .priority⟩

namespace Bus

variable {b : Bus} {d : Direction}

/-- The second call of a block finds an empty slot only if the first one has signalled all. -/
theorem toWake_of_wakeNormal (htasks : ∀ kind, 0 ≤ b.tasks kind) (h : 0 < b.wakeNormal d) :
    (b.toWake ⟨d, .priority⟩ : ℤ) = b.tasks ⟨d, .priority⟩ ∧
      b.tasks ⟨d.other, .priority⟩ = 0 := by
  have hprio := htasks ⟨d, .priority⟩
  unfold wakeNormal at h
  split at h
  · next hother =>
    refine ⟨?_, hother⟩
    have hempty := ((toWake_pos (b := (b.wakeupWaitingTask ⟨d, .priority⟩).1) ⟨d, .normal⟩).mp h).1
    simp only [wakeupWaitingTask, emptyBusSlots] at hempty
    unfold toWake emptyBusSlots at *
    split
    · omega
    · next hpos =>
      rw [if_neg hpos] at hempty
      omega
  · cases h

theorem priorityFirst_wakeDirection (htasks : ∀ kind, 0 ≤ b.tasks kind) {unwoken : Task → ℤ}
    (hunwoken : ∀ kind, unwoken kind ≤ b.tasks kind) :
    PriorityFirst (b.wakeDirection d).2 unwoken := by
  by_cases hskip : b.busDirection = some d.other
  · rw [wakeDirection_skip hskip]
    exact ⟨.nil, fun ⟨_, h⟩ => by cases h⟩
  constructor
  · rw [wakeDirection_eq hskip, List.pairwise_append]
    refine ⟨?_, ?_, ?_⟩
    · exact List.pairwise_replicate.mpr (.inr fun h => h)
    · exact List.pairwise_replicate.mpr (.inr fun h => h)
    · intro kind hkind kind' hkind' _
      rw [(List.mem_replicate.mp hkind').2]
  · rintro ⟨d', hd'⟩ d''
    have hwoken : 0 < b.wakeNormal d := by
      rw [wakeDirection_eq hskip, List.mem_append, List.mem_replicate, List.mem_replicate] at hd'
      rcases hd' with ⟨-, heq⟩ | ⟨hne, -⟩
      · cases heq
      · exact Nat.pos_of_ne_zero hne
    obtain ⟨hall, hnone⟩ := toWake_of_wakeNormal htasks hwoken
    have hle := hunwoken ⟨d'', .priority⟩
    rw [count_wakeDirection hskip]
    rcases d''.eq_or_eq_other d with heq | heq
    · subst heq
      rw [if_pos rfl]
      omega
    · rw [heq] at hle ⊢
      omega

/-- **`release_slot` signals priority tasks first.** -/
theorem priorityFirst_releaseWakes (htasks : ∀ kind, 0 ≤ b.tasks kind) {unwoken : Task → ℤ}
    (hunwoken : ∀ kind, unwoken kind ≤ b.tasks kind) :
    PriorityFirst b.releaseWakes.2 unwoken := by
  have hidle := b.idle_frame.2.1
  rcases b.releaseWakes_cases with ⟨hnone, -⟩ | ⟨d, -, -, hwakes⟩
  · rw [hnone]
    exact ⟨.nil, fun ⟨_, h⟩ => by cases h⟩
  · rw [hwakes]
    refine priorityFirst_wakeDirection (fun kind => ?_) fun kind => ?_
    · rw [hidle]
      exact htasks kind
    · rw [hidle]
      exact hunwoken kind

end Bus

/-! ### Waiting tasks -/

section Unwoken

variable {s t : System} {e : Event} {i : ℕ} {task : Task} {p q : Phase}

theorem unwoken_le_of_move (hi : s.threads[i]? = some ⟨task, p⟩)
    (ht : t.threads = s.threads.set i ⟨task, q⟩) {kind : Task}
    (h : s.hasTask kind + (if task = kind then q.parked else 0) ≤
      t.hasTask kind + (if task = kind then p.parked else 0)) :
    t.unwoken kind ≤ s.unwoken kind := by
  have := atKind_move Phase.parked kind hi ht
  unfold System.unwoken
  omega

/-- A signal is given. -/
theorem unwoken_wake {kind' : Task} {kinds : List Task}
    (hi : s.threads[i]? = some ⟨task, .waking (kind' :: kinds)⟩) (kind : Task) :
    (System.goto { s with hasTask := Function.update s.hasTask kind' (s.hasTask kind' + 1) }
      i task (.waking kinds)).unwoken kind = s.unwoken kind - if kind' = kind then 1 else 0 := by
  have hmove : (s.goto i task (.waking kinds)).atKind Phase.parked kind +
      (if task = kind then 0 else 0) = _ := atKind_move Phase.parked kind hi rfl
  have hsame :
    (System.goto { s with hasTask := Function.update s.hasTask kind' (s.hasTask kind' + 1) }
      i task (.waking kinds)).atKind Phase.parked kind =
      (s.goto i task (.waking kinds)).atKind Phase.parked kind := rfl
  simp only [Phase.parked, ite_self, Nat.add_zero] at hmove
  unfold System.unwoken
  rw [hsame, hmove]
  simp only [System.goto, Function.update_apply, eq_comm (a := kind)]
  split
  · next heq =>
    subst heq
    omega
  · omega

/-- A task that waits is counted. -/
theorem System.Counted.unwoken_le (hc : s.Counted) (kind : Task) :
    s.unwoken kind ≤ s.bus.tasks kind := by
  have hle : s.atKind Phase.parked kind ≤ s.atKind Phase.counted kind := by
    refine census_mono (fun thread => ?_) _
    split
    · cases thread.phase <;> simp [Phase.parked, Phase.counted]
    · exact Nat.le_refl 0
  have := hc.tasks kind
  unfold System.unwoken
  omega

/-- **While `mutex` is taken nobody begins to wait.** -/
theorem Stepped.unwoken_le (h : Stepped s e t) (hmutex : s.mutex = 0) (kind : Task) :
    t.unwoken kind ≤ s.unwoken kind := by
  cases h with
  | create task =>
    unfold System.unwoken
    simp [atKind_create Phase.parked rfl]
  | wait i task hi hpos => omega
  | hear i task hi hsem =>
    -- the signal is used by a task that waits
    refine unwoken_le_of_move (q := .woken) hi rfl ?_
    by_cases hk : task = kind
    · subst hk
      show s.hasTask task + _ ≤ Function.update s.hasTask task (s.hasTask task - 1) task + _
      rw [Function.update_self, if_pos rfl, if_pos rfl]
      show s.hasTask task + 0 ≤ s.hasTask task - 1 + 1
      omega
    · simp only [System.goto, Function.update_of_ne (Ne.symm hk), if_neg hk]
      omega
  | wake i task kind' kinds hi =>
    rw [unwoken_wake hi]
    split <;> omega
  | proceed i task hi | park i task hi | retake i task hi | board i task hi | depart i task hi
  | arrive i task hi | release i task hi | finish i task hi =>
    refine unwoken_le_of_move hi rfl ?_
    simp [System.goto, Phase.parked]

end Unwoken

/-! ### A woken normal task -/

/-- What `release_slot` has yet to signal, if it is in a thread's hands. -/
def System.PriorityFirst (s : System) : Prop :=
  ∀ (i : ℕ) (task : Task) (kinds : List Task), s.threads[i]? = some ⟨task, .waking kinds⟩ →
    Bus.PriorityFirst kinds s.unwoken

theorem priorityFirst_init : System.init.PriorityFirst := by
  intro i task kinds hi
  cases hi

theorem Bus.PriorityFirst.mono {kinds : List Task} {unwoken unwoken' : Task → ℤ}
    (h : Bus.PriorityFirst kinds unwoken) (hle : ∀ kind, unwoken' kind ≤ unwoken kind) :
    Bus.PriorityFirst kinds unwoken' :=
  ⟨h.order, fun hnormal d => Int.le_trans (hle _) (h.all hnormal d)⟩

/-- The thread that holds `mutex` has taken it. -/
theorem System.Counted.mutex_eq_zero {s : System} (hc : s.Counted) {i : ℕ} {task : Task} {p : Phase}
    (hi : s.threads[i]? = some ⟨task, p⟩) (hp : 0 < p.critical) : s.mutex = 0 := by
  have := le_at Phase.critical hi
  have := hc.mutex
  omega

/-- The first signal is given. -/
theorem Bus.PriorityFirst.tail {kind' : Task} {kinds : List Task} {unwoken unwoken' : Task → ℤ}
    (h : Bus.PriorityFirst (kind' :: kinds) unwoken)
    (heq : ∀ kind, unwoken' kind = unwoken kind - if kind' = kind then 1 else 0) :
    Bus.PriorityFirst kinds unwoken' := by
  refine ⟨h.order.of_cons, ?_⟩
  rintro ⟨d, hd⟩ d'
  have hall := h.all ⟨d, List.mem_cons_of_mem _ hd⟩ d'
  rw [List.count_cons] at hall
  rw [heq]
  by_cases hk : kind' = ⟨d', .priority⟩
  · rw [if_pos hk]
    simp only [beq_iff_eq, if_pos hk] at hall
    omega
  · rw [if_neg hk]
    simp only [beq_iff_eq, if_neg hk] at hall
    omega

/-- A step of one thread leaves the others where they are. -/
theorem Stepped.getElem?_ne {s t : System} {e : Event} (h : Stepped s e t) {i : ℕ} {thread : Thread}
    (hi : s.threads[i]? = some thread) (he : e ≠ .run i) : t.threads[i]? = some thread := by
  have hset : ∀ {j : ℕ} (other : Thread), Event.run j ≠ .run i →
      (s.threads.set j other)[i]? = some thread := by
    intro j other hne
    rw [List.getElem?_set_ne fun h => hne (congrArg Event.run h)]
    exact hi
  cases h with
  | create task =>
    dsimp only
    rw [List.getElem?_append_left (List.getElem?_eq_some_iff.mp hi).1]
    exact hi
  | wait | proceed | park | hear | retake | board | depart | arrive | release | wake | finish =>
    exact hset _ he

theorem System.PriorityFirst.step {s t : System} {e : Event} (hp : s.PriorityFirst) (hc : s.Counted)
    (h : Stepped s e t) : t.PriorityFirst := by
  intro j task' kinds hj
  -- a thread that was in the block before the step has `mutex`
  have hkeep : s.threads[j]? = some ⟨task', .waking kinds⟩ → Bus.PriorityFirst kinds t.unwoken :=
    fun hj => (hp j task' kinds hj).mono
      (h.unwoken_le (hc.mutex_eq_zero hj (by simp [Phase.critical])))
  have hle := h.unwoken_le
  cases h with
  | create task =>
    dsimp only at hj
    rw [List.getElem?_append] at hj
    split at hj
    · exact hkeep hj
    · rw [List.getElem?_singleton] at hj
      split at hj
      · cases hj
      · cases hj
  | release i task hi =>
    rcases getElem?_set_cases hj with ⟨rfl, heq⟩ | ⟨-, hj⟩
    · cases heq
      have hfirst := Bus.priorityFirst_releaseWakes (b := s.bus)
        hc.tasks_nonneg hc.unwoken_le
      exact hfirst.mono (hle (hc.mutex_eq_zero hi (by simp [Phase.critical])))
    · exact hkeep hj
  | wake i task kind' kinds' hi =>
    rcases getElem?_set_cases hj with ⟨rfl, heq⟩ | ⟨-, hj⟩
    · cases heq
      exact (hp j task' _ hi).tail (unwoken_wake hi)
    · exact hkeep hj
  | wait | proceed | park | hear | retake | board | depart | arrive | finish =>
    rcases getElem?_set_cases hj with ⟨-, heq⟩ | ⟨-, hj⟩
    · cases heq
    · exact hkeep hj

/-- **Normal tasks are signalled last**, in every run. -/
theorem priorityFirst_of_reach {ok : System → Event → Prop} {s : System}
    (hs : ReachWhile step ok System.init s) : s.Counted ∧ s.PriorityFirst :=
  hs.invariant (P := fun s => s.Counted ∧ s.PriorityFirst) ⟨counted_init, priorityFirst_init⟩
    fun _ _ _ ht _ hstep =>
      ⟨ht.1.step (stepped_of_step hstep), ht.2.step ht.1 (stepped_of_step hstep)⟩

/-- When a normal task is signalled every priority task has been. -/
theorem System.PriorityFirst.unwoken_le {s : System} (hp : s.PriorityFirst) {i : ℕ} {task : Task}
    {d : Direction} {kinds : List Task}
    (hi : s.threads[i]? = some ⟨task, .waking (⟨d, .normal⟩ :: kinds)⟩) (d' : Direction) :
    s.unwoken ⟨d', .priority⟩ ≤ 0 := by
  obtain ⟨horder, hall⟩ := hp i task _ hi
  have hle := hall ⟨d, List.mem_cons_self ..⟩ d'
  have hzero : List.count ⟨d', .priority⟩ ((⟨d, .normal⟩ : Task) :: kinds) = 0 := by
    refine List.count_eq_zero.mpr fun hmem => ?_
    rcases List.mem_cons.mp hmem with heq | hmem
    · cases heq
    · have hnormal := (List.pairwise_cons.mp horder).1 _ hmem rfl
      cases hnormal
  rw [hzero] at hle
  exact hle

/-! ### A normal task that does not wait -/

/-- A normal task that need not wait finds no priority task of its own direction. -/
theorem Bus.tasks_le_of_mustWait {b : Bus} {d : Direction} (h : b.mustWait ⟨d, .normal⟩ = false) :
    b.tasks ⟨d, .priority⟩ ≤ 0 := by
  unfold Bus.mustWait at h
  split_ifs at h with hfull hdir hnormal hsend hreceive
  · cases d with
    | send => exact Int.not_lt.mp fun hpos => hsend ⟨rfl, hpos⟩
    | receive => exact Int.not_lt.mp fun hpos => hreceive ⟨rfl, hpos⟩
  · exact absurd rfl hnormal

theorem System.Acquires.unwoken_le {s u : System} {i : ℕ} {d : Direction} (h : s.Acquires i d u)
    (hc : s.Counted) (hok : s.YieldsToPriority (.run i)) (d' : Direction) :
    u.unwoken ⟨d', .priority⟩ ≤ 0 := by
  obtain ⟨t, hstep, hothers⟩ := h.others
  have henter := h.enters
  have hfree := h.free
  -- the task has `mutex` while it goes on to take its slot
  have hinv : u.Counted ∧ (∃ p : Phase, u.threads[i]? = some ⟨⟨d, .normal⟩, p⟩ ∧ 0 < p.critical) ∧
      ∀ d', u.unwoken ⟨d', .priority⟩ ≤ 0 := by
    refine hothers.invariant (P := fun u => u.Counted ∧
      (∃ p : Phase, u.threads[i]? = some ⟨⟨d, .normal⟩, p⟩ ∧ 0 < p.critical) ∧
      ∀ d', u.unwoken ⟨d', .priority⟩ ≤ 0) ?_ ?_
    · have hstepped := stepped_of_step hstep
      refine ⟨hc.step hstepped, ?_⟩
      rw [step, henter] at hstep
      dsimp only [System.runTask] at hstep
      split at hstep
      · cases hstep
      · rw [if_neg (by rw [hfree]; exact Bool.false_ne_true)] at hstep
        cases hstep
        refine ⟨⟨.boarding, ?_, by decide⟩, fun d'' => ?_⟩
        · exact List.getElem?_set_self (List.getElem?_eq_some_iff.mp henter).1
        · have hsame : System.unwoken (System.goto { s with mutex := s.mutex - 1 } i
              ⟨d, .normal⟩ .boarding) ⟨d'', .priority⟩ ≤ s.unwoken ⟨d'', .priority⟩ :=
            unwoken_le_of_move henter rfl (by simp [System.goto])
          refine Int.le_trans hsame ?_
          rcases d''.eq_or_eq_other d with heq | heq
          · rw [heq]
            exact Int.le_trans (hc.unwoken_le ⟨d, .priority⟩) (Bus.tasks_le_of_mustWait hfree)
          · rw [heq]
            exact hok ⟨⟨d, .normal⟩, .enter⟩ henter rfl rfl hfree
    · rintro v e w ⟨hv, ⟨p, hp, hcritical⟩, hle⟩ he hstep
      have hstepped := stepped_of_step hstep
      refine ⟨hv.step hstepped, ⟨p, hstepped.getElem?_ne hp he, hcritical⟩, fun d'' => ?_⟩
      have hkept := hstepped.unwoken_le (hv.mutex_eq_zero hp hcritical) ⟨d'', .priority⟩
      exact Int.le_trans hkept (hle d'')
  exact hinv.2.2 d'

/-- **Normal tasks yield**: in runs in which no normal task enters past a priority task of the other
direction, none overtakes a priority task of either. -/
theorem priorityRule_of_reach {s : System}
    (hs : ReachWhile step System.YieldsToPriority System.init s) : s.PriorityRule := by
  obtain ⟨hc, hp⟩ := priorityFirst_of_reach hs
  exact ⟨fun i d u hok h => h.unwoken_le hc hok, fun i task d kinds hi => hp.unwoken_le hi⟩

/-- A sender is on the bus; a priority receiver and a receiver wait.  The sender leaves, and has
signalled the first of them. -/
def inOrder : List Event :=
  [.create ⟨.send, .normal⟩, .create ⟨.receive, .priority⟩, .create ⟨.receive, .normal⟩] ++
    List.replicate 3 (.run 0) ++ List.replicate 2 (.run 1) ++ List.replicate 2 (.run 2) ++
    List.replicate 3 (.run 0)

theorem priorityRule_inOrder :
    ∃ s, run (restrict step System.YieldsToPriority) System.init inOrder = some s ∧
      s.threads[0]? = some ⟨⟨.send, .normal⟩, .waking [⟨.receive, .normal⟩]⟩ ∧
      s.PriorityRule := by
  have hrun : (run (restrict step System.YieldsToPriority) System.init inOrder).map
      (fun s => s.threads[0]?) = some (some ⟨⟨.send, .normal⟩, .waking [⟨.receive, .normal⟩]⟩) := by
    decide +kernel
  obtain ⟨s, hs, hthread⟩ := Option.map_eq_some_iff.mp hrun
  exact ⟨s, hs, hthread, priorityRule_of_reach (reachWhile_of_run _ _ _ hs)⟩

/-- A sender is on the bus, a priority receiver waits, and a second sender arrives. -/
def sameDirection : List Event :=
  [.create ⟨.send, .normal⟩, .create ⟨.receive, .priority⟩, .create ⟨.send, .normal⟩] ++
    List.replicate 3 (.run 0) ++ List.replicate 2 (.run 1)

/-- The second sender takes a slot before the priority receiver is woken. -/
theorem not_priorityRule : ∃ s u, Reach step System.init s ∧ s.Acquires 2 .send u ∧
    u.threads[1]? = some ⟨⟨.receive, .priority⟩, .waiting⟩ ∧
    u.unwoken ⟨.receive, .priority⟩ = 1 := by
  have hrun : (run step System.init sameDirection).bind (fun s => (step s (.run 2)).map fun u =>
      decide (s.threads[2]? = some ⟨⟨.send, .normal⟩, .enter⟩ ∧
        s.bus.mustWait ⟨.send, .normal⟩ = false ∧ (step u (.run 2)).isSome ∧
        u.threads[1]? = some ⟨⟨.receive, .priority⟩, .waiting⟩ ∧
        u.unwoken ⟨.receive, .priority⟩ = 1)) = some true := by
    decide +kernel
  obtain ⟨s, hs, hval⟩ := Option.bind_eq_some_iff.mp hrun
  obtain ⟨u, hu, hval⟩ := Option.map_eq_some_iff.mp hval
  obtain ⟨henters, hfree, htakes, hwaits, hunwoken⟩ := of_decide_eq_true hval
  exact ⟨s, u, reach_of_run _ _ _ hs, ⟨henters, hfree, ⟨u, hu, .refl⟩, htakes⟩, hwaits, hunwoken⟩

end ExchangeLabs.BatchScheduler
