import ExchangeLabs.Lib.Agenda
import ExchangeLabs.Lib.Run
import Mathlib.Algebra.Order.Group.Int
import Mathlib.Logic.Function.Basic

/-!
# The alarm clock

`timer_sleep` puts the calling thread on `thread_list`, in the order of the times at which
the threads are to wake up, and blocks it.  The timer interrupt unblocks the threads at the
front of the list, up to the first one that is not due.

A thread in `timer_sleep` takes three steps, and the timer interrupt can come between any
two of them: it reads `start`, it sets its `sleep_ticks`, and with the interrupts disabled it
goes on the list and blocks.  The counter of the ticks does not overflow here.

## Main definitions

* `Phase` — how far a thread is in `timer_sleep`.
* `System`, `Event`, `step` — the clock, the list and all threads.
* `System.timerInterrupt` — the interrupt handler, with the threads it unblocks in order.
* `System.ListSound` — what the list is to hold.

## Main results

* `System.timerInterrupt_eq` — what the handler does.
* `Orderly.step`, `orderly_of_reach` — the invariant of the list.
* `within_of_spared` — a call lasts as long as no interrupt finds it due.
* `wake_up_exact` — **a thread wakes up in time.**
-/

namespace ExchangeLabs.AlarmClock

/-- How far a thread is in a call `timer_sleep(ticks)` that has read `start`. -/
inductive Phase
  /-- not in `timer_sleep`, or on the way out of it -/
  | awake
  | started (start ticks : ℤ)
  /-- with its `sleep_ticks` set -/
  | assigned (start ticks : ℤ)
  /-- on `thread_list` and blocked -/
  | blocked (start ticks : ℤ)
  deriving DecidableEq, Repr

/-- The thread sleeps. -/
def Phase.Asleep (p : Phase) : Prop := ∃ start ticks, p = .blocked start ticks

/-- The thread is in the call `timer_sleep(ticks)` that has read `start`. -/
def Phase.Within (start ticks : ℤ) (p : Phase) : Prop :=
  p = .started start ticks ∨ p = .assigned start ticks ∨ p = .blocked start ticks

theorem Phase.Within.blocked {p : Phase} {start ticks : ℤ} (h : p.Within start ticks)
    (hasleep : p.Asleep) : p = .blocked start ticks := by
  obtain ⟨start', ticks', heq⟩ := hasleep
  rcases h with h | h | h
  · rw [h] at heq
    cases heq
  · rw [h] at heq
    cases heq
  · exact h

structure System (T : Type*) where
  ticks : ℤ
  threadList : List T
  sleepTicks : T → ℤ
  phase : T → Phase
  /-- how many threads have gone on the list so far, and the number of each one among them:
  history, which the code does not keep -/
  arrivals : ℕ
  arrival : T → ℕ

inductive Event (T : Type*)
  /-- the thread calls `timer_sleep(ticks)` and reads `start` -/
  | timerSleep (thread : T) (ticks : ℤ)
  | setSleepTicks (thread : T)
  /-- `list_insert_ordered` and `thread_block`, with the interrupts disabled -/
  | insertAndBlock (thread : T)
  | interrupt
  deriving DecidableEq, Repr

variable {T : Type*} {s u v : System T} {thread : T} {e : Event T}

namespace System

/-- `thread_comparison` -/
def threadComparison (s : System T) (t₁ t₂ : T) : Prop := s.sleepTicks t₁ < s.sleepTicks t₂

instance (s : System T) : DecidableRel s.threadComparison := fun t₁ t₂ =>
  inferInstanceAs (Decidable (s.sleepTicks t₁ < s.sleepTicks t₂))

/-- No thread is in `timer_sleep` when the timer is set up. -/
def init : System T := ⟨0, [], fun _ => 0, fun _ => .awake, 0, fun _ => 0⟩

/-- The list holds each thread that sleeps once, in the order of `sleep_ticks`. -/
structure ListSound (s : System T) : Prop where
  nodup : s.threadList.Nodup
  mem_iff : ∀ thread, thread ∈ s.threadList ↔ (s.phase thread).Asleep
  sorted : s.threadList.Pairwise fun t₁ t₂ => s.sleepTicks t₁ ≤ s.sleepTicks t₂

variable [DecidableEq T]

/-- `list_insert_ordered` goes through the list to the first thread for which
`thread_comparison` holds. -/
def insertAndBlock (s : System T) (thread : T) (start ticks : ℤ) : System T :=
  { s with
    threadList := s.threadList.orderedInsert s.threadComparison thread
    phase := Function.update s.phase thread (.blocked start ticks)
    arrivals := s.arrivals + 1
    arrival := Function.update s.arrival thread s.arrivals }

/-- The thread is on the list then, and sleeps. -/
theorem insertAndBlock_asleep (s : System T) (thread : T) (start ticks : ℤ) :
    thread ∈ (s.insertAndBlock thread start ticks).threadList ∧
      (s.insertAndBlock thread start ticks).phase thread = .blocked start ticks :=
  ⟨(List.mem_orderedInsert _).mpr (.inl rfl), Function.update_self ..⟩

def threadUnblock (s : System T) (current : T) : System T :=
  { s with phase := Function.update s.phase current .awake }

/-- The loop of the handler with what is left of `thread_list`, and the threads it unblocks. -/
def interruptLoop (s : System T) : List T → System T × List T
  | [] => ({ s with threadList := [] }, [])
  | current :: rest =>
    if s.ticks < s.sleepTicks current then ({ s with threadList := current :: rest }, [])
    else
      let done := (s.threadUnblock current).interruptLoop rest
      (done.1, current :: done.2)

def timerInterrupt (s : System T) : System T × List T :=
  { s with ticks := s.ticks + 1 }.interruptLoop s.threadList

/-! ### The handler -/

/-- What is left of the list is due, up to the first thread that is not. -/
theorem interruptLoop_unblocked (l : List T) : ∀ s : System T,
    (s.interruptLoop l).2 = l.takeWhile fun thread => decide (s.sleepTicks thread ≤ s.ticks) := by
  induction l with
  | nil =>
    intro s
    rfl
  | cons current rest ih =>
    intro s
    by_cases hlt : s.ticks < s.sleepTicks current
    · have hneg : decide (s.sleepTicks current ≤ s.ticks) = false := by simpa using hlt
      simp [interruptLoop, hlt, hneg]
    · have hpos : decide (s.sleepTicks current ≤ s.ticks) = true := by simpa using hlt
      simp only [interruptLoop, hlt, if_false, List.takeWhile_cons, hpos, if_true, ih]
      rfl

theorem interruptLoop_eq (l : List T) : ∀ s : System T,
    (s.interruptLoop l).1 = { s with
      threadList := l.dropWhile fun thread => decide (s.sleepTicks thread ≤ s.ticks)
      phase :=
        fun thread => if thread ∈ (s.interruptLoop l).2 then .awake else s.phase thread } := by
  induction l with
  | nil =>
    intro s
    simp [interruptLoop]
  | cons current rest ih =>
    intro s
    -- the loop ends at the first thread that is not due, or wakes one up
    by_cases hlt : s.ticks < s.sleepTicks current
    · have hneg : decide (s.sleepTicks current ≤ s.ticks) = false := by simpa using hlt
      simp [interruptLoop, hlt, hneg]
    · have hpos : decide (s.sleepTicks current ≤ s.ticks) = true := by simpa using hlt
      simp only [interruptLoop, hlt, if_false, List.dropWhile_cons, hpos, if_true, ih]
      have hphase : ∀ thread, (if thread ∈ ((s.threadUnblock current).interruptLoop rest).2 then
            Phase.awake else (s.threadUnblock current).phase thread) =
          if thread ∈ current :: ((s.threadUnblock current).interruptLoop rest).2 then
            Phase.awake else s.phase thread := by
        intro thread
        by_cases heq : thread = current
        · simp [heq, threadUnblock]
        · simp [heq, threadUnblock, Function.update_of_ne]
      rw [funext hphase]
      rfl

/-- **What the handler does**: it counts the tick, takes the threads that are due off the front
of the list and unblocks them. -/
theorem timerInterrupt_eq (s : System T) :
    s.timerInterrupt.2 =
        s.threadList.takeWhile (fun thread => decide (s.sleepTicks thread ≤ s.ticks + 1)) ∧
      s.timerInterrupt.1 = { s with
        ticks := s.ticks + 1
        threadList :=
          s.threadList.dropWhile fun thread => decide (s.sleepTicks thread ≤ s.ticks + 1)
        phase := fun thread =>
          if thread ∈ s.timerInterrupt.2 then .awake else s.phase thread } :=
  ⟨interruptLoop_unblocked s.threadList _, interruptLoop_eq s.threadList _⟩

theorem phase_timerInterrupt (s : System T) (thread : T) : s.timerInterrupt.1.phase thread =
    if thread ∈ s.timerInterrupt.2 then .awake else s.phase thread := by
  rw [s.timerInterrupt_eq.2]

end System

/-! ### The invariant of the list -/

/-- The list holds the threads that sleep, first come first served where they are to wake up at
the same time, and a thread that has set its `sleep_ticks` still has them. -/
structure Orderly (s : System T) : Prop where
  ordered : s.threadList.Pairwise (Agenda.Before s.sleepTicks s.arrival)
  mem_iff : ∀ thread, thread ∈ s.threadList ↔ (s.phase thread).Asleep
  sleepTicks_eq : ∀ thread start ticks,
    s.phase thread = .assigned start ticks ∨ s.phase thread = .blocked start ticks →
      s.sleepTicks thread = start + ticks
  arrival_lt : ∀ thread ∈ s.threadList, s.arrival thread < s.arrivals

namespace Orderly

theorem init : Orderly (System.init : System T) where
  ordered := List.Pairwise.nil
  mem_iff := by
    intro thread
    simp [System.init, Phase.Asleep]
  sleepTicks_eq := by
    rintro thread start ticks (h | h)
    · cases h
    · cases h
  arrival_lt := by
    intro thread h
    cases h

theorem listSound (h : Orderly s) : s.ListSound where
  nodup := Agenda.nodup_of_pairwise h.ordered
  mem_iff := h.mem_iff
  sorted := Agenda.pairwise_key_le h.ordered

/-- A thread that does not sleep is not on the list. -/
theorem not_mem (h : Orderly s) (hphase : ∀ start ticks, s.phase thread ≠ .blocked start ticks) :
    thread ∉ s.threadList := by
  intro hmem
  obtain ⟨start, ticks, hblocked⟩ := (h.mem_iff thread).mp hmem
  exact hphase start ticks hblocked

end Orderly

/-! ### The steps -/

variable [DecidableEq T]

def step (s : System T) : Event T → Option (System T)
  | .timerSleep thread ticks =>
    if s.phase thread = .awake then
      some { s with phase := Function.update s.phase thread (.started s.ticks ticks) }
    else none
  | .setSleepTicks thread =>
    match s.phase thread with
    | .started start ticks => some { s with
        sleepTicks := Function.update s.sleepTicks thread (start + ticks)
        phase := Function.update s.phase thread (.assigned start ticks) }
    | _ => none
  | .insertAndBlock thread =>
    match s.phase thread with
    | .assigned start ticks => some (s.insertAndBlock thread start ticks)
    | _ => none
  | .interrupt => some s.timerInterrupt.1

/-- What a step can do. -/
theorem step_cases (h : step s e = some u) :
    (∃ thread ticks, e = .timerSleep thread ticks ∧ s.phase thread = .awake ∧
      u = { s with phase := Function.update s.phase thread (.started s.ticks ticks) }) ∨
    (∃ thread start ticks, e = .setSleepTicks thread ∧ s.phase thread = .started start ticks ∧
      u = { s with
        sleepTicks := Function.update s.sleepTicks thread (start + ticks)
        phase := Function.update s.phase thread (.assigned start ticks) }) ∨
    (∃ thread start ticks, e = .insertAndBlock thread ∧ s.phase thread = .assigned start ticks ∧
      u = s.insertAndBlock thread start ticks) ∨
    (e = .interrupt ∧ u = s.timerInterrupt.1) := by
  cases e with
  | timerSleep thread ticks =>
    simp only [step] at h
    split at h
    · next hawake => exact .inl ⟨thread, ticks, rfl, hawake, (Option.some.inj h).symm⟩
    · cases h
  | setSleepTicks thread =>
    simp only [step] at h
    split at h
    · next start ticks hstarted =>
      exact .inr (.inl ⟨thread, start, ticks, rfl, hstarted, (Option.some.inj h).symm⟩)
    · cases h
  | insertAndBlock thread =>
    simp only [step] at h
    split at h
    · next start ticks hassigned =>
      exact .inr (.inr (.inl ⟨thread, start, ticks, rfl, hassigned, (Option.some.inj h).symm⟩))
    · cases h
  | interrupt => exact .inr (.inr (.inr ⟨rfl, (Option.some.inj h).symm⟩))

namespace Orderly

variable {start ticks : ℤ} {p : Phase}

/-- A thread that neither sleeps nor goes to sleep leaves the list right. -/
theorem mem_update (h : Orderly s) (hold : ∀ start ticks, s.phase thread ≠ .blocked start ticks)
    (hnew : ∀ start ticks, p ≠ .blocked start ticks) (other : T) :
    other ∈ s.threadList ↔ (Function.update s.phase thread p other).Asleep := by
  by_cases heq : other = thread
  · subst heq
    rw [Function.update_self]
    exact iff_of_false (h.not_mem hold) fun ⟨start, ticks, hp⟩ => hnew start ticks hp
  · rw [Function.update_of_ne heq]
    exact h.mem_iff other

theorem timerSleep (h : Orderly s) (hawake : s.phase thread = .awake) (ticks : ℤ) :
    Orderly { s with phase := Function.update s.phase thread (.started s.ticks ticks) } where
  ordered := h.ordered
  mem_iff := h.mem_update (by simp [hawake]) (by simp)
  sleepTicks_eq := by
    intro other start' ticks' hphase
    by_cases heq : other = thread
    · simp [heq] at hphase
    · simp only [Function.update_of_ne heq] at hphase
      exact h.sleepTicks_eq other start' ticks' hphase
  arrival_lt := h.arrival_lt

theorem setSleepTicks (h : Orderly s) (hstarted : s.phase thread = .started start ticks) :
    Orderly { s with
      sleepTicks := Function.update s.sleepTicks thread (start + ticks)
      phase := Function.update s.phase thread (.assigned start ticks) } where
  ordered := by
    -- the thread whose `sleep_ticks` change is not on the list
    refine Agenda.pairwise_congr (fun other hmem => ?_) (fun other _ => rfl) h.ordered
    refine Function.update_of_ne ?_ _ _
    rintro rfl
    exact h.not_mem (by simp [hstarted]) hmem
  mem_iff := h.mem_update (by simp [hstarted]) (by simp)
  sleepTicks_eq := by
    intro other start' ticks' hphase
    by_cases heq : other = thread
    · simp only [heq, Function.update_self, Phase.assigned.injEq, reduceCtorEq, or_false] at hphase
      simp [heq, hphase.1, hphase.2]
    · simp only [Function.update_of_ne heq] at hphase ⊢
      exact h.sleepTicks_eq other start' ticks' hphase
  arrival_lt := h.arrival_lt

theorem insertAndBlock (h : Orderly s) (hassigned : s.phase thread = .assigned start ticks) :
    Orderly (s.insertAndBlock thread start ticks) := by
  have hnot : thread ∉ s.threadList := h.not_mem (by simp [hassigned])
  have hne : ∀ other ∈ s.threadList, other ≠ thread := by
    rintro other hmem rfl
    exact hnot hmem
  -- the others keep their numbers of arrival
  have harrival : ∀ other ∈ s.threadList,
      Function.update s.arrival thread s.arrivals other = s.arrival other :=
    fun other hmem => Function.update_of_ne (hne other hmem) _ _
  constructor
  case ordered =>
    refine Agenda.pairwise_orderedInsert (Agenda.pairwise_congr (fun _ _ => rfl) harrival h.ordered)
      fun other hmem => ?_
    simp only [System.insertAndBlock, harrival other hmem, Function.update_self]
    exact h.arrival_lt other hmem
  case mem_iff =>
    intro other
    by_cases heq : other = thread
    · subst heq
      obtain ⟨hmem, hphase⟩ := s.insertAndBlock_asleep other start ticks
      exact iff_of_true hmem ⟨start, ticks, hphase⟩
    · simp only [System.insertAndBlock, List.mem_orderedInsert, heq, false_or,
        Function.update_of_ne heq]
      exact h.mem_iff other
  case sleepTicks_eq =>
    intro other start' ticks' hphase
    by_cases heq : other = thread
    · simp only [System.insertAndBlock, heq, Function.update_self, Phase.blocked.injEq,
        reduceCtorEq, false_or] at hphase
      rw [heq, ← hphase.1, ← hphase.2]
      exact h.sleepTicks_eq thread start ticks (.inl hassigned)
    · simp only [System.insertAndBlock, Function.update_of_ne heq] at hphase
      exact h.sleepTicks_eq other start' ticks' hphase
  case arrival_lt =>
    intro other hmem
    rcases (List.mem_orderedInsert _).mp hmem with rfl | hmem
    · simp [System.insertAndBlock]
    · simp only [System.insertAndBlock, harrival other hmem]
      exact Nat.lt_succ_of_lt (h.arrival_lt other hmem)

/-- The interrupt unblocks the threads on the list that are due. -/
theorem mem_unblocked (h : Orderly s) :
    thread ∈ s.timerInterrupt.2 ↔ thread ∈ s.threadList ∧ s.sleepTicks thread ≤ s.ticks + 1 := by
  rw [s.timerInterrupt_eq.1,
    Agenda.takeWhile_eq_filter (Agenda.pairwise_key_le h.ordered) (s.ticks + 1), List.mem_filter]
  simp

/-- The threads that are not due stay. -/
theorem mem_threadList_timerInterrupt (h : Orderly s) :
    thread ∈ s.timerInterrupt.1.threadList ↔
      thread ∈ s.threadList ∧ s.ticks + 1 < s.sleepTicks thread := by
  rw [s.timerInterrupt_eq.2]
  simp only [Agenda.dropWhile_eq_filter (Agenda.pairwise_key_le h.ordered) (s.ticks + 1),
    List.mem_filter]
  simp

theorem timerInterrupt (h : Orderly s) : Orderly s.timerInterrupt.1 := by
  have hsub : s.timerInterrupt.1.threadList.Sublist s.threadList := by
    rw [s.timerInterrupt_eq.2]
    exact List.dropWhile_sublist _
  constructor
  case ordered =>
    have hordered := h.ordered.sublist hsub
    rw [s.timerInterrupt_eq.2] at hordered ⊢
    exact hordered
  case mem_iff =>
    intro other
    rw [h.mem_threadList_timerInterrupt, System.phase_timerInterrupt]
    -- a thread that is unblocked is off the list and no longer sleeps
    by_cases hun : other ∈ s.timerInterrupt.2
    · rw [if_pos hun]
      exact iff_of_false (fun hlate => not_lt.mpr (h.mem_unblocked.mp hun).2 hlate.2)
        (by simp [Phase.Asleep])
    · rw [if_neg hun, ← h.mem_iff other]
      refine ⟨fun hlate => hlate.1, fun hmem => ⟨hmem, ?_⟩⟩
      exact not_le.mp fun hdue => hun (h.mem_unblocked.mpr ⟨hmem, hdue⟩)
  case sleepTicks_eq =>
    intro other start' ticks' hphase
    rw [System.phase_timerInterrupt] at hphase
    by_cases hun : other ∈ s.timerInterrupt.2
    · simp [hun] at hphase
    · simp only [hun, if_false] at hphase
      rw [s.timerInterrupt_eq.2]
      exact h.sleepTicks_eq other start' ticks' hphase
  case arrival_lt =>
    intro other hmem
    have hlt := h.arrival_lt other (hsub.subset hmem)
    rw [s.timerInterrupt_eq.2]
    exact hlt

theorem step (h : Orderly s) (hstep : step s e = some u) : Orderly u := by
  obtain ⟨thread, ticks, -, hawake, rfl⟩ | ⟨thread, start, ticks, -, hstarted, rfl⟩ |
    ⟨thread, start, ticks, -, hassigned, rfl⟩ | ⟨-, rfl⟩ := step_cases hstep
  · exact h.timerSleep hawake ticks
  · exact h.setSleepTicks hstarted
  · exact h.insertAndBlock hassigned
  · exact h.timerInterrupt

end Orderly

theorem orderly_of_reach (h : Reach step System.init s) : Orderly s :=
  h.invariant .init fun _ _ _ ht _ hstep => ht.step hstep

/-! ### Waking up -/

variable {start ticks : ℤ}

/-- No interrupt finds the thread asleep when it is to have woken up. -/
def Spared (thread : T) (wake : ℤ) (s : System T) (e : Event T) : Prop :=
  e = .interrupt → (s.phase thread).Asleep → s.ticks + 1 < wake

/-- A thread that sleeps is unblocked by the interrupt that finds it due, and by no other. -/
theorem unblocked_iff_due (h : Orderly s) (hblocked : s.phase thread = .blocked start ticks) :
    thread ∈ s.timerInterrupt.2 ↔ start + ticks ≤ s.timerInterrupt.1.ticks := by
  have hmem : thread ∈ s.threadList := (h.mem_iff thread).mpr ⟨start, ticks, hblocked⟩
  rw [h.mem_unblocked, h.sleepTicks_eq thread start ticks (.inr hblocked), s.timerInterrupt_eq.2]
  exact and_iff_right hmem

/-- What a step does to a thread. -/
theorem phase_cases (hstep : step s e = some u) (thread : T) :
    u.phase thread = s.phase thread ∨
    (s.phase thread = .awake ∧ ∃ ticks, u.phase thread = .started s.ticks ticks) ∨
    (∃ start ticks, s.phase thread = .started start ticks ∧
      u.phase thread = .assigned start ticks) ∨
    (∃ start ticks, s.phase thread = .assigned start ticks ∧
      u.phase thread = .blocked start ticks) ∨
    (e = .interrupt ∧ thread ∈ s.timerInterrupt.2) := by
  obtain ⟨other, ticks, -, hawake, rfl⟩ | ⟨other, start, ticks, -, hstarted, rfl⟩ |
    ⟨other, start, ticks, -, hassigned, rfl⟩ | ⟨rfl, rfl⟩ := step_cases hstep
  · by_cases heq : thread = other
    · subst heq
      exact .inr (.inl ⟨hawake, ticks, Function.update_self ..⟩)
    · exact .inl (Function.update_of_ne heq _ _)
  · by_cases heq : thread = other
    · subst heq
      exact .inr (.inr (.inl ⟨start, ticks, hstarted, Function.update_self ..⟩))
    · exact .inl (Function.update_of_ne heq _ _)
  · by_cases heq : thread = other
    · subst heq
      exact .inr (.inr (.inr (.inl ⟨start, ticks, hassigned, Function.update_self ..⟩)))
    · exact .inl (Function.update_of_ne heq _ _)
  · -- an interrupt wakes the threads that it unblocks, and no others
    rw [System.phase_timerInterrupt]
    by_cases hun : thread ∈ s.timerInterrupt.2
    · exact .inr (.inr (.inr (.inr ⟨rfl, hun⟩)))
    · exact .inl (if_neg hun)

/-- A spared thread in its call is not unblocked. -/
theorem not_unblocked (h : Orderly s) (hwithin : (s.phase thread).Within start ticks)
    (hspared : Spared thread (start + ticks) s .interrupt) : thread ∉ s.timerInterrupt.2 := by
  intro hun
  obtain ⟨hmem, -⟩ := h.mem_unblocked.mp hun
  have hasleep : (s.phase thread).Asleep := (h.mem_iff thread).mp hmem
  have hblocked : s.phase thread = .blocked start ticks := hwithin.blocked hasleep
  have hdue : start + ticks ≤ s.timerInterrupt.1.ticks := (unblocked_iff_due h hblocked).mp hun
  rw [s.timerInterrupt_eq.2] at hdue
  exact not_lt.mpr hdue (hspared rfl hasleep)

/-- A step leaves a thread in its call, unless it is an interrupt that finds it due. -/
theorem within_step (h : Orderly s) (hwithin : (s.phase thread).Within start ticks)
    (hspared : Spared thread (start + ticks) s e) (hstep : step s e = some u) :
    (u.phase thread).Within start ticks := by
  obtain hsame | ⟨hawake, -⟩ | ⟨start', ticks', hstarted, hphase⟩ |
    ⟨start', ticks', hassigned, hphase⟩ | ⟨rfl, hun⟩ := phase_cases hstep thread
  · rwa [hsame]
  · simp [Phase.Within, hawake] at hwithin
  · simp only [Phase.Within, hstarted, Phase.started.injEq, reduceCtorEq, or_false] at hwithin
    simp [Phase.Within, hphase, hwithin.1, hwithin.2]
  · simp only [Phase.Within, hassigned, Phase.assigned.injEq, reduceCtorEq, false_or, or_false]
      at hwithin
    simp [Phase.Within, hphase, hwithin.1, hwithin.2]
  · exact absurd hun (not_unblocked h hwithin hspared)

/-- **A call lasts** as long as no interrupt finds it due. -/
theorem within_of_spared (h : Orderly s) (hwithin : (s.phase thread).Within start ticks)
    (hrun : ReachWhile step (Spared thread (start + ticks)) s u) :
    Orderly u ∧ (u.phase thread).Within start ticks := by
  refine hrun.invariant (P := fun u => Orderly u ∧ (u.phase thread).Within start ticks)
    ⟨h, hwithin⟩ fun v e w hv hspared hstep => ?_
  exact ⟨hv.1.step hstep, within_step hv.1 hv.2 hspared hstep⟩

/-- And a thread that sleeps goes on sleeping. -/
theorem blocked_of_spared (h : Orderly s) (hblocked : s.phase thread = .blocked start ticks)
    (hrun : ReachWhile step (Spared thread (start + ticks)) s u) :
    u.phase thread = .blocked start ticks := by
  refine (hrun.invariant (P := fun u => Orderly u ∧ u.phase thread = .blocked start ticks)
    ⟨h, hblocked⟩ fun v e w hv hspared hstep => ⟨hv.1.step hstep, ?_⟩).2
  obtain hsame | ⟨hawake, -⟩ | ⟨_, _, hstarted, -⟩ | ⟨_, _, hassigned, -⟩ | ⟨rfl, hun⟩ :=
    phase_cases hstep thread
  · exact hsame.trans hv.2
  · simp [hawake] at hv
  · simp [hstarted] at hv
  · simp [hassigned] at hv
  · exact absurd hun (not_unblocked hv.1 (.inr (.inr hv.2)) hspared)

/-- **A thread wakes up in time.**  The list is right in every state, with the threads in the
order of the times at which they are to wake up; a thread that sleeps goes on sleeping until
an interrupt finds it due; the threads that an interrupt unblocks are unblocked in the order of
the list, first come first served; and a thread that reads `start` and asks for `ticks` stays in
the call until the first interrupt that finds it asleep with `start + ticks` reached, which
unblocks it. -/
theorem wake_up_exact (h : Reach step System.init s) :
    s.ListSound ∧
    (∀ thread start ticks, s.phase thread = .blocked start ticks →
      s.sleepTicks thread = start + ticks ∧
      ∀ u, ReachWhile step (Spared thread (start + ticks)) s u →
        u.phase thread = .blocked start ticks) ∧
    s.timerInterrupt.2.Pairwise (Agenda.Before s.sleepTicks s.arrival) ∧
    ∀ thread ticks v, step s (.timerSleep thread ticks) = some v →
      ∀ u, ReachWhile step (Spared thread (s.ticks + ticks)) v u →
        (u.phase thread).Within s.ticks ticks ∧
        ((u.phase thread).Asleep →
          (s.ticks + ticks ≤ u.timerInterrupt.1.ticks → thread ∈ u.timerInterrupt.2 ∧
            u.timerInterrupt.1.phase thread = .awake) ∧
          (u.timerInterrupt.1.ticks < s.ticks + ticks → thread ∉ u.timerInterrupt.2 ∧
            u.timerInterrupt.1.phase thread = .blocked s.ticks ticks)) := by
  have hs : Orderly s := orderly_of_reach h
  refine ⟨hs.listSound, fun thread start ticks hblocked =>
    ⟨hs.sleepTicks_eq thread start ticks (.inr hblocked), fun u => blocked_of_spared hs hblocked⟩,
    ?_, fun thread ticks v hcall u hrun => ?_⟩
  · rw [s.timerInterrupt_eq.1]
    exact hs.ordered.sublist (List.takeWhile_sublist _)
  · have hstarted : (v.phase thread).Within s.ticks ticks := by
      simp only [step] at hcall
      split at hcall
      · rw [← Option.some.inj hcall]
        simp [Phase.Within]
      · cases hcall
    obtain ⟨hu, hwithin⟩ := within_of_spared (hs.step hcall) hstarted hrun
    refine ⟨hwithin, fun hasleep => ?_⟩
    have hblocked : u.phase thread = .blocked s.ticks ticks := hwithin.blocked hasleep
    have hdue := unblocked_iff_due hu hblocked
    rw [System.phase_timerInterrupt]
    constructor
    · intro hle
      exact ⟨hdue.mpr hle, if_pos (hdue.mpr hle)⟩
    · intro hlt
      have hun : thread ∉ u.timerInterrupt.2 := fun hun => not_le.mpr hlt (hdue.mp hun)
      exact ⟨hun, by rw [if_neg hun, hblocked]⟩

/-- Three of four threads sleep: one asks for less than nothing, one is interrupted before it
goes on the list, and one asks for the same time as another. -/
def crowdedRun : List (Event (Fin 4)) :=
  [.timerSleep 0 2, .interrupt, .setSleepTicks 0, .timerSleep 1 (-3), .setSleepTicks 1,
    .insertAndBlock 0, .insertAndBlock 1, .timerSleep 2 1, .setSleepTicks 2, .insertAndBlock 2]

def crowded : System (Fin 4) := (run step System.init crowdedRun).get (by decide +kernel)

/-- The thread that is late already goes first, then the two in the order in which they came. -/
theorem wake_up_exact_crowded :
    (crowded.threadList = [1, 0, 2] ∧ crowded.timerInterrupt.2 = [1, 0, 2] ∧
      crowded.phase 0 = .blocked 0 2 ∧ crowded.phase 1 = .blocked 1 (-3) ∧
      crowded.phase 2 = .blocked 1 1 ∧ crowded.phase 3 = .awake) ∧
    crowded.ListSound ∧
    (∀ thread start ticks, crowded.phase thread = .blocked start ticks →
      crowded.sleepTicks thread = start + ticks ∧
      ∀ u, ReachWhile step (Spared thread (start + ticks)) crowded u →
        u.phase thread = .blocked start ticks) ∧
    crowded.timerInterrupt.2.Pairwise (Agenda.Before crowded.sleepTicks crowded.arrival) ∧
    ∀ thread ticks v, step crowded (.timerSleep thread ticks) = some v →
      ∀ u, ReachWhile step (Spared thread (crowded.ticks + ticks)) v u →
        (u.phase thread).Within crowded.ticks ticks ∧
        ((u.phase thread).Asleep →
          (crowded.ticks + ticks ≤ u.timerInterrupt.1.ticks → thread ∈ u.timerInterrupt.2 ∧
            u.timerInterrupt.1.phase thread = .awake) ∧
          (u.timerInterrupt.1.ticks < crowded.ticks + ticks → thread ∉ u.timerInterrupt.2 ∧
            u.timerInterrupt.1.phase thread = .blocked crowded.ticks ticks)) :=
  ⟨by decide +kernel,
    wake_up_exact (reach_of_run crowdedRun System.init crowded (Option.some_get _).symm)⟩

end ExchangeLabs.AlarmClock
