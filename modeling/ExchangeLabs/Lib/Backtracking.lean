import Mathlib.Data.Finset.Card
import Mathlib.Data.List.Nodup
import Mathlib.Tactic.Ring
import ExchangeLabs.Lib.Linearization

/-!
# Searching for a linearization

A history that was recorded is a list of events, the calls and returns of its operations.  An
operation may come first if no return is recorded before its call.  The search tries these
operations one after the other: it takes an operation that the object can execute out of the
history and goes on with the rest, and when no operation is left to try it puts the last one
back and tries those after it.  It need not go on from a state in which it has been with the
same operations taken out.

## Main definitions

* `Event`, `WellFormed` — recorded histories.
* `Frame`, `Config` — what the search remembers of an operation it has taken out, and the search.
* `Next step equal c c'` — one step of the search.
* `Coherent step h₀ s₀ c` — the invariant of the search for a linearization of `h₀` from `s₀`.

## Main results

* `Coherent.next` — the invariant is kept.
* `Path.linearizes` — **sound**: once the history is empty, what was taken out is a linearization.
* `Coherent.not_canFinish` — **complete**: if nothing is left to try there is none.
* `Coherent.weight_lt` — **the search ends.**
-/

namespace ExchangeLabs.Linearization

variable {α σ : Type*} {a b c : α}

/-! ### Recorded histories -/

/-- What is recorded of an operation. -/
inductive Event (α : Type*)
  | call (a : α)
  | ret (a : α)
  deriving DecidableEq

/-- The operation of an event. -/
def Event.op : Event α → α
  | .call a | .ret a => a

/-- The operation that is called. -/
def Event.called : Event α → Option α
  | .call a => some a
  | .ret _ => none

@[simp] theorem Event.op_call (a : α) : (Event.call a).op = a := rfl

@[simp] theorem Event.op_ret (a : α) : (Event.ret a).op = a := rfl

@[simp] theorem Event.called_call (a : α) : (Event.call a).called = some a := rfl

@[simp] theorem Event.called_ret (a : α) : (Event.ret a).called = none := rfl

variable {h h' tried rest : List (Event α)}

/-- The operations of a history. -/
def ops (h : List (Event α)) : List α := h.filterMap Event.called

/-- `a` was over when `b` began. -/
def Before (h : List (Event α)) (a b : α) : Prop := [.ret a, .call b].Sublist h

/-- Every operation is called once and returns once, after its call. -/
structure WellFormed (h : List (Event α)) : Prop where
  nodup : h.Nodup
  returns : ∀ a, .call a ∈ h → [.call a, .ret a].Sublist h
  called : ∀ a, .ret a ∈ h → .call a ∈ h

@[simp] theorem mem_ops : a ∈ ops h ↔ .call a ∈ h := by
  simp only [ops, List.mem_filterMap]
  constructor
  · rintro ⟨e, he, hcalled⟩
    cases e with
    | call b =>
      obtain rfl := Option.some.inj hcalled
      exact he
    | ret b => cases hcalled
  · intro hmem
    exact ⟨.call a, hmem, rfl⟩

theorem ops_append (h h' : List (Event α)) : ops (h ++ h') = ops h ++ ops h' :=
  List.filterMap_append

@[simp] theorem ops_nil : ops ([] : List (Event α)) = [] := rfl

@[simp] theorem ops_call_cons (a : α) (h : List (Event α)) : ops (.call a :: h) = a :: ops h := rfl

theorem length_ops_le (h : List (Event α)) : (ops h).length ≤ h.length :=
  List.length_filterMap_le _ h

/-- An operation that was taken out, with the state before it, the calls that had been tried
and the rest of the history behind its call. -/
structure Frame (α σ : Type*) where
  state : σ
  tried : List (Event α)
  op : α
  rest : List (Event α)

/-- The history from which the operation was taken. -/
def Frame.history (f : Frame α σ) : List (Event α) := f.tried ++ .call f.op :: f.rest

/-- The operations that were taken out, the last one first. -/
def taken (frames : List (Frame α σ)) : List α := frames.map Frame.op

@[simp] theorem taken_nil : taken ([] : List (Frame α σ)) = [] := rfl

@[simp] theorem taken_cons (f : Frame α σ) (frames : List (Frame α σ)) :
    taken (f :: frames) = f.op :: taken frames := rfl

@[simp] theorem length_taken (frames : List (Frame α σ)) : (taken frames).length = frames.length :=
  List.length_map _

variable [DecidableEq α]

/-- The history of the other operations. -/
def remove (a : α) (h : List (Event α)) : List (Event α) := h.filter fun e => e.op ≠ a

theorem mem_remove {e : Event α} : e ∈ remove a h ↔ e ∈ h ∧ e.op ≠ a := by
  simp [remove]

theorem remove_append (a : α) (h h' : List (Event α)) :
    remove a (h ++ h') = remove a h ++ remove a h' := List.filter_append ..

theorem remove_sublist (a : α) (h : List (Event α)) : (remove a h).Sublist h :=
  List.filter_sublist

theorem remove_cons_of_eq {e : Event α} (he : e.op = a) : remove a (e :: h) = remove a h :=
  List.filter_cons_of_neg (by simp [he])

theorem remove_cons_of_ne {e : Event α} (he : e.op ≠ a) : remove a (e :: h) = e :: remove a h :=
  List.filter_cons_of_pos (by simp [he])

theorem remove_call_cons (a : α) (h : List (Event α)) :
    remove a (.call a :: h) = remove a h := remove_cons_of_eq rfl

theorem before_remove : Before (remove c h) a b ↔ Before h a b ∧ a ≠ c ∧ b ≠ c := by
  constructor
  · intro hbefore
    have hmem := hbefore.subset
    refine ⟨hbefore.trans (remove_sublist c h), ?_, ?_⟩
    · exact (mem_remove.mp (hmem List.mem_cons_self)).2
    · exact (mem_remove.mp (hmem (List.mem_cons_of_mem _ List.mem_cons_self))).2
  · rintro ⟨hbefore, ha, hb⟩
    have hremove : (remove c [.ret a, .call b]).Sublist (remove c h) := hbefore.filter _
    rwa [remove_cons_of_ne (e := .ret a) ha, remove_cons_of_ne (e := .call b) hb] at hremove

theorem WellFormed.remove (hh : WellFormed h) (c : α) : WellFormed (remove c h) where
  nodup := hh.nodup.filter _
  returns := by
    intro a ha
    obtain ⟨hcall, hne⟩ := mem_remove.mp ha
    have hremove : (Linearization.remove c [.call a, .ret a]).Sublist (Linearization.remove c h) :=
      (hh.returns a hcall).filter _
    rwa [remove_cons_of_ne hne, remove_cons_of_ne (e := .ret a) hne] at hremove
  called := by
    intro a ha
    obtain ⟨hret, hne⟩ := mem_remove.mp ha
    exact mem_remove.mpr ⟨hh.called a hret, hne⟩

/-- Other calls stay. -/
theorem ops_remove_of_notMem (hcall : .call a ∉ h) : ops (remove a h) = ops h := by
  induction h with
  | nil => rfl
  | cons e h ih =>
    have hih := ih fun hmem => hcall (List.mem_cons_of_mem e hmem)
    by_cases he : e.op = a
    · cases e with
      | call b =>
        rw [Event.op_call] at he
        exact absurd (he ▸ List.mem_cons_self) hcall
      | ret b =>
        rw [remove_cons_of_eq he]
        exact hih
    · rw [remove_cons_of_ne he]
      unfold ops
      rw [List.filterMap_cons, List.filterMap_cons]
      split
      · exact hih
      · exact congrArg _ hih

/-- The operations are the one that is removed and the others. -/
theorem ops_perm (hnodup : h.Nodup) (hcall : .call a ∈ h) :
    (ops h).Perm (a :: ops (remove a h)) := by
  obtain ⟨front, back, rfl⟩ := List.append_of_mem hcall
  rw [List.nodup_middle, List.nodup_cons, List.mem_append, not_or] at hnodup
  obtain ⟨⟨hfront, hback⟩, -⟩ := hnodup
  rw [remove_append, remove_call_cons, ops_append, ops_append, ops_call_cons,
    ops_remove_of_notMem hfront, ops_remove_of_notMem hback]
  exact List.perm_middle

theorem length_ops_remove (hnodup : h.Nodup) (hcall : .call a ∈ h) :
    (ops (remove a h)).length + 1 = (ops h).length :=
  (ops_perm hnodup hcall).length_eq.symm

/-! ### Which operations may come first -/

omit [DecidableEq α] in
/-- Two events are recorded in one order only. -/
theorem not_sublist_swap {e e' : Event α} (hnodup : h.Nodup) (hee' : [e, e'].Sublist h) :
    ¬ [e', e].Sublist h := by
  induction h with
  | nil => cases hee'
  | cons e₂ h ih =>
    rw [List.nodup_cons] at hnodup
    intro he'e
    cases hee' with
    | cons _ hee' =>
      cases he'e with
      | cons _ he'e => exact ih hnodup.2 hee' he'e
      | cons_cons _ _ => exact hnodup.1 (hee'.subset (List.mem_cons_of_mem _ List.mem_cons_self))
    | cons_cons _ hee' =>
      cases he'e with
      | cons _ he'e => exact hnodup.1 (he'e.subset (List.mem_cons_of_mem _ List.mem_cons_self))
      | cons_cons _ _ => exact hnodup.1 (hee'.subset List.mem_cons_self)

omit [DecidableEq α] in
/-- An operation with only calls before its call may come first. -/
theorem not_before_of_calls (hnodup : (tried ++ .call a :: rest).Nodup)
    (htried : ∀ e ∈ tried, ∃ c, e = .call c) : ¬ Before (tried ++ .call a :: rest) b a := by
  intro hbefore
  obtain ⟨front, back, heq, hfront, hback⟩ := List.sublist_append_iff.mp hbefore
  cases front with
  | nil =>
    rw [List.nil_append] at heq
    rw [← heq, List.sublist_cons_iff] at hback
    rcases hback with hback | ⟨_, heq', -⟩
    · -- the call of `a` would be recorded twice
      rw [List.nodup_middle, List.nodup_cons, List.mem_append] at hnodup
      exact hnodup.1 (.inr (hback.subset (List.mem_cons_of_mem _ List.mem_cons_self)))
    · cases heq'
  | cons e front =>
    obtain ⟨rfl, -⟩ := List.cons.inj heq
    obtain ⟨_, hcall⟩ := htried _ (hfront.subset List.mem_cons_self)
    cases hcall

/-- No other operations may come first. -/
theorem mem_of_first (hh : WellFormed (tried ++ .ret b :: rest))
    (ha : .call a ∈ tried ++ .ret b :: rest)
    (hfirst : ∀ c, .call c ∈ tried ++ .ret b :: rest → c ≠ a →
      ¬ Before (tried ++ .ret b :: rest) c a) : .call a ∈ tried := by
  rcases List.mem_append.mp ha with htried | hrest
  · exact htried
  · exfalso
    have hrest : .call a ∈ rest := (List.mem_cons.mp hrest).resolve_left fun heq => by cases heq
    have hret : .ret b ∈ tried ++ .ret b :: rest := by simp
    have hbefore : Before (tried ++ .ret b :: rest) b a :=
      ((List.singleton_sublist.mpr hrest).cons_cons _).trans (List.sublist_append_right ..)
    by_cases hab : b = a
    · subst hab
      exact not_sublist_swap hh.nodup hbefore (hh.returns b ha)
    · exact hfirst b (hh.called b hret) hab hbefore

/-! ### The search -/

/-- The operations of the history `h` can be put into an order in which they are executed
from `s`. -/
def CanFinish (step : σ → α → Option σ) (s : σ) (h : List (Event α)) : Prop :=
  Linearizable (Before h) step s (ops h)

/-- It is of no use to begin with the operation that is called by `e`. -/
def Tried (step : σ → α → Option σ) (s : σ) (h : List (Event α)) (e : Event α) : Prop :=
  ∃ a, e = .call a ∧ ∀ s', step s a = some s' → ¬ CanFinish step s' (remove a h)

/-- The search: what was taken out, the state after it, the calls that were tried there and the
rest of the history, and the states that were seen with what had been taken out before them. -/
structure Config (α σ : Type*) where
  frames : List (Frame α σ)
  state : σ
  tried : List (Event α)
  rest : List (Event α)
  seen : Set (Finset α × σ)

/-- The history without what was taken out. -/
def Config.history (c : Config α σ) : List (Event α) := c.tried ++ c.rest

/-- The search before its first step. -/
def Config.start (s₀ : σ) (h₀ : List (Event α)) : Config α σ where
  frames := []
  state := s₀
  tried := []
  rest := h₀
  seen := ∅

/-- A step of the search. -/
inductive Next (step : σ → α → Option σ) (equal : σ → σ → Prop) (c : Config α σ) :
    Config α σ → Prop
  /-- The object cannot execute the operation. -/
  | illegal {a : α} {rest : List (Event α)} (hrest : c.rest = .call a :: rest)
      (hstep : step c.state a = none) :
      Next step equal c { c with tried := c.tried ++ [.call a], rest := rest }
  /-- The search was in the state after the operation before. -/
  | seen {a : α} {rest : List (Event α)} {s' t : σ} (hrest : c.rest = .call a :: rest)
      (hstep : step c.state a = some s') (hequal : equal s' t)
      (hseen : ((a :: taken c.frames).toFinset, t) ∈ c.seen) :
      Next step equal c { c with tried := c.tried ++ [.call a], rest := rest }
  /-- The operation is taken out. -/
  | take {a : α} {rest : List (Event α)} {s' : σ} (hrest : c.rest = .call a :: rest)
      (hstep : step c.state a = some s') :
      Next step equal c
        { frames := ⟨c.state, c.tried, a, rest⟩ :: c.frames
          state := s'
          tried := []
          rest := remove a c.history
          seen := insert ((a :: taken c.frames).toFinset, s') c.seen }
  /-- The last operation that was taken out is put back. -/
  | putBack {b : α} {rest : List (Event α)} {f : Frame α σ} {frames : List (Frame α σ)}
      (hrest : c.rest = .ret b :: rest) (hframes : c.frames = f :: frames) :
      Next step equal c
        { c with
          frames := frames
          state := f.state
          tried := f.tried ++ [.call f.op]
          rest := f.rest }

/-! ### Its invariant -/

variable {step : σ → α → Option σ} {equal : σ → σ → Prop} {s₀ s s' : σ} {h₀ : List (Event α)}
  {f : Frame α σ} {frames : List (Frame α σ)} {p : Finset α × σ} {c c' : Config α σ}

/-- What was taken out leads from `s₀` with all of `h₀` to `s` with `h`, and nothing that was
tried before the operations that were taken out was of use. -/
def Path (step : σ → α → Option σ) (s₀ : σ) (h₀ : List (Event α)) :
    List (Frame α σ) → σ → List (Event α) → Prop
  | [], s, h => s = s₀ ∧ h = h₀
  | f :: frames, s, h => Path step s₀ h₀ frames f.state f.history ∧
      (∀ e ∈ f.tried, Tried step f.state f.history e) ∧ step f.state f.op = some s ∧
      h = remove f.op f.history

/-- The states on the way, with what had been taken out before them. -/
def OnPath : List (Frame α σ) → σ → Finset α × σ → Prop
  | [], _, _ => False
  | f :: frames, s, p => p = ((taken (f :: frames)).toFinset, s) ∨ OnPath frames f.state p

/-- The history without some operations. -/
def without (S : Finset α) (h : List (Event α)) : List (Event α) := h.filter fun e => e.op ∉ S

/-- The invariant of the search. -/
structure Coherent (step : σ → α → Option σ) (s₀ : σ) (h₀ : List (Event α)) (c : Config α σ) :
    Prop where
  path : Path step s₀ h₀ c.frames c.state c.history
  tried : ∀ e ∈ c.tried, Tried step c.state c.history e
  seen : ∀ p ∈ c.seen, OnPath c.frames c.state p ∨ ¬ CanFinish step p.2 (without p.1 h₀)

theorem coherent_start (step : σ → α → Option σ) (s₀ : σ) (h₀ : List (Event α)) :
    Coherent step s₀ h₀ (.start s₀ h₀) where
  path := ⟨rfl, rfl⟩
  tried := fun _ he => absurd he List.not_mem_nil
  seen := fun _ hp => absurd hp (Set.notMem_empty _)

theorem Tried.exists_call {e : Event α} (he : Tried step s h e) : ∃ c, e = .call c := by
  obtain ⟨a, rfl, -⟩ := he
  exact ⟨a, rfl⟩

theorem without_empty (h : List (Event α)) : without ∅ h = h := by
  simp [without]

/-- Taking one more operation out. -/
theorem remove_without (a : α) (S : Finset α) (h : List (Event α)) :
    remove a (without S h) = without (insert a S) h := by
  unfold remove without
  rw [List.filter_filter]
  refine List.filter_congr fun e _ => ?_
  simp only [Finset.mem_insert, not_or]
  rw [Bool.decide_and]

theorem Path.wellFormed (hh₀ : WellFormed h₀) (hpath : Path step s₀ h₀ frames s h) :
    WellFormed h := by
  induction frames generalizing s h with
  | nil =>
    obtain ⟨-, rfl⟩ := hpath
    exact hh₀
  | cons f frames ih =>
    obtain ⟨hpath, -, -, rfl⟩ := hpath
    exact (ih hpath).remove f.op

/-- The history is the one from the beginning without what was taken out. -/
theorem Path.history_eq (hpath : Path step s₀ h₀ frames s h) :
    h = without (taken frames).toFinset h₀ := by
  induction frames generalizing s h with
  | nil =>
    obtain ⟨-, rfl⟩ := hpath
    rw [taken_nil, List.toFinset_nil, without_empty]
  | cons f frames ih =>
    obtain ⟨hpath, -, -, rfl⟩ := hpath
    rw [ih hpath, remove_without, taken_cons, List.toFinset_cons]

theorem Path.notMem_taken (hpath : Path step s₀ h₀ frames s h) (ha : .call a ∈ h) :
    a ∉ taken frames := by
  rw [hpath.history_eq] at ha
  have := (List.mem_filter.mp ha).2
  simpa using this

theorem Path.nodup_taken (hpath : Path step s₀ h₀ frames s h) : (taken frames).Nodup := by
  induction frames generalizing s h with
  | nil => exact List.nodup_nil
  | cons f frames ih =>
    obtain ⟨hpath, -, -, -⟩ := hpath
    rw [taken_cons, List.nodup_cons]
    refine ⟨hpath.notMem_taken ?_, ih hpath⟩
    simp [Frame.history]

theorem card_taken_cons (hpath : Path step s₀ h₀ frames s h) (ha : .call a ∈ h) :
    (a :: taken frames).toFinset.card = frames.length + 1 := by
  rw [List.toFinset_card_of_nodup, List.length_cons, length_taken]
  exact List.nodup_cons.mpr ⟨hpath.notMem_taken ha, hpath.nodup_taken⟩

/-- Fewer operations were taken out before the states on the way. -/
theorem OnPath.card_le (hp : OnPath frames s p) : p.1.card ≤ frames.length := by
  induction frames generalizing s with
  | nil => exact hp.elim
  | cons f frames ih =>
    rcases hp with rfl | hp
    · refine (List.toFinset_card_le _).trans ?_
      rw [length_taken]
    · exact (ih hp).trans (Nat.le_succ _)

theorem Path.length (hh₀ : WellFormed h₀) (hpath : Path step s₀ h₀ frames s h) :
    frames.length + (ops h).length = (ops h₀).length := by
  induction frames generalizing s h with
  | nil =>
    obtain ⟨-, rfl⟩ := hpath
    exact Nat.zero_add _
  | cons f frames ih =>
    obtain ⟨hpath, -, -, rfl⟩ := hpath
    have hcall : .call f.op ∈ f.history := by simp [Frame.history]
    have hlength := length_ops_remove (hpath.wellFormed hh₀).nodup hcall
    have := ih hpath
    rw [List.length_cons]
    omega

/-! ### What the search finds -/

/-- **Nothing is left to try**: then the operations cannot be put into an order. -/
theorem not_canFinish_of_tried (hh : WellFormed (tried ++ .ret b :: rest))
    (htried : ∀ e ∈ tried, Tried step s (tried ++ .ret b :: rest) e) :
    ¬ CanFinish step s (tried ++ .ret b :: rest) := by
  intro hfinish
  have hb : .call b ∈ tried ++ .ret b :: rest := hh.called b (by simp)
  obtain ⟨a, ha, hfirst⟩ := hfinish.exists_first (List.ne_nil_of_mem (mem_ops.mpr hb))
  rw [mem_ops] at ha
  obtain ⟨hmin, s', hstep, hrest⟩ := hfirst _ (ops_perm hh.nodup ha)
  have hmem : .call a ∈ tried := by
    refine mem_of_first hh ha fun c hc hca => hmin c ?_
    exact mem_ops.mpr (mem_remove.mpr ⟨hc, hca⟩)
  obtain ⟨_, heq, huseless⟩ := htried _ hmem
  cases heq
  refine huseless s' hstep (hrest.of_before fun c hc d hd hbefore => ?_)
  exact (before_remove.mp hbefore).1

/-- What was taken out, and then a linearization of the rest, is a linearization. -/
theorem Path.linearizes (hh₀ : WellFormed h₀) (hpath : Path step s₀ h₀ frames s h) {order : List α}
    (horder : Linearizes (Before h) step s (ops h) order) :
    Linearizes (Before h₀) step s₀ (ops h₀) ((taken frames).reverse ++ order) := by
  induction frames generalizing s h order with
  | nil =>
    obtain ⟨rfl, rfl⟩ := hpath
    exact horder
  | cons f frames ih =>
    obtain ⟨hpath, htried, hstep, rfl⟩ := hpath
    have hcall : .call f.op ∈ f.history := by simp [Frame.history]
    have hwf := hpath.wellFormed hh₀
    rw [taken_cons, List.reverse_cons, List.append_assoc, List.singleton_append]
    refine ih hpath (Linearizes.cons (horder.of_before fun c hc d hd hbefore => ?_)
      (ops_perm hwf.nodup hcall) (fun d _ => ?_) hstep)
    · rw [mem_ops, mem_remove] at hc hd
      exact before_remove.mpr ⟨hbefore, hc.2, hd.2⟩
    · exact not_before_of_calls hwf.nodup fun e he => (htried e he).exists_call

theorem before_without {S : Finset α} (hbefore : Before h a b) (ha : a ∉ S) (hb : b ∉ S) :
    Before (without S h) a b := by
  have hkeep : without S [.ret a, .call b] = [.ret a, .call b] := by
    refine List.filter_eq_self.mpr fun e he => ?_
    rcases List.mem_pair.mp he with rfl | rfl
    · exact decide_eq_true ha
    · exact decide_eq_true hb
  have hfilter : (without S [.ret a, .call b]).Sublist (without S h) := hbefore.filter _
  rwa [hkeep] at hfilter

/-- What was over before an operation was called is taken out before that operation. -/
theorem Path.mem_taken (hh₀ : WellFormed h₀) (hpath : Path step s₀ h₀ (f :: frames) s h)
    (hbefore : Before h₀ b f.op) : b ∈ taken frames := by
  obtain ⟨hpath, htried, -, -⟩ := hpath
  by_contra hb
  have hcall : .call f.op ∈ f.history := by simp [Frame.history]
  refine not_before_of_calls (b := b) (hpath.wellFormed hh₀).nodup
    (fun e he => (htried e he).exists_call) ?_
  show Before f.history b f.op
  rw [hpath.history_eq]
  refine before_without hbefore (by simpa using hb) ?_
  simpa using hpath.notMem_taken hcall

/-- **At every moment** what was taken out looks like the beginning of a linearization. -/
theorem Path.begins (hh₀ : WellFormed h₀) (hpath : Path step s₀ h₀ frames s h) :
    Begins (Before h₀) step s₀ (ops h₀) (taken frames).reverse ∧
      run step s₀ (taken frames).reverse = some s := by
  induction frames generalizing s h with
  | nil =>
    obtain ⟨rfl, -⟩ := hpath
    refine ⟨⟨List.nodup_nil, List.nil_subset _, .nil, ?_, rfl⟩, rfl⟩
    intro a ha
    cases ha
  | cons f frames ih =>
    have hnodup := hpath.nodup_taken
    have hmem : ∀ b, Before h₀ b f.op → b ∈ taken frames := fun b => hpath.mem_taken hh₀
    obtain ⟨hpath, -, hstep, -⟩ := hpath
    obtain ⟨⟨-, hsubset, hrespects, hclosed, -⟩, hrun⟩ := ih hpath
    have hcall : .call f.op ∈ f.history := by simp [Frame.history]
    have hnew := hpath.notMem_taken hcall
    have hops : f.op ∈ ops h₀ := by
      rw [hpath.history_eq] at hcall
      exact mem_ops.mpr (List.mem_of_mem_filter hcall)
    have hrun' : run step s₀ (taken (f :: frames)).reverse = some s := by
      rw [taken_cons, List.reverse_cons, run_append, hrun, Option.bind_some, run, hstep]
      rfl
    refine ⟨⟨List.nodup_reverse.mpr hnodup, ?_, ?_, ?_, by rw [hrun']; rfl⟩, hrun'⟩
    · rw [taken_cons, List.reverse_cons]
      exact List.append_subset.mpr ⟨hsubset, List.cons_subset.mpr ⟨hops, List.nil_subset _⟩⟩
    · rw [taken_cons, List.reverse_cons, List.pairwise_append]
      refine ⟨hrespects, List.pairwise_singleton _ _, fun a ha b hb hbefore => hnew ?_⟩
      rw [List.mem_singleton] at hb
      subst hb
      exact List.mem_reverse.mp (hclosed a ha f.op hops hbefore)
    · -- what is before an operation has been taken out when it is tried
      intro a ha b hb hbefore
      rw [taken_cons, List.reverse_cons, List.mem_append, List.mem_singleton] at ha
      rw [taken_cons, List.mem_reverse]
      rcases ha with ha | rfl
      · exact List.mem_cons_of_mem _ (List.mem_reverse.mp (hclosed a ha b hb hbefore))
      · exact List.mem_cons_of_mem _ (hmem b hbefore)

/-- **The search is sound**: once the history is empty, what was taken out is a linearization. -/
theorem Coherent.linearizes (hh₀ : WellFormed h₀) (hc : Coherent step s₀ h₀ c)
    (hempty : c.history = []) :
    Linearizes (Before h₀) step s₀ (ops h₀) (taken c.frames).reverse := by
  have hpath := hc.path
  rw [hempty] at hpath
  have := hpath.linearizes hh₀ linearizes_nil
  rwa [List.append_nil] at this

/-- **The search is complete**: if nothing is left to try there is no linearization. -/
theorem Coherent.not_canFinish (hh₀ : WellFormed h₀) (hc : Coherent step s₀ h₀ c)
    (hframes : c.frames = [])
    (hrest : c.rest = .ret b :: rest) : ¬ CanFinish step s₀ h₀ := by
  have hpath := hc.path
  have htried := hc.tried
  rw [hframes] at hpath
  obtain ⟨hstate, hhistory⟩ := hpath
  rw [Config.history, hrest] at hhistory htried
  rw [hstate] at htried
  rw [hhistory] at htried
  subst hhistory
  exact not_canFinish_of_tried hh₀ htried

/-- There is something to look at, or nothing at all. -/
theorem Coherent.rest_ne_nil (hh₀ : WellFormed h₀) (hc : Coherent step s₀ h₀ c)
    (hne : c.history ≠ []) :
    c.rest ≠ [] := by
  intro hrest
  have hcalls : ∀ e ∈ c.history, ∃ a, e = .call a := by
    intro e he
    rw [Config.history, hrest, List.append_nil] at he
    exact (hc.tried e he).exists_call
  obtain ⟨e, he⟩ := List.exists_mem_of_ne_nil _ hne
  obtain ⟨a, rfl⟩ := hcalls e he
  have hpair := (hc.path.wellFormed hh₀).returns a he
  obtain ⟨b, hb⟩ := hcalls (.ret a) (hpair.subset (by simp))
  cases hb

/-! ### One step -/

/-- An operation that it is of no use to begin with is passed over. -/
theorem Coherent.skip (hc : Coherent step s₀ h₀ c) (hrest : c.rest = .call a :: rest)
    (huseless : ∀ s', step c.state a = some s' → ¬ CanFinish step s' (remove a c.history)) :
    Coherent step s₀ h₀ { c with tried := c.tried ++ [.call a], rest := rest } := by
  have hhistory : c.tried ++ [.call a] ++ rest = c.history := by
    rw [Config.history, hrest, List.append_assoc, List.singleton_append]
  refine ⟨?_, fun e he => ?_, hc.seen⟩
  · show Path step s₀ h₀ c.frames c.state (c.tried ++ [.call a] ++ rest)
    rw [hhistory]
    exact hc.path
  · show Tried step c.state (c.tried ++ [.call a] ++ rest) e
    rw [hhistory]
    rcases List.mem_append.mp he with he | he
    · exact hc.tried e he
    · exact ⟨a, List.mem_singleton.mp he, huseless⟩

/-- An operation is taken out. -/
theorem Coherent.take (hc : Coherent step s₀ h₀ c) (hrest : c.rest = .call a :: rest)
    (hstep : step c.state a = some s') :
    Coherent step s₀ h₀
      { frames := ⟨c.state, c.tried, a, rest⟩ :: c.frames
        state := s'
        tried := []
        rest := remove a c.history
        seen := insert ((a :: taken c.frames).toFinset, s') c.seen } := by
  have hhistory : c.tried ++ .call a :: rest = c.history := by rw [Config.history, hrest]
  refine ⟨⟨?_, ?_, hstep, ?_⟩, ?_, fun p hp => ?_⟩
  · show Path step s₀ h₀ c.frames c.state (c.tried ++ .call a :: rest)
    rw [hhistory]
    exact hc.path
  · show ∀ e ∈ c.tried, Tried step c.state (c.tried ++ .call a :: rest) e
    rw [hhistory]
    exact hc.tried
  · show [] ++ remove a c.history = remove a (c.tried ++ .call a :: rest)
    rw [List.nil_append, hhistory]
  · intro e he
    cases he
  · rcases Set.mem_insert_iff.mp hp with rfl | hp
    · exact .inl (.inl rfl)
    · exact (hc.seen p hp).imp_left .inr

/-- The last operation that was taken out is put back, because nothing is left to try after it. -/
theorem Coherent.putBack (hh₀ : WellFormed h₀) (hc : Coherent step s₀ h₀ c)
    (hrest : c.rest = .ret b :: rest) (hframes : c.frames = f :: frames) :
    Coherent step s₀ h₀
      { c with
        frames := frames
        state := f.state
        tried := f.tried ++ [.call f.op]
        rest := f.rest } := by
  have hhistory : c.history = c.tried ++ .ret b :: rest := by rw [Config.history, hrest]
  have hpath := hc.path
  have hseen := hc.seen
  -- all the calls that were possible have been tried
  have huseless : ¬ CanFinish step c.state c.history := by
    have htried := hc.tried
    have hwf := hpath.wellFormed hh₀
    rw [hhistory] at htried hwf ⊢
    exact not_canFinish_of_tried hwf htried
  have hwithout := hpath.history_eq
  rw [hframes] at hpath hseen hwithout
  obtain ⟨hpath, hbefore, hstep, heq⟩ := hpath
  have hback : f.tried ++ [.call f.op] ++ f.rest = f.history := by
    rw [Frame.history, List.append_assoc, List.singleton_append]
  refine ⟨?_, fun e he => ?_, fun p hp => ?_⟩
  · show Path step s₀ h₀ frames f.state (f.tried ++ [.call f.op] ++ f.rest)
    rw [hback]
    exact hpath
  · show Tried step f.state (f.tried ++ [.call f.op] ++ f.rest) e
    rw [hback]
    rcases List.mem_append.mp he with he | he
    · exact hbefore e he
    · refine ⟨f.op, List.mem_singleton.mp he, fun s' hs' => ?_⟩
      rw [hstep] at hs'
      cases hs'
      rwa [← heq]
  · rcases hseen p hp with (rfl | hon) | hp
    · rw [hwithout] at huseless
      exact .inr huseless
    · exact .inl hon
    · exact .inr hp

/-- **The invariant is kept**, if states that count as equal can do the same. -/
theorem Coherent.next (hequal : ∀ s t a s', equal s t → step s a = some s' →
      ∃ t', step t a = some t' ∧ equal s' t')
    (hh₀ : WellFormed h₀) (hc : Coherent step s₀ h₀ c) (hnext : Next step equal c c') :
    Coherent step s₀ h₀ c' := by
  cases hnext with
  | illegal hrest hstep =>
    refine hc.skip hrest fun s' hs' => ?_
    rw [hstep] at hs'
    cases hs'
  | @seen a rest s' t hrest hstep hst hseen =>
    refine hc.skip hrest fun s₂ hs₂ hfinish => ?_
    rw [hstep] at hs₂
    cases hs₂
    have hcall : .call a ∈ c.history := by
      rw [Config.history, hrest]
      simp
    rcases hc.seen _ hseen with hon | huseless
    · -- fewer operations were taken out before the states on the way
      have hle := hon.card_le
      rw [card_taken_cons hc.path hcall] at hle
      omega
    · refine huseless ?_
      rw [List.toFinset_cons, ← remove_without, ← hc.path.history_eq]
      exact hfinish.of_simulates hst hequal
  | take hrest hstep => exact hc.take hrest hstep
  | putBack hrest hframes => exact hc.putBack hh₀ hrest hframes

/-! ### The search ends -/

/-- The calls that are left to try before the operations that were taken out, each counted as
often as the search can go on after it. -/
def frameWeight (L : ℕ) : List (Frame α σ) → ℕ
  | [] => 0
  | f :: frames => f.rest.length * (L + 1) ^ (L - frames.length) + frameWeight L frames

/-- What is left to try. -/
def weight (L : ℕ) (c : Config α σ) : ℕ :=
  c.rest.length * (L + 1) ^ (L - c.frames.length) + frameWeight L c.frames

/-- **Every step leaves less to try**, so the search ends. -/
theorem Coherent.weight_lt (hh₀ : WellFormed h₀) (hc : Coherent step s₀ h₀ c)
    (hnext : Next step equal c c') : weight h₀.length c' < weight h₀.length c := by
  cases hnext with
  | illegal hrest _ | seen hrest _ _ _ =>
    simp only [weight, hrest, List.length_cons, Nat.succ_mul]
    have : 0 < (h₀.length + 1) ^ (h₀.length - c.frames.length) := Nat.pos_of_neZero _
    omega
  | @take a rest s' hrest _ =>
    -- one more operation is taken out, so there are still some of them
    have hcall : .call a ∈ c.history := by
      rw [Config.history, hrest]
      simp
    have hlength := hc.path.length hh₀
    have hops := length_ops_remove (hc.path.wellFormed hh₀).nodup hcall
    have hle := length_ops_le h₀
    have hshort : (remove a c.history).length ≤ h₀.length := by
      rw [hc.path.history_eq]
      exact ((remove_sublist a _).trans List.filter_sublist).length_le
    obtain ⟨k, hk⟩ : ∃ k, h₀.length - c.frames.length = k + 1 :=
      ⟨h₀.length - c.frames.length - 1, by omega⟩
    have hk' : h₀.length - (c.frames.length + 1) = k := by omega
    simp only [weight, frameWeight, hrest, List.length_cons, hk, hk', Nat.succ_mul]
    have hpos : 0 < (h₀.length + 1) ^ k := Nat.pos_of_neZero _
    have hmul : (remove a c.history).length * (h₀.length + 1) ^ k ≤
        h₀.length * (h₀.length + 1) ^ k := Nat.mul_le_mul_right _ hshort
    have hpow : (h₀.length + 1) ^ (k + 1) =
        h₀.length * (h₀.length + 1) ^ k + (h₀.length + 1) ^ k := by ring
    omega
  | @putBack b rest f frames hrest hframes =>
    simp only [weight, hrest, hframes, frameWeight, List.length_cons, Nat.succ_mul]
    have : 0 < (h₀.length + 1) ^ (h₀.length - (frames.length + 1)) := Nat.pos_of_neZero _
    omega

end ExchangeLabs.Linearization
