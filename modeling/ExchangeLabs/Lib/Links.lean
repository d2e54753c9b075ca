import Mathlib.Data.List.Nodup
import Mathlib.Logic.Function.Basic

/-!
# Doubly linked lists

Cells with a pointer to the next and to the previous one.  A cell that is taken out of a list
keeps its own pointers, so that it can be put back to where it was as long as cells are put
back in the opposite order.

## Main definitions

* `Links` — the pointers of all cells.
* `Links.unlink`, `Links.relink` — take a cell out, put it back.
* `Linked l cells` — the pointers are those of the list `cells`.

## Main results

* `Linked.unlink` — the other cells are linked.
* `Linked.relink_unlink` — **putting a cell back undoes taking it out.**
* `Linked.cons` — a new first cell.
-/

namespace ExchangeLabs

variable {α : Type*}

/-- The pointers of doubly linked cells. -/
@[ext] structure Links (α : Type*) where
  next : α → Option α
  prev : α → Option α

namespace Links

variable [DecidableEq α]

def setNext (l : Links α) (x : α) (p : Option α) : Links α :=
  { l with next := Function.update l.next x p }

def setPrev (l : Links α) (x : α) (p : Option α) : Links α :=
  { l with prev := Function.update l.prev x p }

/-- Let the cells beside `y` point to each other. -/
def unlink (l : Links α) (y : α) : Option (Links α) :=
  (l.prev y).map fun x =>
    match l.next y with
    | none => l.setNext x none
    | some z => (l.setNext x (some z)).setPrev z (some x)

/-- Let the cells beside `y` point to it. -/
def relink (l : Links α) (y : α) : Option (Links α) :=
  (l.prev y).map fun x =>
    match l.next y with
    | none => l.setNext x (some y)
    | some z => (l.setNext x (some y)).setPrev z (some y)

@[simp] theorem prev_setNext (l : Links α) (x : α) (p : Option α) :
    (l.setNext x p).prev = l.prev := rfl

@[simp] theorem next_setPrev (l : Links α) (x : α) (p : Option α) :
    (l.setPrev x p).next = l.next := rfl

@[simp] theorem next_setNext_self (l : Links α) (x : α) (p : Option α) :
    (l.setNext x p).next x = p := Function.update_self ..

@[simp] theorem prev_setPrev_self (l : Links α) (x : α) (p : Option α) :
    (l.setPrev x p).prev x = p := Function.update_self ..

theorem next_setNext_of_ne {x y : α} (h : y ≠ x) (l : Links α) (p : Option α) :
    (l.setNext x p).next y = l.next y := Function.update_of_ne h ..

theorem prev_setPrev_of_ne {x y : α} (h : y ≠ x) (l : Links α) (p : Option α) :
    (l.setPrev x p).prev y = l.prev y := Function.update_of_ne h ..

end Links

/-! ### Linked cells -/

variable {l l' : Links α} {front back cells : List α} {x y z : α}

/-- The pointers of these cells lead from each of them to the next one and back, and the last
one has no next one.  Nothing is said of the cell before the first one. -/
def Linked (l : Links α) : List α → Prop
  | [] => True
  | [x] => l.next x = none
  | x :: y :: cells => l.next x = some y ∧ l.prev y = some x ∧ Linked l (y :: cells)

theorem Linked.tail (h : Linked l (x :: cells)) : Linked l cells := by
  cases cells with
  | nil => trivial
  | cons y cells => exact h.2.2

theorem Linked.next_head (h : Linked l (x :: cells)) : l.next x = cells.head? := by
  cases cells with
  | nil => exact h
  | cons y cells => exact h.1

theorem Linked.of_append (h : Linked l (front ++ back)) : Linked l back := by
  induction front with
  | nil => exact h
  | cons w front ih => exact ih h.tail

theorem Linked.next_eq (h : Linked l (front ++ x :: back)) : l.next x = back.head? :=
  h.of_append.next_head

theorem Linked.prev_eq (h : Linked l (front ++ x :: y :: back)) : l.prev y = some x :=
  h.of_append.2.1

/-- Only the pointers between the cells matter. -/
theorem Linked.congr (h : Linked l cells) (hnext : ∀ x ∈ cells, l'.next x = l.next x)
    (hprev : ∀ x ∈ cells.tail, l'.prev x = l.prev x) : Linked l' cells := by
  induction cells with
  | nil => trivial
  | cons x cells ih =>
    -- the last cell has no next one; any other one is known by two pointers
    cases cells with
    | nil => exact (hnext x List.mem_cons_self).trans h
    | cons y cells =>
      refine ⟨?_, ?_, ih h.tail (fun z hz => hnext z (List.mem_cons_of_mem x hz)) fun z hz => ?_⟩
      · rw [hnext x List.mem_cons_self]
        exact h.1
      · rw [hprev y List.mem_cons_self]
        exact h.2.1
      · exact hprev z (List.mem_cons_of_mem y hz)

/-- Other cells behind `x`. -/
theorem Linked.glue {back' : List α} (h : Linked l (front ++ x :: back))
    (h' : Linked l' (x :: back')) (hnext : ∀ u ∈ front, l'.next u = l.next u)
    (hprev : ∀ u ∈ (front ++ [x]).tail, l'.prev u = l.prev u) :
    Linked l' (front ++ x :: back') := by
  induction front with
  | nil => exact h'
  | cons w front ih =>
    have hw := hnext w List.mem_cons_self
    have hrest := ih h.tail (fun u hu => hnext u (List.mem_cons_of_mem w hu)) fun u hu =>
      hprev u (List.mem_of_mem_tail hu)
    cases front with
    | nil => exact ⟨hw.trans h.1, (hprev x List.mem_cons_self).trans h.2.1, hrest⟩
    | cons v front => exact ⟨hw.trans h.1, (hprev v List.mem_cons_self).trans h.2.1, hrest⟩

/-- What is known of the cell `y` behind `x`. -/
theorem Linked.around (h : Linked l (front ++ x :: y :: back)) :
    l.next x = some y ∧ l.prev y = some x ∧ l.next y = back.head? ∧
      ∀ z ∈ back.head?, l.prev z = some y := by
  have happend : front ++ x :: y :: back = (front ++ [x]) ++ y :: back := by simp
  refine ⟨h.next_eq, h.prev_eq, ?_, fun z hz => ?_⟩
  · rw [happend] at h
    exact h.next_eq
  · cases back with
    | nil => cases hz
    | cons w back =>
      obtain rfl := Option.some.inj hz
      rw [happend] at h
      exact h.prev_eq

variable [DecidableEq α]

/-- **A cell is taken out**, and the others are linked.  No other pointers change. -/
theorem Linked.unlink (h : Linked l (front ++ x :: y :: back))
    (hnodup : (front ++ x :: y :: back).Nodup) :
    ∃ l', l.unlink y = some l' ∧ Linked l' (front ++ x :: back) ∧
      (∀ u, u ≠ x → l'.next u = l.next u) ∧ ∀ u ∉ back.head?, l'.prev u = l.prev u := by
  obtain ⟨-, hprev, hnext, -⟩ := h.around
  have hfront : ∀ u ∈ front, u ≠ x := by
    rintro u hu rfl
    exact (List.nodup_append.mp hnodup).2.2 u hu u List.mem_cons_self rfl
  -- `y` is the last cell, or one before another, whose pointer changes too
  cases back with
  | nil =>
    refine ⟨l.setNext x none, by rw [Links.unlink, hprev, hnext]; rfl, ?_, fun u hu => ?_, ?_⟩
    · refine h.glue (l.next_setNext_self x none) (fun u hu => ?_) fun u _ => rfl
      exact l.next_setNext_of_ne (hfront u hu) none
    · exact l.next_setNext_of_ne hu none
    · exact fun _ _ => rfl
  | cons z back =>
    have hback := (List.nodup_append.mp hnodup).2.1
    simp only [List.nodup_cons, List.mem_cons, not_or] at hback
    obtain ⟨⟨-, hxz, hxback⟩, -, hzback, -⟩ := hback
    have hz : ∀ u ∈ front ++ [x], u ≠ z := by
      rintro u hu rfl
      have happend : front ++ x :: y :: u :: back = (front ++ [x]) ++ y :: u :: back := by simp
      rw [happend] at hnodup
      exact (List.nodup_append.mp hnodup).2.2 u hu u (by simp) rfl
    -- only the next pointer of `x` and the previous one of `z` change
    have hother : ∀ u, u ≠ x → ((l.setNext x (some z)).setPrev z (some x)).next u = l.next u :=
      fun u hu => l.next_setNext_of_ne hu _
    have hother' : ∀ u, u ≠ z → ((l.setNext x (some z)).setPrev z (some x)).prev u = l.prev u :=
      fun u hu => (l.setNext x (some z)).prev_setPrev_of_ne hu _
    refine ⟨_, by rw [Links.unlink, hprev, hnext]; rfl, ?_, hother, fun u hu => ?_⟩
    · refine h.glue ⟨l.next_setNext_self x _, Links.prev_setPrev_self _ z _, ?_⟩
        (fun u hu => hother u (hfront u hu)) fun u hu => hother' u (hz u (List.mem_of_mem_tail hu))
      have htail : Linked l (z :: back) := by
        have happend : front ++ x :: y :: z :: back = (front ++ [x, y]) ++ z :: back := by simp
        rw [happend] at h
        exact h.of_append
      refine htail.congr (fun u hu => hother u ?_) fun u hu => hother' u ?_
      · rintro rfl
        rcases List.mem_cons.mp hu with rfl | hu
        · exact hxz rfl
        · exact hxback hu
      · rintro rfl
        exact hzback hu
    · exact hother' u fun heq => hu (heq ▸ rfl)

/-- A new cell in front. -/
theorem Linked.cons {n p : α} (h : Linked l (p :: cells)) (hn : n ∉ p :: cells)
    (hp : p ∉ cells) : Linked ((l.setPrev p (some n)).setNext n (some p)) (n :: p :: cells) := by
  refine ⟨Links.next_setNext_self _ n _, l.prev_setPrev_self p _, ?_⟩
  refine h.congr (fun u hu => Links.next_setNext_of_ne ?_ _ _)
    fun u hu => Links.prev_setPrev_of_ne ?_ _ _
  · rintro rfl
    exact hn hu
  · rintro rfl
    exact hp hu

/-- **Putting a cell back undoes taking it out.** -/
theorem Linked.relink_unlink (h : Linked l (front ++ x :: y :: back))
    (hnodup : (front ++ x :: y :: back).Nodup) (hl' : l.unlink y = some l') :
    l'.relink y = some l := by
  obtain ⟨hxy, hprev, hnext, hback⟩ := h.around
  obtain ⟨l₂, hl₂, -, hother, hother'⟩ := h.unlink hnodup
  obtain rfl : l₂ = l' := Option.some.inj (hl₂.symm.trans hl')
  have hnodup' := (List.nodup_append.mp hnodup).2.1
  simp only [List.nodup_cons, List.mem_cons, not_or] at hnodup'
  obtain ⟨⟨hne, -⟩, hyback, -⟩ := hnodup'
  -- the pointers of `y` itself are still there, and say where it was
  have hyprev : l₂.prev y = some x := by
    rw [hother' y (fun hmem => hyback (List.mem_of_mem_head? hmem)), hprev]
  have hynext : l₂.next y = back.head? := by rw [hother y (Ne.symm hne), hnext]
  rw [Links.unlink, hprev, hnext] at hl'
  rw [Links.relink, hyprev, hynext]
  cases back with
  | nil =>
    obtain rfl := Option.some.inj hl'
    refine congrArg some (Links.ext ?_ rfl)
    simp [Links.setNext, ← hxy]
  | cons z back =>
    obtain rfl := Option.some.inj hl'
    have hzy := hback z rfl
    refine congrArg some (Links.ext ?_ ?_)
    · simp [Links.setNext, Links.setPrev, ← hxy]
    · simp [Links.setNext, Links.setPrev, ← hzy]

end ExchangeLabs
