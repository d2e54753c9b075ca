import Mathlib.Tactic.Common

/-!
# Descriptor tables

The table of the open files of a process, as a list of what each descriptor stands for.
A call that opens something takes the lowest descriptor that is not in use; a child
process starts with a copy of the table, which is the same list.

## Main definitions

* `Fds α` — a table, for any kind `α` of open files; `get`.
* `openFd`, `close`, `dup2`, `pipe` — the system calls, which are taken to succeed.

## Main results

* `get_openFd`, `get_close`, `get_dup2_close`, `get_pipe` — what is open afterwards.
* `get_free` — a descriptor that is given out was not in use.
-/

namespace ExchangeLabs

/-- The open files of a process under their descriptors. -/
abbrev Fds (α : Type*) := List (Option α)

namespace Fds

variable {α : Type*} (fds : Fds α)

/-- What a descriptor stands for, if it is open. -/
def get (fd : ℕ) : Option α := (fds[fd]?).getD none

/-- The lowest descriptor that is not in use. -/
def free : ℕ := fds.findIdx fun file => file.isNone

/-- The table with one entry replaced or added at the end. -/
def put (fd : ℕ) (file : Option α) : Fds α :=
  if fd < fds.length then fds.set fd file else fds ++ [file]

/-- `open`: the new descriptor and the table after it. -/
def openFd (file : α) : ℕ × Fds α := (fds.free, fds.put fds.free (some file))

def close (fd : ℕ) : Fds α := fds.set fd none

/-- `dup2(oldfd, newfd)`, where `newfd` is in the table. -/
def dup2 (oldfd newfd : ℕ) : Fds α :=
  match fds.get oldfd with
  | some file => fds.set newfd (some file)
  | none => fds

/-- `pipe(pipefds)`: the read end comes first. -/
def pipe (readEnd writeEnd : α) : (ℕ × ℕ) × Fds α :=
  let first := fds.openFd readEnd
  let second := first.2.openFd writeEnd
  ((first.1, second.1), second.2)

variable {fds}

/-! ### What is open -/

theorem lt_length_of_get {fd : ℕ} {file : α} (h : fds.get fd = some file) : fd < fds.length := by
  by_contra hge
  rw [get, List.getElem?_eq_none (by omega)] at h
  cases h

theorem free_le_length (fds : Fds α) : fds.free ≤ fds.length := List.findIdx_le_length

/-- A descriptor that is given out was not in use. -/
theorem get_free (fds : Fds α) : fds.get fds.free = none := by
  unfold get
  by_cases hlt : fds.free < fds.length
  · rw [List.getElem?_eq_getElem hlt, Option.getD_some]
    have hnone : (fds[fds.free]).isNone = true := List.findIdx_getElem (w := hlt)
    exact Option.isNone_iff_eq_none.mp hnone
  · rw [List.getElem?_eq_none (by omega)]
    rfl

/-- It is none of those that are open. -/
theorem free_ne {fd : ℕ} {file : α} (h : fds.get fd = some file) : fd ≠ fds.free := by
  rintro rfl
  rw [get_free] at h
  cases h

theorem get_set {fd : ℕ} (hlt : fd < fds.length) (file : Option α) (fd' : ℕ) :
    get (List.set fds fd file) fd' = if fd' = fd then file else fds.get fd' := by
  unfold get
  rw [List.getElem?_set]
  by_cases heq : fd = fd'
  · subst heq
    rw [if_pos rfl, if_pos hlt, if_pos rfl]
    rfl
  · rw [if_neg heq, if_neg (Ne.symm heq)]

theorem get_openFd (file : α) (fd : ℕ) :
    (fds.openFd file).2.get fd = if fd = (fds.openFd file).1 then some file else fds.get fd := by
  have hle := free_le_length fds
  unfold openFd put
  dsimp only
  split
  · next hlt => exact get_set hlt _ _
  · have hfree : fds.free = fds.length := by omega
    rw [hfree]
    unfold get
    by_cases heq : fd = fds.length
    · subst heq
      simp
    · rw [if_neg heq]
      by_cases hlt : fd < fds.length
      · rw [List.getElem?_append_left hlt]
      · have hout : (fds ++ [some file]).length ≤ fd := by
          rw [List.length_append, List.length_singleton]
          omega
        rw [List.getElem?_eq_none hout, List.getElem?_eq_none (by omega)]

theorem get_close (fd fd' : ℕ) :
    (fds.close fd).get fd' = if fd' = fd then none else fds.get fd' := by
  unfold close
  by_cases hlt : fd < fds.length
  · exact get_set hlt none fd'
  · rw [List.set_eq_of_length_le (by omega)]
    split
    · next heq =>
      rw [heq, get, List.getElem?_eq_none (by omega)]
      rfl
    · rfl

theorem get_dup2 {oldfd newfd : ℕ} {file file' : α} (hold : fds.get oldfd = some file)
    (hnew : fds.get newfd = some file') (fd : ℕ) :
    (fds.dup2 oldfd newfd).get fd = if fd = newfd then some file else fds.get fd := by
  unfold dup2
  rw [hold]
  exact get_set (lt_length_of_get hnew) _ _

/-- An open file moves from one descriptor to another that is open too. -/
theorem get_dup2_close {oldfd newfd : ℕ} {file file' : α} (hold : fds.get oldfd = some file)
    (hnew : fds.get newfd = some file') (fd : ℕ) :
    ((fds.dup2 oldfd newfd).close oldfd).get fd =
      if fd = oldfd then none else if fd = newfd then some file else fds.get fd := by
  rw [get_close, get_dup2 hold hnew]

/-- The two ends of a pipe get two descriptors that were not in use. -/
theorem get_pipe (readEnd writeEnd : α) (fd : ℕ) :
    (fds.pipe readEnd writeEnd).2.get fd =
      if fd = (fds.pipe readEnd writeEnd).1.2 then some writeEnd
      else if fd = (fds.pipe readEnd writeEnd).1.1 then some readEnd
      else fds.get fd := by
  unfold pipe
  dsimp only
  rw [get_openFd, get_openFd]

theorem pipe_ne (fds : Fds α) (readEnd writeEnd : α) :
    (fds.pipe readEnd writeEnd).1.1 ≠ (fds.pipe readEnd writeEnd).1.2 := by
  have hfirst : (fds.openFd readEnd).2.get (fds.openFd readEnd).1 = some readEnd := by
    rw [get_openFd, if_pos rfl]
  exact free_ne hfirst

/-- Neither of them is one that is open. -/
theorem ne_pipe {fd : ℕ} {file : α} (h : fds.get fd = some file) (readEnd writeEnd : α) :
    fd ≠ (fds.pipe readEnd writeEnd).1.1 ∧ fd ≠ (fds.pipe readEnd writeEnd).1.2 := by
  have hfirst : fd ≠ (fds.openFd readEnd).1 := free_ne h
  have hstill : (fds.openFd readEnd).2.get fd = some file := by
    rw [get_openFd, if_neg hfirst, h]
  exact ⟨hfirst, free_ne hstill⟩

end Fds

end ExchangeLabs
