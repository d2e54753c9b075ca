import Mathlib.Data.List.Basic
import Mathlib.Data.Set.Basic
import Mathlib.Tactic.Common

/-!
# Several writers of one text

A file to which several programs write the same text, each from its own offset on.  A
program that opens the file anew empties it for the others, too, which then write behind a
hole.  No harm is done: what a hole lacks is still to be written by the program that has
emptied the file.

## Main definitions

* `writeAt hole off piece content` — a write at an offset, behind a hole if need be.
* `Mends text offsets content` — every cell is right, or a writer has not yet passed it.

## Main results

* `mends_nil`, `Mends.writeAt`, `Mends.mono` — the writers keep to it.
* `Mends.eq` — **when all writers are through, the text is there.**
-/

namespace ExchangeLabs.Overwrite

variable {α : Type*} {hole : α} {text piece rest content : List α} {off : ℕ} {offsets : Set ℕ}

/-- `piece` is written at the offset `off`; a file that is too short gets a hole. -/
def writeAt (hole : α) (off : ℕ) (piece content : List α) : List α :=
  content.take off ++ List.replicate (off - content.length) hole ++ piece ++
    content.drop (off + piece.length)

theorem length_before (hole : α) (off : ℕ) (content : List α) :
    (content.take off ++ List.replicate (off - content.length) hole).length = off := by
  simp only [List.length_append, List.length_take, List.length_replicate]
  omega

theorem length_writeAt (hole : α) (off : ℕ) (piece content : List α) :
    (writeAt hole off piece content).length = max content.length (off + piece.length) := by
  rw [writeAt, List.length_append, List.length_append, length_before, List.length_drop]
  omega

/-- Before the write nothing is changed, as far as there was anything. -/
theorem getElem?_writeAt_of_lt {k : ℕ} (hk : k < off) (hlt : k < content.length) :
    (writeAt hole off piece content)[k]? = content[k]? := by
  have htake : k < (content.take off).length := by
    rw [List.length_take]
    omega
  rw [writeAt, List.append_assoc, List.append_assoc, List.getElem?_append_left htake,
    List.getElem?_take_of_lt hk]

/-- The write itself. -/
theorem getElem?_writeAt_add {k : ℕ} (hk : k < piece.length) :
    (writeAt hole off piece content)[off + k]? = piece[k]? := by
  have hlength := length_before hole off content
  have hle : (content.take off ++ List.replicate (off - content.length) hole).length ≤ off + k := by
    omega
  rw [writeAt, List.append_assoc, List.getElem?_append_right hle, hlength, Nat.add_sub_cancel_left,
    List.getElem?_append_left hk]

/-- Every cell is as in `text`, or there is a writer that has not passed it; `offsets` are
the places where the writers are. -/
structure Mends (text : List α) (offsets : Set ℕ) (content : List α) : Prop where
  length : content.length ≤ text.length
  cell : ∀ k < text.length, content[k]? = text[k]? ∨ ∃ o ∈ offsets, o ≤ k

/-- A file that has just been emptied. -/
theorem mends_nil (h : 0 ∈ offsets) : Mends text offsets [] where
  length := Nat.zero_le _
  cell := fun k _ => .inr ⟨0, h, Nat.zero_le k⟩

/-- A writer goes on with the text from its place on; the others stay. -/
theorem Mends.writeAt (h : Mends text offsets content) (hoff : off ≤ text.length)
    (htext : text.drop off = piece ++ rest) {offsets' : Set ℕ}
    (hothers : ∀ o ∈ offsets, o = off ∨ o ∈ offsets') (hself : off + piece.length ∈ offsets') :
    Mends text offsets' (writeAt hole off piece content) := by
  have hlength : piece.length ≤ text.length - off := by
    have := congrArg List.length htext
    rw [List.length_drop, List.length_append] at this
    omega
  constructor
  · rw [length_writeAt]
    have := h.length
    omega
  · intro k hk
    by_cases hle : off + piece.length ≤ k
    · exact .inr ⟨_, hself, hle⟩
    by_cases hlt : k < off
    · rcases h.cell k hk with hcell | ⟨o, ho, hok⟩
      · have hlt' : k < content.length := by
          rw [List.getElem?_eq_getElem hk] at hcell
          exact (List.getElem?_eq_some_iff.mp hcell).1
        left
        rw [getElem?_writeAt_of_lt hlt hlt', hcell]
      · rcases hothers o ho with rfl | ho'
        · omega
        · exact .inr ⟨o, ho', hok⟩
    · left
      obtain ⟨i, rfl⟩ : ∃ i, k = off + i := ⟨k - off, by omega⟩
      have hi : i < piece.length := by omega
      rw [getElem?_writeAt_add hi, ← List.getElem?_drop, htext, List.getElem?_append_left hi]

/-- Writers may come, and those that are through may go. -/
theorem Mends.mono (h : Mends text offsets content) {offsets' : Set ℕ}
    (hsub : ∀ o ∈ offsets, o ∈ offsets' ∨ text.length ≤ o) : Mends text offsets' content where
  length := h.length
  cell := by
    intro k hk
    rcases h.cell k hk with hcell | ⟨o, ho, hok⟩
    · exact .inl hcell
    · rcases hsub o ho with ho' | hlength
      · exact .inr ⟨o, ho', hok⟩
      · omega

/-- **When all writers are through, the text is there.** -/
theorem Mends.eq (h : Mends text offsets content) (hthrough : ∀ o ∈ offsets, text.length ≤ o) :
    content = text := by
  have hcell : ∀ k < text.length, content[k]? = text[k]? := by
    intro k hk
    rcases h.cell k hk with hcell | ⟨o, ho, hok⟩
    · exact hcell
    · have := hthrough o ho
      omega
  refine List.ext_getElem? fun k => ?_
  by_cases hk : k < text.length
  · exact hcell k hk
  · have := h.length
    rw [List.getElem?_eq_none (by omega), List.getElem?_eq_none (by omega)]

end ExchangeLabs.Overwrite
