import Mathlib.Algebra.Group.Int.Defs
import Mathlib.Tactic.Common
import Mathlib.Tactic.IntervalCases

/-!
# Lines, fields and numbers

Text as lists of characters: reading it line by line into a buffer of bounded size, and
the conversions of `printf` and `scanf` for decimal numbers and for fields that end at a
separator.  Numbers are not bounded.

## Main definitions

* `lines size text line` — what `fgets` returns, call by call.
* `printInt`, `scanInt` — the conversion `%d`.
* `scanUntil c` — the conversion `%[^c]`.

## Main results

* `lines_flatten` — lines that fit the buffer are read back.
* `scanInt_printInt`, `scanUntil_append` — so are numbers and fields.
* `of_mem_splitOnP` — what is in a run between separators.
-/

namespace ExchangeLabs

/-! ### Lines -/

/-- What `fgets` returns, call by call, with a buffer of this size; `line` has been read so far. -/
def lines (size : ℕ) : List Char → List Char → List (List Char)
  | [], line => if line = [] then [] else [line]
  | c :: text, line =>
    if c = '\n' ∨ line.length + 2 = size then (line ++ [c]) :: lines size text []
    else lines size text (line ++ [c])

/-- A line is read to its end if it fits the buffer. -/
theorem lines_line {size : ℕ} {line : List Char} (hnewline : '\n' ∉ line) (text : List Char) :
    ∀ front : List Char, front.length + line.length + 2 ≤ size →
      lines size (line ++ '\n' :: text) front =
        (front ++ line ++ ['\n']) :: lines size text [] := by
  induction line with
  | nil =>
    intro front _
    rw [List.nil_append, lines, if_pos (.inl rfl), List.append_nil]
  | cons c line ih =>
    intro front hsize
    obtain ⟨hc, hline⟩ := not_or.mp (mt List.mem_cons.mpr hnewline)
    rw [List.length_cons] at hsize
    rw [List.cons_append, lines, if_neg (not_or.mpr ⟨Ne.symm hc, by omega⟩),
      ih hline (front ++ [c]) (by rw [List.length_append, List.length_singleton]; omega)]
    simp

/-- **Lines that fit the buffer are read back.** -/
theorem lines_flatten {size : ℕ} {texts : List (List Char)}
    (h : ∀ text ∈ texts, ∃ line, text = line ++ ['\n'] ∧ '\n' ∉ line ∧ text.length < size) :
    lines size texts.flatten [] = texts := by
  induction texts with
  | nil => rfl
  | cons text texts ih =>
    obtain ⟨⟨line, rfl, hnewline, hsize⟩, htexts⟩ := List.forall_mem_cons.mp h
    rw [List.length_append, List.length_singleton] at hsize
    rw [List.flatten_cons, List.append_assoc, List.singleton_append,
      lines_line hnewline _ [] (by rw [List.length_nil]; omega), ih htexts]
    rfl

/-! ### Fields -/

/-- The longest front that passes a test ends where an element does not. -/
theorem span_append {p : Char → Bool} {front rest : List Char} (hfront : ∀ c ∈ front, p c = true)
    (hrest : ∀ c ∈ rest.head?, p c = false) :
    (front ++ rest).takeWhile p = front ∧ (front ++ rest).dropWhile p = rest := by
  induction front with
  | nil =>
    cases rest with
    | nil => exact ⟨rfl, rfl⟩
    | cons c rest =>
      have hc : p c = false := hrest c rfl
      exact ⟨by simp [hc], by simp [hc]⟩
  | cons c front ih =>
    obtain ⟨hc, hfront⟩ := List.forall_mem_cons.mp hfront
    obtain ⟨htake, hdrop⟩ := ih hfront
    simp only [List.cons_append, List.takeWhile_cons, List.dropWhile_cons, hc, if_true,
      htake, hdrop]
    exact ⟨trivial, trivial⟩

/-- `%[^c]`: at least one character, up to the first `c`. -/
def scanUntil (c : Char) (text : List Char) : Option (List Char × List Char) :=
  match text.takeWhile (· ≠ c) with
  | [] => none
  | field => some (field, text.dropWhile (· ≠ c))

/-- The character itself. -/
def scanChar (c : Char) : List Char → Option (List Char)
  | d :: text => if d = c then some text else none
  | [] => none

theorem scanUntil_append {c : Char} {field : List Char} (hne : field ≠ []) (hc : c ∉ field)
    (rest : List Char) : scanUntil c (field ++ c :: rest) = some (field, c :: rest) := by
  have hfield : ∀ d ∈ field, decide (d ≠ c) = true :=
    fun d hd => decide_eq_true fun heq => hc (heq ▸ hd)
  obtain ⟨htake, hdrop⟩ := span_append hfield
    (show ∀ d ∈ (c :: rest).head?, decide (d ≠ c) = false by simp)
  unfold scanUntil
  rw [htake, hdrop]
  cases field with
  | nil => exact absurd rfl hne
  | cons d field => rfl

@[simp] theorem scanChar_cons (c : Char) (text : List Char) :
    scanChar c (c :: text) = some text := if_pos rfl

/-! ### Numbers -/

/-- `%d` of `printf`. -/
def printInt : ℤ → List Char
  | .ofNat n => Nat.toDigits 10 n
  | .negSucc n => '-' :: Nat.toDigits 10 (n + 1)

theorem length_printInt {i : ℤ} (h : 0 ≤ i) (h' : i < 10) : (printInt i).length = 1 := by
  cases i with
  | ofNat n =>
    have hlt : (n : ℤ) < 10 := h'
    rw [printInt, Nat.toDigits_of_lt_base (by omega)]
    rfl
  | negSucc n => omega

/-- A numeral is made of digits and a sign. -/
theorem mem_printInt {i : ℤ} {c : Char} (h : c ∈ printInt i) : c.isDigit = true ∨ c = '-' := by
  have hdigit {n : ℕ} (hc : c ∈ Nat.toDigits 10 n) : c.isDigit = true :=
    Nat.isDigit_of_mem_toDigits (by omega) (by omega) hc
  cases i with
  | ofNat n => exact .inl (hdigit h)
  | negSucc n =>
    rcases List.mem_cons.mp h with hsign | hc
    · exact .inr hsign
    · exact .inl (hdigit hc)

/-- There is a sign where the number is negative. -/
theorem head?_printInt (i : ℤ) : (printInt i).head? = some '-' ↔ i < 0 := by
  cases i with
  | ofNat n =>
    obtain ⟨d, digits, heq⟩ := List.exists_cons_of_ne_nil (Nat.toDigits_ne_nil (b := 10) (n := n))
    have hd : d.isDigit = true :=
      Nat.isDigit_of_mem_toDigits (by omega) (by omega) (heq ▸ List.mem_cons_self ..)
    have hpos : ¬ Int.ofNat n < 0 := Int.not_lt.mpr (Int.natCast_nonneg n)
    simp only [printInt, heq, List.head?_cons, Option.some.injEq, hpos, iff_false]
    rintro rfl
    cases hd
  | negSucc n => exact ⟨fun _ => Int.negSucc_lt_zero n, fun _ => rfl⟩

/-- No zero comes first in the digits of a number. -/
theorem head?_toDigits_ne {n : ℕ} (h : n ≠ 0) : (Nat.toDigits 10 n).head? ≠ some '0' := by
  -- on the number; its first digit is that of its tenth, or itself
  induction n using Nat.strongRecOn with
  | ind n ih =>
    rw [Nat.toDigits_eq_if (by omega)]
    by_cases hlt : n < 10
    · rw [if_pos hlt]
      interval_cases n <;> simp_all
    · have hne : (Nat.toDigits 10 (n / 10)).head? ≠ some '0' := ih _ (by omega) (by omega)
      rw [if_neg hlt, List.head?_append]
      cases heq : Nat.toDigits 10 (n / 10) with
      | nil => exact absurd heq Nat.toDigits_ne_nil
      | cons d digits =>
        rw [heq] at hne
        exact hne

theorem length_printInt_le {i : ℤ} {k : ℕ} (hk : 0 < k) (h : i.natAbs < 10 ^ k) :
    (printInt i).length ≤ k + 1 := by
  cases i with
  | ofNat n =>
    have hle := (Nat.length_toDigits_le_iff (by omega) hk).mpr h
    exact Nat.le_succ_of_le hle
  | negSucc n =>
    have hle := (Nat.length_toDigits_le_iff (by omega) hk).mpr h
    exact Nat.succ_le_succ hle

/-- The digits of a number, at least one. -/
def scanDigits (text : List Char) : Option (ℕ × List Char) :=
  match text.takeWhile Char.isDigit with
  | [] => none
  | digits => some (Nat.ofDigitChars 10 digits 0, text.dropWhile Char.isDigit)

/-- `isspace`. -/
def isSpace (c : Char) : Bool := c == ' ' || (9 ≤ c.toNat && c.toNat ≤ 13)

/-- `%d` of `scanf`: white space is skipped, and there may be a sign. -/
def scanInt (text : List Char) : Option (ℤ × List Char) :=
  match text.dropWhile isSpace with
  | '-' :: text => (scanDigits text).map fun n => (-(n.1 : ℤ), n.2)
  | '+' :: text => (scanDigits text).map fun n => ((n.1 : ℤ), n.2)
  | text => (scanDigits text).map fun n => ((n.1 : ℤ), n.2)

theorem scanDigits_toDigits (n : ℕ) {rest : List Char}
    (hrest : ∀ c ∈ rest.head?, c.isDigit = false) :
    scanDigits (Nat.toDigits 10 n ++ rest) = some (n, rest) := by
  have hdigits : ∀ c ∈ Nat.toDigits 10 n, c.isDigit = true :=
    fun c hc => Nat.isDigit_of_mem_toDigits (by omega) (by omega) hc
  obtain ⟨htake, hdrop⟩ := span_append hdigits hrest
  unfold scanDigits
  rw [htake, hdrop]
  cases heq : Nat.toDigits 10 n with
  | nil => exact absurd heq Nat.toDigits_ne_nil
  | cons d digits =>
    dsimp only
    rw [← heq, Nat.ofDigitChars_ten_toDigits]

/-- A digit is neither white space nor a sign. -/
theorem digit_ne {c : Char} (h : c.isDigit = true) : isSpace c = false ∧ c ≠ '-' ∧ c ≠ '+' := by
  have hrange : 48 ≤ c.toNat ∧ c.toNat ≤ 57 := by
    simpa [Char.isDigit, UInt32.le_iff_toNat_le] using h
  refine ⟨?_, ?_, ?_⟩
  · have hspace : c ≠ ' ' := by
      rintro rfl
      exact absurd hrange (by decide)
    simp only [isSpace, Bool.or_eq_false_iff, beq_eq_false_iff_ne, Bool.and_eq_false_iff,
      decide_eq_false_iff_not]
    exact ⟨hspace, .inr (by omega)⟩
  · rintro rfl
    exact absurd hrange (by decide)
  · rintro rfl
    exact absurd hrange (by decide)

/-- **A number is read back**, if no digit follows it. -/
theorem scanInt_printInt (i : ℤ) {rest : List Char} (hrest : ∀ c ∈ rest.head?, c.isDigit = false) :
    scanInt (printInt i ++ rest) = some (i, rest) := by
  cases i with
  | ofNat n =>
    have hscan := scanDigits_toDigits n hrest
    obtain ⟨d, digits, heq⟩ := List.exists_cons_of_ne_nil (Nat.toDigits_ne_nil (b := 10) (n := n))
    have hd : d.isDigit = true :=
      Nat.isDigit_of_mem_toDigits (by omega) (by omega) (heq ▸ List.mem_cons_self ..)
    obtain ⟨hspace, hminus, hplus⟩ := digit_ne hd
    rw [heq, List.cons_append] at hscan
    rw [printInt, heq, List.cons_append, scanInt, List.dropWhile_cons, hspace]
    simp only [Bool.false_eq_true, if_false]
    -- a numeral begins with a digit, so the pattern is the last one
    split
    · next h => exact absurd (List.cons.inj h).1 hminus
    · next h => exact absurd (List.cons.inj h).1 hplus
    · next h =>
      rw [hscan]
      rfl
  | negSucc n =>
    have hscan := scanDigits_toDigits (n + 1) hrest
    rw [printInt, List.cons_append, scanInt, List.dropWhile_cons]
    rw [show isSpace '-' = false from by decide]
    simp only [Bool.false_eq_true, if_false]
    rw [hscan]
    rfl

theorem scanInt_printInt_cons (i : ℤ) {c : Char} (h : c.isDigit = false) (rest : List Char) :
    scanInt (printInt i ++ c :: rest) = some (i, c :: rest) := by
  refine scanInt_printInt i fun d hd => ?_
  rw [← Option.mem_some_iff.mp hd]
  exact h

/-! ### Runs between separators -/

/-- What is in a run between separators is in the list, and is no separator. -/
theorem of_mem_splitOnP {α : Type*} {p : α → Bool} {a : α} {l run : List α}
    (hrun : run ∈ l.splitOnP p) (ha : a ∈ run) : a ∈ l ∧ p a = false := by
  induction l generalizing run with
  | nil =>
    rw [List.splitOnP_nil, List.mem_singleton] at hrun
    subst hrun
    cases ha
  | cons b l ih =>
    rw [List.splitOnP_cons_eq_if_modifyHead] at hrun
    -- a separator begins a new run, and any other element goes to the first one
    by_cases hb : p b = true
    · rw [if_pos hb] at hrun
      rcases List.mem_cons.mp hrun with rfl | hrun
      · cases ha
      · exact (ih hrun ha).imp_left (List.mem_cons_of_mem b)
    · rw [if_neg hb] at hrun
      obtain ⟨first, rest, hsplit⟩ := List.exists_cons_of_ne_nil (List.splitOnP_ne_nil p l)
      rw [hsplit] at hrun ih
      rcases List.mem_cons.mp hrun with rfl | hrun
      · rcases List.mem_cons.mp ha with rfl | ha
        · exact ⟨List.mem_cons_self, Bool.not_eq_true _ ▸ hb⟩
        · exact (ih List.mem_cons_self ha).imp_left (List.mem_cons_of_mem b)
      · exact (ih (List.mem_cons_of_mem first hrun) ha).imp_left (List.mem_cons_of_mem b)

end ExchangeLabs
