import ExchangeLabs.Lib.Buffer
import ExchangeLabs.Lib.Text
import Mathlib.Data.Nat.Digits.Defs
import Mathlib.Tactic.NormNum

/-!
# Printing of integers

`int_to_str` of the two labs on the real-time kernel, which have a copy each.  It writes
the digits of a number to the buffer of the caller, the last one first, and the sign, and
then turns the string round.

The sign is taken off by a negation, which leaves the least `int` as it is.

## Main definitions

* `Lab1.intToStr`, `Lab2.intToStr` — the two copies.
* `atoi`, `cString` — what the string is read back with.
* `Prints n out` — the buffer has the decimal numeral of `n`.

## Main results

* `lab1_intToStr_eq_lab2_intToStr` — the copies do the same.
* `intToStr_eq` — what is in the buffer afterwards, and how much room that takes.
* `prints_iff` — this is the numeral of every number but the least one.
-/

namespace ExchangeLabs.Realtime

open Buffer

/-! ### The copies -/

/-- The character that ends a string. -/
def nul : Char := Char.ofNat 0

/-- `(n % 10) + '0'`, which is between 39 and 57. -/
def digitOf (n : Int32) : Char := Char.ofNat (n % 10 + 48).toInt.toNat

/-- The loop `while (n != 0)` with the index `i`.  It writes one cell in each turn, so that
there are no more turns than cells. -/
def digitLoop : ℕ → Int32 → ℕ → List Char → Option (ℕ × List Char)
  | 0, n, i, str => if n ≠ 0 then none else some (i, str)
  | turns + 1, n, i, str =>
    if n ≠ 0 then do
      let str ← put str i (digitOf n)
      digitLoop turns (n / 10) (i + 1) str
    else some (i, str)

namespace Lab1

/-- `int_to_str` -/
def intToStr (n : Int32) (str : List Char) : Option (List Char) :=
  if n = 0 then do
    let str ← put str 0 '0'
    put str 1 nul
  else do
    let isNegative : Bool := n < 0
    let n := if isNegative then -n else n
    let (i, str) ← digitLoop str.length n 0 str
    let (i, str) ← if isNegative then (put str i '-').map fun str => (i + 1, str) else some (i, str)
    let str ← put str i nul
    reverseFront str i

end Lab1

namespace Lab2

/-- `int_to_str`, which goes on after it has written a zero -/
def intToStr (n : Int32) (str : List Char) : Option (List Char) := do
  let (i, str) ←
    if n = 0 then do
      let str ← put str 0 '0'
      let str ← put str 1 nul
      some (1, str)
    else some (0, str)
  let isNegative : Bool := n < 0
  let n := if isNegative then -n else n
  let (i, str) ← digitLoop str.length n i str
  let (i, str) ← if isNegative then (put str i '-').map fun str => (i + 1, str) else some (i, str)
  let str ← put str i nul
  reverseFront str i

end Lab2

/-- **The copies do the same.** -/
theorem lab1_intToStr_eq_lab2_intToStr (n : Int32) (str : List Char) :
    Lab1.intToStr n str = Lab2.intToStr n str := by
  unfold Lab1.intToStr Lab2.intToStr
  by_cases hn : n = 0
  · subst hn
    match str with
    | [] => rfl
    | [_] => rfl
    | _ :: _ :: rest => rfl
  · rw [if_neg hn, if_neg hn]
    rfl

/-! ### The digits -/

/-- The characters that stand for the digits of a number, the last one first and none for `0`;
below `'0'` for one that is negative. -/
def charsUp (sign : ℤ) (m : ℕ) : List Char :=
  (Nat.digits 10 m).map fun d : ℕ => Char.ofNat (sign * d + 48).toNat

@[simp] theorem charsUp_zero (sign : ℤ) : charsUp sign 0 = [] := by simp [charsUp]

theorem charsUp_of_pos (sign : ℤ) {m : ℕ} (h : m ≠ 0) :
    charsUp sign m = Char.ofNat (sign * (m % 10 : ℕ) + 48).toNat :: charsUp sign (m / 10) := by
  unfold charsUp
  rw [Nat.digits_def' (by omega) (Nat.pos_of_ne_zero h)]
  rfl

theorem reverse_charsUp {m : ℕ} (h : m ≠ 0) : (charsUp 1 m).reverse = Nat.toDigits 10 m := by
  induction m using Nat.strongRecOn with
  | ind m ih =>
    have hdigit : Char.ofNat (1 * ((m % 10 : ℕ) : ℤ) + 48).toNat = (m % 10).digitChar := by
      have hlt : m % 10 < 10 := Nat.mod_lt _ (by omega)
      interval_cases m % 10 <;> rfl
    rw [charsUp_of_pos 1 h, hdigit, List.reverse_cons, Nat.toDigits_eq_if (by omega)]
    by_cases hlt : m < 10
    · rw [if_pos hlt, Nat.div_eq_of_lt hlt, Nat.mod_eq_of_lt hlt]
      simp
    · rw [if_neg hlt, ih (m / 10) (by omega) (by omega)]

section Loop

variable {sign : ℤ} (hsign : sign = 1 ∨ sign = -1) {n : Int32} {m : ℕ} (hn : n.toInt = sign * m)
include hsign hn

theorem eq_zero_iff : n = 0 ↔ m = 0 := by
  rw [← Int32.toInt_inj, hn]
  show sign * m = 0 ↔ m = 0
  rcases hsign with rfl | rfl <;> omega

theorem toInt_mod_ten : (n % 10).toInt = sign * (m % 10 : ℕ) := by
  rw [Int32.toInt_mod, hn]
  show (sign * (m : ℤ)).tmod 10 = _
  rcases hsign with rfl | rfl
  · rw [Int.one_mul, Int.one_mul]
    rfl
  · rw [Int.neg_one_mul, Int.neg_one_mul, Int.neg_tmod]
    rfl

theorem toInt_div_ten : (n / 10).toInt = sign * (m / 10 : ℕ) := by
  rw [Int32.toInt_div_of_ne_right _ _ (by decide), hn]
  show (sign * (m : ℤ)).tdiv 10 = _
  rcases hsign with rfl | rfl
  · rw [Int.one_mul, Int.one_mul]
    rfl
  · rw [Int.neg_one_mul, Int.neg_one_mul, Int.neg_tdiv]
    rfl

theorem digitOf_eq : digitOf n = Char.ofNat (sign * (m % 10 : ℕ) + 48).toNat := by
  have hlt : m % 10 < 10 := Nat.mod_lt _ (by omega)
  unfold digitOf
  rw [Int32.toInt_add, toInt_mod_ten hsign hn]
  show Char.ofNat ((sign * (m % 10 : ℕ) + 48).bmod (2 ^ 32)).toNat = _
  rw [Int.bmod_eq_of_le] <;> rcases hsign with rfl | rfl <;> omega

end Loop

/-- **The loop writes the digits** behind what has been written, if there is room. -/
theorem digitLoop_eq {sign : ℤ} (hsign : sign = 1 ∨ sign = -1) (turns : ℕ) :
    ∀ (n : Int32) (m : ℕ) (front rest : List Char), n.toInt = sign * m → rest.length ≤ turns →
      digitLoop turns n front.length (front ++ rest) =
        if (charsUp sign m).length ≤ rest.length then
          some (front.length + (charsUp sign m).length,
            front ++ (charsUp sign m ++ rest.drop (charsUp sign m).length))
        else none := by
  induction turns with
  | zero =>
    intro n m front rest hn hturns
    unfold digitLoop
    by_cases hm : m = 0
    · subst hm
      rw [if_neg (not_not.mpr ((eq_zero_iff hsign hn).mpr rfl))]
      simp
    · rw [if_pos (mt (eq_zero_iff hsign hn).mp hm), if_neg]
      rw [charsUp_of_pos sign hm, List.length_cons]
      omega
  | succ turns ih =>
    intro n m front rest hn hturns
    unfold digitLoop
    by_cases hm : m = 0
    · subst hm
      rw [if_neg (not_not.mpr ((eq_zero_iff hsign hn).mpr rfl))]
      simp
    rw [if_pos (mt (eq_zero_iff hsign hn).mp hm), charsUp_of_pos sign hm, digitOf_eq hsign hn]
    generalize Char.ofNat (sign * (m % 10 : ℕ) + 48).toNat = c
    -- the buffer is full, or has a cell for the digit
    cases rest with
    | nil =>
      rw [List.append_nil, put_of_length_le (Nat.le_refl _), if_neg (by simp)]
      rfl
    | cons d rest =>
      have hnext := ih (n / 10) (m / 10) (front ++ [c]) rest (toInt_div_ten hsign hn)
        (by simpa using hturns)
      rw [put_append, Option.bind_eq_bind, Option.bind_some]
      rw [List.length_append, List.append_assoc] at hnext
      simp only [List.length_singleton, List.singleton_append] at hnext
      rw [hnext]
      simp only [List.length_cons, Nat.add_le_add_iff_right, List.drop_succ_cons]
      split
      · rw [List.append_assoc, Nat.add_assoc, Nat.add_comm 1]
        rfl
      · rfl

/-! ### The string -/

/-- What the negation makes of the sign: it is left only where there is no negative number. -/
def signOf (n : Int32) : ℤ := if n = Int32.minValue then -1 else 1

/-- The string that is written. -/
def textOf (n : Int32) : List Char :=
  if n = 0 then ['0']
  else (charsUp (signOf n) n.toInt.natAbs ++ if n < 0 then ['-'] else []).reverse

theorem signOf_cases (n : Int32) : signOf n = 1 ∨ signOf n = -1 := by
  unfold signOf
  split
  · exact .inr rfl
  · exact .inl rfl

theorem toInt_unsigned (n : Int32) :
    (if n < 0 then -n else n).toInt = signOf n * n.toInt.natAbs := by
  unfold signOf
  by_cases hmin : n = Int32.minValue
  · subst hmin
    decide
  rw [if_neg hmin, Int.one_mul]
  by_cases hneg : n < 0
  · have hlt : n.toInt < 0 := Int32.lt_iff_toInt_lt.mp hneg
    have hge : -2 ^ 31 < n.toInt := by
      refine lt_of_le_of_ne n.le_toInt fun heq => hmin (Int32.toInt_inj.mp ?_)
      rw [Int32.toInt_minValue, heq]
    rw [if_pos hneg, Int32.toInt_neg, Int.bmod_eq_of_le (by omega) (by omega)]
    omega
  · have hge : ¬ n.toInt < 0 := fun hlt => hneg (Int32.lt_iff_toInt_lt.mpr hlt)
    rw [if_neg hneg]
    omega

theorem if_drop_eq_nil {str : List Char} {k : ℕ} (out : Option (List Char)) :
    (if str.drop k = [] then none else out) = if k < str.length then out else none := by
  by_cases hlt : k < str.length
  · rw [if_pos hlt, if_neg (by rw [List.drop_eq_nil_iff]; omega)]
  · rw [if_neg hlt, if_pos (by rw [List.drop_eq_nil_iff]; omega)]

/-- The end of the string is written, and the string is turned round. -/
theorem terminate_eq (up rest : List Char) :
    ((put (up ++ rest) up.length nul).bind fun str => reverseFront str up.length) =
      if rest = [] then none else some (up.reverse ++ nul :: rest.drop 1) := by
  rw [put_end]
  by_cases hrest : rest = []
  · rw [if_pos hrest, if_pos hrest]
    rfl
  · rw [if_neg hrest, if_neg hrest, Option.bind_some, List.append_assoc, reverseFront_append]
    rfl

/-- **What `int_to_str` leaves in the buffer**: the string, the end of it and the cells behind
that.  A buffer that does not hold these is overrun. -/
theorem intToStr_eq (n : Int32) (str : List Char) :
    Lab1.intToStr n str =
      if (textOf n).length < str.length then
        some (textOf n ++ nul :: str.drop ((textOf n).length + 1))
      else none := by
  unfold Lab1.intToStr textOf
  by_cases hn : n = 0
  · subst hn
    rw [if_pos rfl]
    match str with
    | [] => rfl
    | [_] => rfl
    | _ :: _ :: rest => rfl
  rw [if_neg hn, if_neg hn, List.length_reverse]
  have hloop := digitLoop_eq (signOf_cases n) str.length _ _ [] str (toInt_unsigned n)
    (Nat.le_refl _)
  rw [List.nil_append, List.nil_append, List.length_nil, Nat.zero_add] at hloop
  generalize charsUp (signOf n) n.toInt.natAbs = digits at *
  simp only [decide_eq_true_eq, hloop]
  -- the digits fit, and then the sign may not
  by_cases hdigits : digits.length ≤ str.length
  · rw [if_pos hdigits]
    simp only [Option.bind_eq_bind, Option.bind_some]
    by_cases hneg : n < 0
    · simp only [hneg, if_true, put_end]
      by_cases hfull : str.drop digits.length = []
      · -- there is no room for the sign
        rw [if_pos hfull, if_neg]
        · rfl
        · rw [List.drop_eq_nil_iff] at hfull
          rw [List.length_append]
          omega
      · rw [if_neg hfull]
        simp only [Option.map_some, Option.bind_some]
        have hend := terminate_eq (digits ++ ['-']) (str.drop (digits.length + 1))
        rw [List.length_append, List.length_singleton] at hend
        rw [List.drop_drop, hend, List.length_append, List.length_singleton, List.drop_drop]
        exact if_drop_eq_nil _
    · simp only [hneg, if_false, List.append_nil]
      rw [terminate_eq, List.drop_drop]
      exact if_drop_eq_nil _
  · rw [if_neg hdigits, if_neg]
    · rfl
    · rw [List.length_append]
      omega

/-- The string is the numeral, unless the number is the least one. -/
theorem textOf_eq_printInt {n : Int32} (hmin : n ≠ Int32.minValue) :
    textOf n = printInt n.toInt := by
  unfold textOf
  by_cases hn : n = 0
  · subst hn
    rfl
  have hpos : n.toInt.natAbs ≠ 0 :=
    fun hzero => hn (Int32.toInt_inj.mp (Int.natAbs_eq_zero.mp hzero))
  have hneg : n < 0 ↔ n.toInt < 0 := Int32.lt_iff_toInt_lt
  rw [if_neg hn, signOf, if_neg hmin, List.reverse_append, reverse_charsUp hpos]
  cases hint : n.toInt with
  | ofNat m =>
    rw [if_neg (by rw [hneg, hint]; exact not_lt.mpr (Int.natCast_nonneg m))]
    rfl
  | negSucc m =>
    rw [if_pos (by rw [hneg, hint]; exact Int.negSucc_lt_zero m)]
    rfl

/-- The least number has no negative, and all its digits are taken off `'0'`. -/
theorem textOf_minValue : textOf Int32.minValue = "-./,),(-*,(".toList := by
  have hnatAbs : Int32.minValue.toInt.natAbs = 2147483648 := by decide
  unfold textOf signOf charsUp
  rw [hnatAbs, if_neg (by decide), if_pos rfl, if_pos (by decide)]
  norm_num
  decide

/-! ### What is read back -/

/-- The string in a buffer, up to the end of it. -/
def cString (str : List Char) : List Char := str.takeWhile fun c => c ≠ nul

/-- `atoi`: the number at the front, `0` if there is none. -/
def atoi (text : List Char) : ℤ := ((scanInt text).map fun i => i.1).getD 0

/-- The buffer has the decimal numeral of `n`, which reads as `n`. -/
structure Prints (n : Int32) (out : List Char) : Prop where
  terminated : nul ∈ out
  numeral : cString out = printInt n.toInt
  sign : (cString out).head? = some '-' ↔ n < 0
  leading : n ≠ 0 → ((cString out).dropWhile fun c => c = '-').head? ≠ some '0'
  back : atoi (cString out) = n.toInt

theorem cString_append {text : List Char} (h : nul ∉ text) (rest : List Char) :
    cString (text ++ nul :: rest) = text := by
  have htext : ∀ c ∈ text, decide (c ≠ nul) = true :=
    fun c hc => decide_eq_true fun heq => h (heq ▸ hc)
  exact (span_append htext (by simp)).1

theorem nul_notMem_printInt (i : ℤ) : nul ∉ printInt i := by
  intro hnul
  rcases mem_printInt hnul with h | h <;> cases h

theorem dropWhile_printInt {i : ℤ} :
    (printInt i).dropWhile (fun c => c = '-') = Nat.toDigits 10 i.natAbs := by
  have hdigits (n : ℕ) : (Nat.toDigits 10 n).dropWhile (fun c => c = '-') = Nat.toDigits 10 n := by
    cases heq : Nat.toDigits 10 n with
    | nil => rfl
    | cons d digits =>
      have hd : d.isDigit = true :=
        Nat.isDigit_of_mem_toDigits (by omega) (by omega) (heq ▸ List.mem_cons_self ..)
      rw [List.dropWhile_cons, if_neg]
      rw [decide_eq_true_eq]
      exact (digit_ne hd).2.1
  cases i with
  | ofNat n => exact hdigits n
  | negSucc n => exact hdigits (n + 1)

theorem prints_printInt (n : Int32) (rest : List Char) :
    Prints n (printInt n.toInt ++ nul :: rest) := by
  have hstring := cString_append (nul_notMem_printInt n.toInt) rest
  refine ⟨by simp, hstring, ?_, fun hn => ?_, ?_⟩
  · rw [hstring, head?_printInt]
    exact (Int32.lt_iff_toInt_lt (x := n) (y := 0)).symm
  · rw [hstring, dropWhile_printInt]
    refine head?_toDigits_ne fun hzero => hn (Int32.toInt_inj.mp ?_)
    exact Int.natAbs_eq_zero.mp hzero
  · have hscan : scanInt (printInt n.toInt ++ []) = some (n.toInt, []) :=
      scanInt_printInt n.toInt (by simp)
    rw [List.append_nil] at hscan
    rw [hstring, atoi, hscan]
    rfl

/-- **A number is printed and read back**, in a buffer of 12 cells, unless it is the least one. -/
theorem prints_iff {str : List Char} (hsize : str.length = 12) (n : Int32) :
    (∃ out, Lab1.intToStr n str = some out ∧ Lab2.intToStr n str = some out ∧ out.length = 12 ∧
      Prints n out) ↔ n ≠ Int32.minValue := by
  have heq := intToStr_eq n str
  constructor
  · rintro ⟨out, hout, -, -, hprints⟩ rfl
    rw [textOf_minValue, if_pos (by rw [hsize]; decide), hout] at heq
    have hnumeral := hprints.numeral
    rw [Option.some.inj heq, cString_append (by decide)] at hnumeral
    exact absurd hnumeral (by decide)
  · intro hmin
    have hlength : (printInt n.toInt).length ≤ 11 := by
      refine length_printInt_le (k := 10) (by omega) ?_
      have := n.le_toInt
      have := n.toInt_lt
      omega
    rw [textOf_eq_printInt hmin, if_pos (by omega)] at heq
    refine ⟨_, heq, (lab1_intToStr_eq_lab2_intToStr n str).symm.trans heq, ?_, prints_printInt n _⟩
    rw [List.length_append, List.length_cons, List.length_drop]
    omega

theorem prints_iff_negative :
    ∃ out, Lab1.intToStr (-305) (List.replicate 12 nul) = some out ∧
      Lab2.intToStr (-305) (List.replicate 12 nul) = some out ∧ out.length = 12 ∧
        Prints (-305) out :=
  (prints_iff (List.length_replicate ..) (-305)).mpr (by decide)

/-- The least number is printed without a digit, and read back as zero. -/
theorem not_prints_minValue : ∃ out,
    Lab1.intToStr Int32.minValue (List.replicate 12 nul) = some out ∧
      Lab2.intToStr Int32.minValue (List.replicate 12 nul) = some out ∧
      cString out = "-./,),(-*,(".toList ∧ atoi (cString out) = 0 ∧
      ¬ Prints Int32.minValue out := by
  refine ⟨"-./,),(-*,(".toList ++ [nul], by decide, by decide, by decide, by decide, fun h => ?_⟩
  exact absurd h.numeral (by decide)

/-- `reader` of the second lab has a buffer of 3 cells for a key of up to 3 characters, which the
end of the string is behind. -/
theorem intToStr_inputKey {str : List Char} (hsize : str.length = 3) (n : Int32) :
    (Lab2.intToStr n str).isSome ↔ (textOf n).length ≤ 2 := by
  rw [← lab1_intToStr_eq_lab2_intToStr, intToStr_eq, hsize]
  split
  · next hlt => exact iff_of_true rfl (by omega)
  · next hge => exact iff_of_false (by simp) (by omega)

end ExchangeLabs.Realtime
