import Mathlib.Tactic.Common

/-!
# Base64

The standard encoding of bytes as text, with padding: three bytes are four characters
of six bits each.  The decoder skips line breaks, and does not look at the bits that
the padding stands for.

## Main definitions

* `digit v`, `value c` — the character of six bits, and back.
* `encode`, `decode` — the encoding.

## Main results

* `decode_encode` — what is encoded is read back.
* `encode_ne_empty` — bytes do not vanish.
-/

namespace ExchangeLabs.Base64

def alphabet : List Char :=
  "ABCDEFGHIJKLMNOPQRSTUVWXYZabcdefghijklmnopqrstuvwxyz0123456789+/".toList

/-- The character of six bits. -/
def digit (v : ℕ) : Char := alphabet.getD v '='

def value (c : Char) : Option ℕ := alphabet.idxOf? c

theorem value_digit_fin : ∀ v : Fin 64, value (digit v) = some v.val := by
  decide +kernel

theorem value_digit {v : ℕ} (h : v < 64) : value (digit v) = some v := value_digit_fin ⟨v, h⟩

theorem digit_keeps_fin : ∀ v : Fin 64, digit v ≠ '\r' ∧ digit v ≠ '\n' ∧ digit v ≠ '=' := by
  decide +kernel

theorem digit_keeps {v : ℕ} (h : v < 64) : digit v ≠ '\r' ∧ digit v ≠ '\n' ∧ digit v ≠ '=' :=
  digit_keeps_fin ⟨v, h⟩

/-! ### Characters -/

def encodeBytes : List UInt8 → List Char
  | [] => []
  | [a] => [digit (a.toNat / 4), digit (a.toNat % 4 * 16), '=', '=']
  | [a, b] =>
    [digit (a.toNat / 4), digit (a.toNat % 4 * 16 + b.toNat / 16), digit (b.toNat % 16 * 4), '=']
  | a :: b :: c :: bytes =>
    digit (a.toNat / 4) :: digit (a.toNat % 4 * 16 + b.toNat / 16) ::
      digit (b.toNat % 16 * 4 + c.toNat / 64) :: digit (c.toNat % 64) :: encodeBytes bytes

/-- Padding ends the text. -/
def decodeChars : List Char → Option (List UInt8)
  | [] => some []
  | a :: b :: c :: d :: chars =>
    if d = '=' then
      if chars ≠ [] then none
      else if c = '=' then do
        let a ← value a
        let b ← value b
        return [.ofNat (a * 4 + b / 16)]
      else do
        let a ← value a
        let b ← value b
        let c ← value c
        return [.ofNat (a * 4 + b / 16), .ofNat (b % 16 * 16 + c / 4)]
    else do
      let a ← value a
      let b ← value b
      let c ← value c
      let d ← value d
      let bytes ← decodeChars chars
      return .ofNat (a * 4 + b / 16) :: .ofNat (b % 16 * 16 + c / 4) :: .ofNat (c % 4 * 64 + d) ::
        bytes
  | _ => none

theorem ofNat_eq {a : UInt8} {n : ℕ} (h : n = a.toNat) : UInt8.ofNat n = a := by
  rw [h, UInt8.ofNat_toNat]

theorem decodeChars_encodeBytes (bytes : List UInt8) :
    decodeChars (encodeBytes bytes) = some bytes := by
  induction bytes using encodeBytes.induct with
  | case1 => rfl
  | case2 a =>
    have ha := a.toNat_lt
    rw [encodeBytes, decodeChars, if_pos rfl, if_neg (by simp), if_pos rfl,
      value_digit (by omega), value_digit (by omega)]
    exact congrArg (fun a => some [a]) (ofNat_eq (by omega))
  | case3 a b =>
    have ha := a.toNat_lt
    have hb := b.toNat_lt
    rw [encodeBytes, decodeChars, if_pos rfl, if_neg (by simp), if_neg (digit_keeps (by omega)).2.2,
      value_digit (by omega), value_digit (by omega), value_digit (by omega)]
    exact congrArg₂ (fun a b => some [a, b]) (ofNat_eq (by omega)) (ofNat_eq (by omega))
  | case4 a b c bytes ih =>
    have ha := a.toNat_lt
    have hb := b.toNat_lt
    have hc := c.toNat_lt
    rw [encodeBytes, decodeChars, if_neg (digit_keeps (by omega)).2.2, ih, value_digit (by omega),
      value_digit (by omega), value_digit (by omega), value_digit (by omega)]
    have h₁ : UInt8.ofNat (a.toNat / 4 * 4 + (a.toNat % 4 * 16 + b.toNat / 16) / 16) = a :=
      ofNat_eq (by omega)
    have h₂ : UInt8.ofNat ((a.toNat % 4 * 16 + b.toNat / 16) % 16 * 16 +
        (b.toNat % 16 * 4 + c.toNat / 64) / 4) = b := ofNat_eq (by omega)
    have h₃ : UInt8.ofNat ((b.toNat % 16 * 4 + c.toNat / 64) % 4 * 64 + c.toNat % 64) = c :=
      ofNat_eq (by omega)
    simp only [Option.bind_eq_bind, Option.bind_some, h₁, h₂, h₃]
    rfl

/-- No line breaks are written. -/
theorem mem_encodeBytes (bytes : List UInt8) : ∀ c ∈ encodeBytes bytes, c ≠ '\r' ∧ c ≠ '\n' := by
  have hdigit : ∀ v, v < 64 → digit v ≠ '\r' ∧ digit v ≠ '\n' := fun v h =>
    ⟨(digit_keeps h).1, (digit_keeps h).2.1⟩
  have hpad : '=' ≠ '\r' ∧ '=' ≠ '\n' := by decide
  induction bytes using encodeBytes.induct with
  | case1 => simp [encodeBytes]
  | case2 a =>
    have ha := a.toNat_lt
    simp only [encodeBytes, List.forall_mem_cons]
    exact ⟨hdigit _ (by omega), hdigit _ (by omega), hpad, hpad, by simp⟩
  | case3 a b =>
    have ha := a.toNat_lt
    have hb := b.toNat_lt
    simp only [encodeBytes, List.forall_mem_cons]
    exact ⟨hdigit _ (by omega), hdigit _ (by omega), hdigit _ (by omega), hpad, by simp⟩
  | case4 a b c bytes ih =>
    have ha := a.toNat_lt
    have hb := b.toNat_lt
    have hc := c.toNat_lt
    simp only [encodeBytes, List.forall_mem_cons]
    exact ⟨hdigit _ (by omega), hdigit _ (by omega), hdigit _ (by omega), hdigit _ (by omega), ih⟩

/-! ### Text -/

def encode (bytes : List UInt8) : String := String.ofList (encodeBytes bytes)

def decode (text : String) : Option (List UInt8) :=
  decodeChars (text.toList.filter fun c => c ≠ '\r' ∧ c ≠ '\n')

/-- **What is encoded is read back.** -/
theorem decode_encode (bytes : List UInt8) : decode (encode bytes) = some bytes := by
  have hfilter : (encodeBytes bytes).filter (fun c => c ≠ '\r' ∧ c ≠ '\n') = encodeBytes bytes :=
    List.filter_eq_self.mpr fun c hc => decide_eq_true (mem_encodeBytes bytes c hc)
  unfold decode encode
  rw [String.toList_ofList, hfilter]
  exact decodeChars_encodeBytes bytes

theorem encode_ne_empty {bytes : List UInt8} (h : bytes ≠ []) : encode bytes ≠ "" := by
  intro hempty
  have hdecode := decode_encode bytes
  rw [hempty] at hdecode
  cases hdecode
  exact h rfl

end ExchangeLabs.Base64
