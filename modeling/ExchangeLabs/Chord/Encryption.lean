import ExchangeLabs.Lib.Base64

/-!
# Encrypted files

`security.go` of the Chord lab.  Files are encrypted before they are stored: the value
in a bucket is the nonce and the ciphertext in base64.

AES-GCM is a parameter, of which the code needs that it opens what it has sealed.

## Main definitions

* `Aead` — AES-GCM with the key of the lab.
* `Aead.encrypt`, `Aead.decrypt` — what is stored, and back.
* `Aead.ofStream` — a cipher from a key stream and a tag, as AES-GCM is one.

## Main results

* `Aead.decrypt_encrypt` — what is encrypted is decrypted.
* `Aead.encrypt_ne_empty` — the stored value is never the one that stands for a miss.
-/

namespace ExchangeLabs.Chord

/-- `gcm.NonceSize()`. -/
def nonceSize : ℕ := 12

/-- A `cipher.AEAD` under one key, without additional data. -/
structure Aead where
  sealBytes (nonce plaintext : List UInt8) : List UInt8
  /-- It fails where the ciphertext has not been sealed under the key. -/
  openBytes (nonce ciphertext : List UInt8) : Option (List UInt8)
  open_seal : ∀ nonce plaintext, openBytes nonce (sealBytes nonce plaintext) = some plaintext

namespace Aead

variable (aead : Aead)

def encrypt (nonce : Vector UInt8 nonceSize) (plaintext : List UInt8) : String :=
  Base64.encode (nonce.toList ++ aead.sealBytes nonce.toList plaintext)

def decrypt (cipherstring : String) : Option (List UInt8) :=
  match Base64.decode cipherstring with
  | none => none
  | some ciphertext =>
    if ciphertext.length < nonceSize then none
    else aead.openBytes (ciphertext.take nonceSize) (ciphertext.drop nonceSize)

theorem decrypt_encrypt (nonce : Vector UInt8 nonceSize) (plaintext : List UInt8) :
    aead.decrypt (aead.encrypt nonce plaintext) = some plaintext := by
  have hlength : nonce.toList.length = nonceSize := nonce.length_toList
  unfold decrypt encrypt
  rw [Base64.decode_encode]
  dsimp only
  rw [if_neg (by rw [List.length_append]; omega), List.take_left' hlength, List.drop_left' hlength]
  exact aead.open_seal _ _

theorem encrypt_ne_empty (nonce : Vector UInt8 nonceSize) (plaintext : List UInt8) :
    aead.encrypt nonce plaintext ≠ "" := by
  have hlength : nonce.toList.length = nonceSize := nonce.length_toList
  refine Base64.encode_ne_empty fun hempty => ?_
  rw [(List.append_eq_nil_iff.mp hempty).1] at hlength
  cases hlength

end Aead

/-! ### Key streams -/

/-- Every byte is combined with the one of the key stream at its place. -/
def xorStream (keystream : ℕ → UInt8) (bytes : List UInt8) : List UInt8 :=
  bytes.mapIdx fun i b => b ^^^ keystream i

theorem xorStream_xorStream (keystream : ℕ → UInt8) (bytes : List UInt8) :
    xorStream keystream (xorStream keystream bytes) = bytes := by
  unfold xorStream
  rw [List.mapIdx_mapIdx]
  refine List.ext_getElem? fun i => ?_
  rw [List.getElem?_mapIdx]
  cases bytes[i]? with
  | none => rfl
  | some b =>
    show some (b ^^^ keystream i ^^^ keystream i) = some b
    rw [UInt8.xor_assoc, UInt8.xor_self, UInt8.xor_zero]

/-- The plaintext under a key stream, and a tag of the nonce and the ciphertext. -/
def Aead.ofStream (keystream : List UInt8 → ℕ → UInt8)
    (tag : List UInt8 → List UInt8 → Vector UInt8 16) : Aead where
  sealBytes nonce plaintext :=
    let ciphertext := xorStream (keystream nonce) plaintext
    ciphertext ++ (tag nonce ciphertext).toList
  openBytes nonce sealed :=
    let ciphertext := sealed.take (sealed.length - 16)
    if sealed.drop (sealed.length - 16) = (tag nonce ciphertext).toList then
      some (xorStream (keystream nonce) ciphertext)
    else none
  open_seal nonce plaintext := by
    have hlength (ciphertext : List UInt8) :
        (ciphertext ++ (tag nonce ciphertext).toList).length - 16 = ciphertext.length := by
      rw [List.length_append, Vector.length_toList, Nat.add_sub_cancel]
    dsimp only
    rw [hlength, List.take_left, List.drop_left, if_pos rfl, xorStream_xorStream]

/-- A nonce. -/
def helloNonce : Vector UInt8 nonceSize := #v[1, 2, 3, 4, 5, 6, 7, 8, 9, 10, 11, 12]

/-- The bytes of `hello`. -/
def helloData : List UInt8 := [104, 101, 108, 108, 111]

/-- A cipher that encrypts `hello` under this nonce as AES-GCM does with the key of the lab. -/
def helloAead : Aead :=
  .ofStream
    (fun nonce i => if nonce = helloNonce.toList then [129, 210, 177, 166, 108].getD i 0 else 0)
    fun nonce ciphertext =>
      if nonce = helloNonce.toList ∧ ciphertext = [233, 183, 221, 202, 3] then
        #v[227, 12, 115, 226, 196, 41, 156, 88, 30, 186, 92, 90, 91, 167, 22, 7]
      else Vector.replicate 16 0

example : helloAead.encrypt helloNonce helloData =
  "AQIDBAUGBwgJCgsM6bfdygPjDHPixCmcWB66XFpbpxYH" := by
  decide +kernel

end ExchangeLabs.Chord
