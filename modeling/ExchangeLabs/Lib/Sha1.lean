import Mathlib.Algebra.Group.Nat.Defs
import Mathlib.Tactic.Common

/-!
# SHA-1

The hash function, over lists of bytes.

## Main definitions

* `Sha1.pad` — a message filled up to whole blocks, with its length at the end.
* `Sha1.block` — what one block of 64 bytes does to the state.
* `Sha1.sum` — the digest, a number of 160 bits.
-/

namespace ExchangeLabs.Sha1

abbrev Word := BitVec 32

/-- The five words of the state. -/
structure State where
  a : Word
  b : Word
  c : Word
  d : Word
  e : Word
  deriving DecidableEq

def init : State where
  a := 0x67452301#32
  b := 0xEFCDAB89#32
  c := 0x98BADCFE#32
  d := 0x10325476#32
  e := 0xC3D2E1F0#32

/-- The message, a bit, zeros up to 8 bytes before the end of a block, and the
length of the message in bits. -/
def pad (message : List UInt8) : List UInt8 :=
  message ++ 0x80 :: List.replicate ((119 - message.length % 64) % 64) 0 ++
    (List.range 8).map fun i => UInt8.ofNat (8 * message.length / 256 ^ (7 - i))

/-- The bytes four at a time, the first of them on top. -/
def words : List UInt8 → List Word
  | a :: b :: c :: d :: rest =>
    BitVec.ofNat 32 (((a.toNat * 256 + b.toNat) * 256 + c.toNat) * 256 + d.toNat) :: words rest
  | _ => []

/-- The message schedule, `k` words longer; the list has the newest word first. -/
def expand : ℕ → List Word → List Word
  | 0, ws => ws
  | k + 1, ws =>
    expand k ((ws.getD 2 0 ^^^ ws.getD 7 0 ^^^ ws.getD 13 0 ^^^ ws.getD 15 0).rotateLeft 1 :: ws)

/-- The function of the round `t`. -/
def choose (t : ℕ) (b c d : Word) : Word :=
  if t < 20 then (b &&& c) ||| (~~~b &&& d)
  else if t < 40 then b ^^^ c ^^^ d
  else if t < 60 then (b &&& c) ||| (b &&& d) ||| (c &&& d)
  else b ^^^ c ^^^ d

/-- The constant of the round `t`. -/
def constant (t : ℕ) : Word :=
  if t < 20 then 0x5A827999#32
  else if t < 40 then 0x6ED9EBA1#32
  else if t < 60 then 0x8F1BBCDC#32
  else 0xCA62C1D6#32

/-- The round `t`, with the word `w` of the schedule. -/
def round (h : State) : Word × ℕ → State
  | (w, t) =>
    { a := h.a.rotateLeft 5 + choose t h.b h.c h.d + h.e + constant t + w
      b := h.a
      c := h.b.rotateLeft 30
      d := h.c
      e := h.d }

def block (h : State) (bytes : List UInt8) : State :=
  let h' := (expand 64 (words bytes).reverse).reverse.zipIdx.foldl round h
  { a := h.a + h'.a
    b := h.b + h'.b
    c := h.c + h'.c
    d := h.d + h'.d
    e := h.e + h'.e }

/-- The digest of a message. -/
def sum (message : List UInt8) : BitVec 160 :=
  let bytes := pad message
  let h := (List.range (bytes.length / 64)).foldl
    (fun h i => block h ((bytes.drop (64 * i)).take 64)) init
  h.a ++ h.b ++ h.c ++ h.d ++ h.e

/-- A message is padded to whole blocks. -/
theorem length_pad (message : List UInt8) : (pad message).length % 64 = 0 := by
  simp only [pad, List.length_append, List.length_cons, List.length_replicate, List.length_map,
    List.length_range]
  omega

example : sum "abc".toUTF8.data.toList = 0xa9993e364706816aba3e25717850c26c9cd0d89d#160 := by
  decide +kernel

end ExchangeLabs.Sha1
