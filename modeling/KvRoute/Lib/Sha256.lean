import Mathlib.Data.List.Basic

set_option relaxedAutoImplicit false
set_option autoImplicit false

/-!
# SHA-256

The hash function SHA-256 on byte strings: the padded message is cut into blocks of sixteen
big-endian words of 32 bits, and each block is mixed into eight state words by 64 rounds.  The words
for the later rounds are computed from the sixteen words before them.

## Main definitions

* `Sha256.State` — the eight words, with `round`, `rounds` and `add`.
* `Sha256.pad` — the padded message.
* `Sha256.hash` — the digest of a message, 32 bytes.
-/

namespace Sha256

/-- `x` rotated right by `k` bits, `0 < k < 32`. -/
def rotr (x k : UInt32) : UInt32 := (x >>> k) ||| (x <<< (32 - k))

/-- The internal state: eight words. -/
structure State where
  a : UInt32
  b : UInt32
  c : UInt32
  d : UInt32
  e : UInt32
  f : UInt32
  g : UInt32
  h : UInt32

/-- The initial state: fractional parts of the square roots of the first eight primes. -/
def State.init : State :=
  ⟨0x6a09e667, 0xbb67ae85, 0x3c6ef372, 0xa54ff53a, 0x510e527f, 0x9b05688c, 0x1f83d9ab, 0x5be0cd19⟩

/-- The constants of the rounds: fractional parts of the cube roots of the first 64 primes. -/
def roundConstants : List UInt32 :=
  [0x428a2f98, 0x71374491, 0xb5c0fbcf, 0xe9b5dba5, 0x3956c25b, 0x59f111f1, 0x923f82a4, 0xab1c5ed5,
    0xd807aa98, 0x12835b01, 0x243185be, 0x550c7dc3, 0x72be5d74, 0x80deb1fe, 0x9bdc06a7, 0xc19bf174,
    0xe49b69c1, 0xefbe4786, 0x0fc19dc6, 0x240ca1cc, 0x2de92c6f, 0x4a7484aa, 0x5cb0a9dc, 0x76f988da,
    0x983e5152, 0xa831c66d, 0xb00327c8, 0xbf597fc7, 0xc6e00bf3, 0xd5a79147, 0x06ca6351, 0x14292967,
    0x27b70a85, 0x2e1b2138, 0x4d2c6dfc, 0x53380d13, 0x650a7354, 0x766a0abb, 0x81c2c92e, 0x92722c85,
    0xa2bfe8a1, 0xa81a664b, 0xc24b8b70, 0xc76c51a3, 0xd192e819, 0xd6990624, 0xf40e3585, 0x106aa070,
    0x19a4c116, 0x1e376c08, 0x2748774c, 0x34b0bcb5, 0x391c0cb3, 0x4ed8aa4a, 0x5b9cca4f, 0x682e6ff3,
    0x748f82ee, 0x78a5636f, 0x84c87814, 0x8cc70208, 0x90befffa, 0xa4506ceb, 0xbef9a3f7, 0xc67178f2]

/-- One round, with a constant and a word of the schedule. -/
def State.round (s : State) (k w : UInt32) : State :=
  let t₁ := s.h + (rotr s.e 6 ^^^ rotr s.e 11 ^^^ rotr s.e 25) +
    ((s.e &&& s.f) ^^^ (~~~s.e &&& s.g)) + k + w
  let t₂ := (rotr s.a 2 ^^^ rotr s.a 13 ^^^ rotr s.a 22) +
    ((s.a &&& s.b) ^^^ (s.a &&& s.c) ^^^ (s.b &&& s.c))
  { a := t₁ + t₂, b := s.a, c := s.b, d := s.c, e := s.d + t₁, f := s.e, g := s.f, h := s.g }

/-- The word of the schedule after sixteen given ones. -/
def nextWord (words : List UInt32) : UInt32 :=
  let w₁ := words.getD 1 0
  let w₁₄ := words.getD 14 0
  (rotr w₁₄ 17 ^^^ rotr w₁₄ 19 ^^^ (w₁₄ >>> 10)) + words.getD 9 0 +
    (rotr w₁ 7 ^^^ rotr w₁ 18 ^^^ (w₁ >>> 3)) + words.getD 0 0

/-- One round for each constant; the words are the next sixteen of the schedule. -/
def State.rounds : List UInt32 → List UInt32 → State → State
  | [], _, s => s
  | k :: ks, words, s =>
    State.rounds ks (words.tail ++ [nextWord words]) (s.round k (words.getD 0 0))

/-- Add the words of two states. -/
def State.add (s t : State) : State :=
  { a := s.a + t.a, b := s.b + t.b, c := s.c + t.c, d := s.d + t.d
    e := s.e + t.e, f := s.f + t.f, g := s.g + t.g, h := s.h + t.h }

/-- Bytes as one word, the first byte most significant. -/
def beWord (bytes : List UInt8) : UInt32 := bytes.foldl (fun n b => (n <<< 8) ||| b.toUInt32) 0

/-- The words of a block of 64 bytes. -/
def blockWords (block : List UInt8) : List UInt32 :=
  (List.range 16).map fun i => beWord ((block.drop (4 * i)).take 4)

/-- Mix the first `n` blocks of the message into the state. -/
def absorb : ℕ → State → List UInt8 → State
  | 0, s, _ => s
  | n + 1, s, msg =>
    absorb n (s.add (State.rounds roundConstants (blockWords (msg.take 64)) s)) (msg.drop 64)

/-- A number in a number of bytes, the most significant one first. -/
def beBytes (width n : ℕ) : List UInt8 :=
  ((List.range width).map fun i => UInt8.ofNat (n >>> (8 * i))).reverse

/-- The padded message: a one bit, zeros up to eight bytes before the end of a block, and the length
in bits. -/
def pad (msg : List UInt8) : List UInt8 :=
  msg ++ 0x80 :: List.replicate ((119 - msg.length % 64) % 64) 0 ++ beBytes 8 (8 * msg.length)

/-- SHA-256 of a message. -/
def hash (msg : List UInt8) : List UInt8 :=
  let padded := pad msg
  let s := absorb (padded.length / 64) .init padded
  [s.a, s.b, s.c, s.d, s.e, s.f, s.g, s.h].flatMap fun w => beBytes 4 w.toNat

/-- SHA-256 of `abc`. -/
example : Sha256.hash [0x61, 0x62, 0x63] =
    [0xba, 0x78, 0x16, 0xbf, 0x8f, 0x01, 0xcf, 0xea, 0x41, 0x41, 0x40, 0xde, 0x5d, 0xae, 0x22, 0x23,
      0xb0, 0x03, 0x61, 0xa3, 0x96, 0x17, 0x7a, 0x9c, 0xb4, 0x10, 0xff, 0x61, 0xf2, 0x00, 0x15,
      0xad] := by decide +kernel

end Sha256
