import Mathlib.Data.List.Basic

set_option relaxedAutoImplicit false
set_option autoImplicit false

/-!
# SipHash

The keyed hash function SipHash-`c`-`d` on byte strings: four 64-bit words are mixed with the
message, eight bytes at a time, by `c` rounds of additions, rotations and exclusive ors, and the
result is taken after `d` more rounds.

## Main definitions

* `SipHash.State` — the four words, with `round`, `rounds` and `compress`.
* `SipHash.leWord` — up to eight bytes as a little-endian word.
* `SipHash.hash c d k₀ k₁ msg` — SipHash-`c`-`d` of `msg` under the key `(k₀, k₁)`.
-/

namespace SipHash

/-- `x` rotated left by `k` bits, `0 < k < 64`. -/
def rotl (x k : UInt64) : UInt64 := (x <<< k) ||| (x >>> (64 - k))

/-- The internal state: four words. -/
structure State where
  v₀ : UInt64
  v₁ : UInt64
  v₂ : UInt64
  v₃ : UInt64

/-- One SipHash round. -/
def State.round (s : State) : State :=
  let a₀ := s.v₀ + s.v₁
  let a₂ := s.v₂ + s.v₃
  let a₁ := rotl s.v₁ 13 ^^^ a₀
  let a₃ := rotl s.v₃ 16 ^^^ a₂
  let b₂ := a₂ + a₁
  let b₀ := rotl a₀ 32 + a₃
  { v₀ := b₀, v₁ := rotl a₁ 17 ^^^ b₂, v₂ := rotl b₂ 32, v₃ := rotl a₃ 21 ^^^ b₀ }

/-- `n` rounds. -/
def State.rounds : ℕ → State → State
  | 0, s => s
  | n + 1, s => State.rounds n s.round

/-- Mix one message word into the state, with `c` rounds. -/
def State.compress (c : ℕ) (s : State) (m : UInt64) : State :=
  let t := State.rounds c { s with v₃ := s.v₃ ^^^ m }
  { t with v₀ := t.v₀ ^^^ m }

/-- The initial state for the key `(k₀, k₁)`. -/
def State.init (k₀ k₁ : UInt64) : State :=
  { v₀ := k₀ ^^^ 0x736f6d6570736575, v₁ := k₁ ^^^ 0x646f72616e646f6d
    v₂ := k₀ ^^^ 0x6c7967656e657261, v₃ := k₁ ^^^ 0x7465646279746573 }

/-- Up to eight bytes as one word, the first byte least significant. -/
def leWord : List UInt8 → UInt64
  | [] => 0
  | b :: bs => b.toUInt64 ||| (leWord bs <<< 8)

/-- Mix the first `n` full words of the message, and return the bytes after them. -/
def absorb (c : ℕ) : ℕ → State → List UInt8 → State × List UInt8
  | 0, s, msg => (s, msg)
  | n + 1, s, msg => absorb c n (s.compress c (leWord (msg.take 8))) (msg.drop 8)

/-- SipHash-`c`-`d` of `msg` under the key `(k₀, k₁)`: after the full words, a last word with
the remaining bytes and the length modulo 256 in its top byte. -/
def hash (c d : ℕ) (k₀ k₁ : UInt64) (msg : List UInt8) : UInt64 :=
  let r := absorb c (msg.length / 8) (State.init k₀ k₁) msg
  let last := (UInt64.ofNat (msg.length % 256) <<< 56) ||| leWord r.2
  let s := r.1.compress c last
  let s := State.rounds d { s with v₂ := s.v₂ ^^^ 0xff }
  s.v₀ ^^^ s.v₁ ^^^ s.v₂ ^^^ s.v₃

/-- SipHash-1-3 of the empty string and of `abc` under the zero key. -/
example : hash 1 3 0 0 [] = 0xd1fba762150c532c ∧
    hash 1 3 0 0 [0x61, 0x62, 0x63] = 13851880170939887858 := by decide +kernel

end SipHash
