import Mathlib.Data.List.Nodup
import Mathlib.Data.Set.Function
import KvRoute.Lib.SipHash
import KvRoute.Lib.Slices

set_option relaxedAutoImplicit false
set_option autoImplicit false

/-!
# Prefix-hash chains

The chain of a prompt (`crates/router-core/src/hashing.rs`): the prompt is cut into blocks of
`block_size` characters, and each block is hashed together with the hash of the block before
it, so that the `i`-th hash stands for the first `i + 1` blocks.

Everything is parametric in the 64-bit hasher, which sees the previous hash, if there is one,
and a block.  No 64-bit hasher separates all inputs; what the results assume is that it
separates the inputs that the prompts at hand feed to it (`CollisionFree`).

## Main definitions

* `KvRoute.blocks`, `KvRoute.chainHash` — the blocks of a prompt and its chain.
* `KvRoute.defaultHasher` — the hasher of the code, SipHash-1-3 with the zero key.
* `KvRoute.CollisionFree` — the hasher separates the inputs of a set of prompts.

## Main results

* `KvRoute.chainHash_eq_imp` — equal hashes mean equal positions and equal blocks up to there.
* `KvRoute.chainHash_identifies_prefixes` — two chain positions carry the same hash exactly
  when they are the same position and the blocks up to it agree; the same for heads of chains,
  and no hash occurs twice in one chain.
-/

namespace KvRoute

/-- The blocks of a prompt: chunks of `max block_size 1` characters. -/
def blocks (prompt : String) (blockSize : ℕ) : List (List Char) :=
  Slices.chunks (max blockSize 1) prompt.toList

/-- What `DefaultHasher` is given for one block: the previous hash as eight bytes, if there is
one, then the characters as a slice, that is, their number as eight bytes and four bytes for
each (all little-endian). -/
def hasherBytes (previous : Option UInt64) (block : List Char) : List UInt8 :=
  let leBytes (n width : ℕ) : List UInt8 :=
    (List.range width).map fun i => UInt8.ofNat (n >>> (8 * i))
  (match previous with
    | none => []
    | some prev => leBytes prev.toNat 8) ++
  leBytes block.length 8 ++ block.flatMap fun c => leBytes c.toNat 4

/-- `DefaultHasher` on one block: SipHash-1-3 with the zero key. -/
def defaultHasher (previous : Option UInt64) (block : List Char) : UInt64 :=
  SipHash.hash 1 3 0 0 (hasherBytes previous block)

section Chain

variable (hasher : Option UInt64 → List Char → UInt64)

/-- The loop of `chain_hash` over the remaining blocks, `previous` being the last hash pushed. -/
def chainFrom (previous : Option UInt64) : List (List Char) → List UInt64
  | [] => []
  | block :: rest =>
    let hash := hasher previous block
    hash :: chainFrom (some hash) rest

/-- The prefix-hash chain of a prompt. -/
def chainHash (prompt : String) (blockSize : ℕ) : List UInt64 :=
  chainFrom hasher none (blocks prompt blockSize)

/-- The inputs that the loop of `chain_hash` feeds to the hasher. -/
def inputsFrom (previous : Option UInt64) :
    List (List Char) → List (Option UInt64 × List Char)
  | [] => []
  | block :: rest => (previous, block) :: inputsFrom (some (hasher previous block)) rest

/-- The inputs that `chain_hash` feeds to the hasher for one prompt. -/
def hasherInputs (prompt : String) (blockSize : ℕ) : List (Option UInt64 × List Char) :=
  inputsFrom hasher none (blocks prompt blockSize)

/-- The hasher gives different values on different inputs, among the inputs that the prompts
of `S` feed to it. -/
def CollisionFree (blockSize : ℕ) (S : Set String) : Prop :=
  Set.InjOn (fun i : Option UInt64 × List Char => hasher i.1 i.2)
    {i | ∃ prompt ∈ S, i ∈ hasherInputs hasher prompt blockSize}

variable {hasher}

theorem CollisionFree.mono {blockSize : ℕ} {S T : Set String} (hST : S ⊆ T)
    (h : CollisionFree hasher blockSize T) : CollisionFree hasher blockSize S := by
  refine Set.InjOn.mono ?_ h
  rintro i ⟨prompt, hp, hi⟩
  exact ⟨prompt, hST hp, hi⟩

/-- Collision-freeness of finitely many prompts, as a finite check. -/
theorem collisionFree_of_forall {blockSize : ℕ} (prompts : List String)
    (h : ∀ i ∈ prompts.flatMap (hasherInputs hasher · blockSize),
      ∀ j ∈ prompts.flatMap (hasherInputs hasher · blockSize),
        hasher i.1 i.2 = hasher j.1 j.2 → i = j) :
    CollisionFree hasher blockSize {prompt | prompt ∈ prompts} := by
  rintro i ⟨p, hp, hi⟩ j ⟨q, hq, hj⟩ heq
  exact h i (List.mem_flatMap.mpr ⟨p, hp, hi⟩) j (List.mem_flatMap.mpr ⟨q, hq, hj⟩) heq

/-! ## Positions in a chain -/

@[simp] theorem length_chainFrom (previous : Option UInt64) (bs : List (List Char)) :
    (chainFrom hasher previous bs).length = bs.length := by
  induction bs generalizing previous with
  | nil => rfl
  | cons b bs ih => simp [chainFrom, ih]

@[simp] theorem length_chainHash (prompt : String) (blockSize : ℕ) :
    (chainHash hasher prompt blockSize).length = (blocks prompt blockSize).length :=
  length_chainFrom none _

/-- The hash before position `i` of a chain, which is what the block there is hashed with. -/
def previousAt (previous : Option UInt64) (chain : List UInt64) : ℕ → Option UInt64
  | 0 => previous
  | i + 1 => chain[i]?

/-- The hash at position `i` is the hasher's value on an input of the loop: the hash before
`i` and block `i`. -/
theorem chainFrom_getElem (hasher : Option UInt64 → List Char → UInt64)
    (previous : Option UInt64) (bs : List (List Char)) (i : ℕ) (hi : i < bs.length) :
    (chainFrom hasher previous bs)[i]? =
        some (hasher (previousAt previous (chainFrom hasher previous bs) i) bs[i]) ∧
      (previousAt previous (chainFrom hasher previous bs) i, bs[i]) ∈
        inputsFrom hasher previous bs := by
  induction bs generalizing previous i with
  | nil => simp at hi
  | cons b bs ih =>
    cases i with
    | zero => simp [chainFrom, previousAt, inputsFrom]
    | succ i =>
      obtain ⟨hget, hmem⟩ := ih (some (hasher previous b)) i (by simpa using hi)
      have hprev : previousAt previous (chainFrom hasher previous (b :: bs)) (i + 1) =
          previousAt (some (hasher previous b))
            (chainFrom hasher (some (hasher previous b)) bs) i := by
        cases i <;> simp [previousAt, chainFrom]
      rw [hprev]
      exact ⟨by simpa [chainFrom] using hget, List.mem_cons_of_mem _ hmem⟩

/-- Equal blocks up to position `i` give equal hashes up to `i`. -/
theorem chainFrom_take (previous : Option UInt64) (bs : List (List Char)) (k : ℕ) :
    (chainFrom hasher previous bs).take k = chainFrom hasher previous (bs.take k) := by
  induction bs generalizing previous k with
  | nil => simp [chainFrom]
  | cons b bs ih => cases k <;> simp [chainFrom, ih]

section TwoPrompts

variable {blockSize : ℕ} {P Q : String}

/-- Equal hashes come from equal inputs: the hashes before them and the blocks agree. -/
theorem chainHash_eq_inputs {S : Set String} (hfree : CollisionFree hasher blockSize S)
    (hP : P ∈ S) (hQ : Q ∈ S) {i j : ℕ} {h : UInt64}
    (hi : (chainHash hasher P blockSize)[i]? = some h)
    (hj : (chainHash hasher Q blockSize)[j]? = some h) :
    previousAt none (chainHash hasher P blockSize) i =
        previousAt none (chainHash hasher Q blockSize) j ∧
      (blocks P blockSize)[i]? = (blocks Q blockSize)[j]? := by
  obtain ⟨hiL, -⟩ := List.getElem?_eq_some_iff.mp hi
  obtain ⟨hjL, -⟩ := List.getElem?_eq_some_iff.mp hj
  rw [length_chainHash] at hiL hjL
  obtain ⟨hgi, hmi⟩ := chainFrom_getElem hasher none _ i hiL
  obtain ⟨hgj, hmj⟩ := chainFrom_getElem hasher none _ j hjL
  have heq := hfree ⟨P, hP, hmi⟩ ⟨Q, hQ, hmj⟩
    (Option.some.inj (hgi.symm.trans (hi.trans (hj.symm.trans hgj))))
  obtain ⟨hprev, hblock⟩ := Prod.mk.inj heq
  exact ⟨hprev, by rw [List.getElem?_eq_getElem hiL, List.getElem?_eq_getElem hjL, hblock]⟩

/-- **Equal hashes mean equal positions and equal prefixes.**

**Proof sketch.** Induction on `i`.  The two equal hashes are the hasher's values on two inputs,
so the inputs agree (`chainHash_eq_inputs`): the blocks at `i` and `j` are equal, and so are the
hashes before them.  At `i = 0` there is no hash before, so `j = 0` too; at `i + 1` the hash
before is the chain's value at `i`, and the induction hypothesis applies to it. -/
theorem chainHash_eq_imp {S : Set String} (hfree : CollisionFree hasher blockSize S)
    (hP : P ∈ S) (hQ : Q ∈ S) : ∀ i j h, (chainHash hasher P blockSize)[i]? = some h →
      (chainHash hasher Q blockSize)[j]? = some h →
      i = j ∧ (blocks P blockSize).take (i + 1) = (blocks Q blockSize).take (i + 1) := by
  intro i
  induction i with
  | zero =>
    intro j h hi hj
    obtain ⟨hprev, hblock⟩ := chainHash_eq_inputs hfree hP hQ hi hj
    obtain ⟨hjL, -⟩ := List.getElem?_eq_some_iff.mp hj
    cases j with
    | zero => exact ⟨rfl, by rw [List.take_add_one, List.take_add_one, hblock]; rfl⟩
    | succ j =>
      rw [previousAt, previousAt, List.getElem?_eq_getElem (by omega)] at hprev
      simp at hprev
  | succ i ih =>
    intro j h hi hj
    obtain ⟨hprev, hblock⟩ := chainHash_eq_inputs hfree hP hQ hi hj
    obtain ⟨hiL, -⟩ := List.getElem?_eq_some_iff.mp hi
    have hbefore := List.getElem?_eq_getElem (Nat.lt_of_succ_lt hiL)
    cases j with
    | zero =>
      rw [previousAt, previousAt, hbefore] at hprev
      simp at hprev
    | succ j =>
      rw [previousAt, previousAt, hbefore] at hprev
      obtain ⟨rfl, htake⟩ := ih j _ hbefore hprev.symm
      exact ⟨rfl, by
        rw [List.take_add_one, List.take_add_one (l := blocks Q blockSize), htake, hblock]⟩

/-- Equal prefixes of blocks give equal heads of the chains. -/
theorem chainHash_take_congr (hasher : Option UInt64 → List Char → UInt64) {k : ℕ}
    (h : (blocks P blockSize).take k = (blocks Q blockSize).take k) :
    (chainHash hasher P blockSize).take k = (chainHash hasher Q blockSize).take k := by
  rw [chainHash, chainHash, chainFrom_take, chainFrom_take, h]

/-- Equal heads of the chains mean equal prefixes of blocks. -/
theorem blocks_take_congr {S : Set String} (hfree : CollisionFree hasher blockSize S)
    (hP : P ∈ S) (hQ : Q ∈ S) {k : ℕ}
    (h : (chainHash hasher P blockSize).take k = (chainHash hasher Q blockSize).take k) :
    (blocks P blockSize).take k = (blocks Q blockSize).take k := by
  refine List.ext_getElem? fun i => ?_
  rw [List.getElem?_take, List.getElem?_take]
  split_ifs with hik
  · have hget : (chainHash hasher P blockSize)[i]? = (chainHash hasher Q blockSize)[i]? := by
      have hi := congrArg (·[i]?) h
      simpa only [List.getElem?_take, if_pos hik] using hi
    cases hPi : (chainHash hasher P blockSize)[i]? with
    | some x =>
      exact (chainHash_eq_inputs hfree hP hQ hPi (hget ▸ hPi)).2
    | none =>
      have hQi := hget ▸ hPi
      rw [List.getElem?_eq_none_iff, length_chainHash] at hPi hQi
      rw [List.getElem?_eq_none hPi, List.getElem?_eq_none hQi]
  · rfl

/-- No hash occurs twice in one chain. -/
theorem nodup_chainHash {S : Set String} (hfree : CollisionFree hasher blockSize S)
    (hP : P ∈ S) : (chainHash hasher P blockSize).Nodup := by
  rw [List.nodup_iff_getElem?_ne_getElem?]
  intro i j hij hj heq
  have hj' := List.getElem?_eq_getElem hj
  exact hij.ne (chainHash_eq_imp hfree hP hP i j _ (heq.trans hj') hj').1

end TwoPrompts

/-- **The chain identifies prefixes.**  Two chain positions carry the same hash exactly when
they are the same position and the blocks up to it agree; so the first `k` hashes agree exactly
when the first `k` blocks do, and no hash occurs twice in one chain.

**Proof sketch.** `chainHash_eq_imp` and `blocks_take_congr` read prefixes off hashes; the
converse directions are `chainHash_take_congr`, since the head of a chain is computed from the
blocks before it alone. -/
theorem chainHash_identifies_prefixes (blockSize : ℕ) (P Q : String)
    (hfree : CollisionFree hasher blockSize {P, Q}) :
    (∀ i j (hi : i < (chainHash hasher P blockSize).length)
        (hj : j < (chainHash hasher Q blockSize).length),
      (chainHash hasher P blockSize)[i] = (chainHash hasher Q blockSize)[j] ↔
        i = j ∧ (blocks P blockSize).take (i + 1) = (blocks Q blockSize).take (i + 1)) ∧
    (∀ k, (chainHash hasher P blockSize).take k = (chainHash hasher Q blockSize).take k ↔
      (blocks P blockSize).take k = (blocks Q blockSize).take k) ∧
    (chainHash hasher P blockSize).Nodup := by
  have hP : P ∈ ({P, Q} : Set String) := Or.inl rfl
  have hQ : Q ∈ ({P, Q} : Set String) := Or.inr rfl
  refine ⟨?_, ?_, nodup_chainHash hfree hP⟩
  · intro i j hi hj
    constructor
    · intro h
      exact chainHash_eq_imp hfree hP hQ i j _ (List.getElem?_eq_getElem hi)
        (h ▸ List.getElem?_eq_getElem hj)
    · rintro ⟨rfl, htake⟩
      have hhead := congrArg (·[i]?) (chainHash_take_congr hasher htake)
      simp only [List.getElem?_take, Nat.lt_succ_self, if_true] at hhead
      rw [List.getElem?_eq_getElem hi, List.getElem?_eq_getElem hj] at hhead
      exact Option.some.inj hhead
  · intro k
    constructor
    · exact blocks_take_congr hfree hP hQ
    · exact chainHash_take_congr hasher

end Chain

/-- Two prompts of the code's own tests under its own hasher: `once upon a time` and a
continuation of it share their first four blocks of four characters. -/
theorem chainHash_identifies_prefixes_once_upon :
    CollisionFree defaultHasher 4 {"once upon a time", "once upon a time there was a cache"} ∧
      (chainHash defaultHasher "once upon a time" 4).take 4 =
        (chainHash defaultHasher "once upon a time there was a cache" 4).take 4 := by
  have hfree : CollisionFree defaultHasher 4
      {"once upon a time", "once upon a time there was a cache"} := by
    refine (collisionFree_of_forall
      ["once upon a time", "once upon a time there was a cache"] ?_).mono ?_
    · decide +kernel
    · rintro P (rfl | rfl) <;> simp
  exact ⟨hfree, ((chainHash_identifies_prefixes 4 _ _ hfree).2.1 4).mpr (by decide +kernel)⟩

end KvRoute
