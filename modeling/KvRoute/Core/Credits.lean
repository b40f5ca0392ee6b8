import KvRoute.Core.PrefixHistory

set_option relaxedAutoImplicit false
set_option autoImplicit false

/-!
# What an index credits a worker with

`KvRoute.longestMatch_of_history` speaks of whole sequences of calls on one index.  Where an index is
part of a larger system (a router in front of engines, a simulation of a trace, the bindings), only
the state that it is in counts: the prompts whose blocks a worker is listed on.  Here the two bounds
on a match are given for states, and what every operation of the index does to them.

## Main definitions

* `PrefixIndex.Credits` — a worker is listed on every block of some prompts.
* `PrefixIndex.CreditsOnly` — and on no other block.

## Main results

* `PrefixIndex.le_matchedHashes`, `PrefixIndex.matchedHashes_le` — the two bounds on a match.
* `PrefixIndex.length_matchedHashes_eq` — the match with exactly these prompts credited.
-/

namespace KvRoute

section Shares

variable {blockSize : ℕ} {P : String} {prompts prompts' : List String}

/-- The most blocks shared with one of the prompts, as a bound. -/
lemma le_mostShared_iff {k : ℕ} : k ≤ mostShared blockSize P prompts ↔
    k = 0 ∨ ∃ Q ∈ prompts, k ≤ sharedBlocks blockSize P Q := by
  constructor
  · intro h
    by_cases h0 : mostShared blockSize P prompts = 0
    · left
      omega
    · obtain ⟨Q, hQ, hshare⟩ := exists_sharedBlocks_eq h0
      exact Or.inr ⟨Q, hQ, by omega⟩
  · intro h
    rcases h with h | ⟨Q, hQ, hk⟩
    · omega
    · exact hk.trans (sharedBlocks_le_mostShared P hQ)

/-- A hash of a prompt that is also one of another prompt is shared with it, together with all hashes
before it. -/
lemma lt_sharedBlocks_of_mem_chainHash {hasher : Option UInt64 → List Char → UInt64} {S : Set String}
    (hfree : CollisionFree hasher blockSize S) {Q : String} (hP : P ∈ S) (hQ : Q ∈ S) {m : ℕ}
    {hash : UInt64} (hget : (chainHash hasher P blockSize)[m]? = some hash)
    (hmem : hash ∈ chainHash hasher Q blockSize) : m < sharedBlocks blockSize P Q := by
  have hlen := (List.getElem?_eq_some_iff.mp hget).1
  rw [length_chainHash] at hlen
  obtain ⟨j, hj⟩ := List.mem_iff_getElem?.mp hmem
  obtain ⟨rfl, htake⟩ := chainHash_eq_imp hfree hP hQ m j _ hget hj
  exact le_sharedBlocks_iff.mpr ⟨hlen, htake⟩

@[simp] lemma mostShared_nil : mostShared blockSize P [] = 0 := rfl

end Shares

namespace PrefixIndex

section Credits

variable (hasher : Option UInt64 → List Char → UInt64) (blockSize : ℕ)

/-- The worker is listed on every block of the prompts. -/
def Credits (idx : PrefixIndex) (worker : WorkerId) (prompts : List String) : Prop :=
  ∀ Q ∈ prompts, ∀ hash ∈ chainHash hasher Q blockSize, idx.lists worker hash = true

/-- The worker is listed on no block but those of the prompts. -/
def CreditsOnly (idx : PrefixIndex) (worker : WorkerId) (prompts : List String) : Prop :=
  ∀ hash, idx.lists worker hash = true → ∃ Q ∈ prompts, hash ∈ chainHash hasher Q blockSize

variable {hasher blockSize} {idx idx' : PrefixIndex} {worker : WorkerId} {P : String}
  {prompts : List String}

/-- The blocks that match, as a bound. -/
lemma le_length_matchedHashes_iff {chain : List UInt64} {k : ℕ} :
    k ≤ (idx.matchedHashes worker chain).length ↔
      k ≤ chain.length ∧ ∀ hash ∈ chain.take k, idx.lists worker hash = true :=
  Slices.le_length_takeWhile_iff

/-- **What is credited matches**: at least the blocks that are shared with one of the prompts. -/
theorem le_matchedHashes (h : idx.Credits hasher blockSize worker prompts) :
    mostShared blockSize P prompts ≤
      (idx.matchedHashes worker (chainHash hasher P blockSize)).length := by
  rcases le_mostShared_iff.mp (le_refl (mostShared blockSize P prompts)) with h0 | ⟨Q, hQ, hk⟩
  · omega
  · obtain ⟨hlen, htake⟩ := le_sharedBlocks_iff.mp hk
    apply le_length_matchedHashes_iff.mpr
    refine ⟨by rwa [length_chainHash], fun hash hmem => ?_⟩
    -- the shared blocks have the hashes of the credited prompt
    rw [chainHash_take_congr hasher htake] at hmem
    exact h Q hQ hash (List.mem_of_mem_take hmem)

/-- **Nothing else matches**: at most the blocks that are shared with one of the prompts.

**Proof sketch.** The last block that matches has a hash of one of the prompts' chains.  Equal hashes
sit at equal positions after equal blocks (`chainHash_eq_imp`), so that this prompt shares all blocks
up to there. -/
theorem matchedHashes_le (h : idx.CreditsOnly hasher blockSize worker prompts)
    (hfree : CollisionFree hasher blockSize (insert P {Q | Q ∈ prompts})) :
    (idx.matchedHashes worker (chainHash hasher P blockSize)).length ≤
      mostShared blockSize P prompts := by
  obtain ⟨hlen, hall⟩ := le_length_matchedHashes_iff.mp
    (le_refl (idx.matchedHashes worker (chainHash hasher P blockSize)).length)
  cases hm : (idx.matchedHashes worker (chainHash hasher P blockSize)).length with
  | zero => omega
  | succ m =>
    rw [hm] at hlen hall
    have hget := List.getElem?_eq_getElem (l := chainHash hasher P blockSize) (i := m) hlen
    have hlast := hall _ (List.mem_take_iff_getElem.mpr ⟨m, by omega, rfl⟩)
    obtain ⟨Q, hQ, hmem⟩ := h _ hlast
    have hshared : m + 1 ≤ sharedBlocks blockSize P Q :=
      lt_sharedBlocks_of_mem_chainHash hfree (Set.mem_insert _ _) (Set.mem_insert_of_mem P hQ)
        hget hmem
    exact hshared.trans (sharedBlocks_le_mostShared P hQ)

/-- The match of a worker that is credited with exactly the prompts. -/
theorem length_matchedHashes_eq (h : idx.Credits hasher blockSize worker prompts)
    (honly : idx.CreditsOnly hasher blockSize worker prompts)
    (hfree : CollisionFree hasher blockSize (insert P {Q | Q ∈ prompts})) :
    (idx.matchedHashes worker (chainHash hasher P blockSize)).length =
      mostShared blockSize P prompts := by
  apply le_antisymm
  · exact matchedHashes_le honly hfree
  · exact le_matchedHashes h

/-! ## What keeps the credits -/

lemma credits_nil : idx.Credits hasher blockSize worker [] := by
  intro Q hQ
  simp at hQ

lemma creditsOnly_of_unlisted (h : ∀ hash, idx.lists worker hash = false) :
    idx.CreditsOnly hasher blockSize worker prompts := by
  intro hash hlists
  rw [h hash] at hlists
  cases hlists

/-- Listing more keeps what is credited. -/
lemma Credits.of_lists (h : idx.Credits hasher blockSize worker prompts)
    (hlists : ∀ hash, idx.lists worker hash = true → idx'.lists worker hash = true) :
    idx'.Credits hasher blockSize worker prompts := by
  intro Q hQ hash hmem
  exact hlists hash (h Q hQ hash hmem)

/-- Listing less credits nothing else. -/
lemma CreditsOnly.of_lists (h : idx.CreditsOnly hasher blockSize worker prompts)
    (hlists : ∀ hash, idx'.lists worker hash = true → idx.lists worker hash = true) :
    idx'.CreditsOnly hasher blockSize worker prompts := by
  intro hash hmem
  exact h hash (hlists hash hmem)

/-- More prompts may be credited. -/
lemma CreditsOnly.mono {prompts' : List String}
    (h : idx.CreditsOnly hasher blockSize worker prompts) (hsub : prompts ⊆ prompts') :
    idx.CreditsOnly hasher blockSize worker prompts' := by
  intro hash hlists
  obtain ⟨Q, hQ, hmem⟩ := h hash hlists
  exact ⟨Q, hsub hQ, hmem⟩

/-- A prompt is recorded for the worker: it is credited as well. -/
lemma Credits.concat {Q : String} (h : idx.Credits hasher blockSize worker prompts)
    (hlists : ∀ hash, idx'.lists worker hash = true ↔
      hash ∈ chainHash hasher Q blockSize ∨ idx.lists worker hash = true) :
    idx'.Credits hasher blockSize worker (prompts ++ [Q]) := by
  intro R hR hash hmem
  apply (hlists hash).mpr
  rcases List.mem_append.mp hR with hold | hnew
  · exact Or.inr (h R hold hash hmem)
  · simp only [List.mem_singleton] at hnew
    rw [hnew] at hmem
    exact Or.inl hmem

/-- And nothing else is. -/
lemma CreditsOnly.concat {Q : String} (h : idx.CreditsOnly hasher blockSize worker prompts)
    (hlists : ∀ hash, idx'.lists worker hash = true ↔
      hash ∈ chainHash hasher Q blockSize ∨ idx.lists worker hash = true) :
    idx'.CreditsOnly hasher blockSize worker (prompts ++ [Q]) := by
  intro hash hmem
  rcases (hlists hash).mp hmem with hnew | hold
  · exact ⟨Q, by simp, hnew⟩
  · obtain ⟨R, hR, hchain⟩ := h hash hold
    exact ⟨R, by simp [hR], hchain⟩

end Credits

end PrefixIndex

end KvRoute
