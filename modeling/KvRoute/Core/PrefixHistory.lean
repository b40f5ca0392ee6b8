import KvRoute.Core.Hashing
import KvRoute.Core.PrefixRuns

set_option relaxedAutoImplicit false
set_option autoImplicit false

/-!
# What a match says about the past

The reason to route by the prefix index: the match it reports for a worker and a prompt is
how much of the prompt some earlier prompt of that worker shares.  This is a statement about
whole histories of calls, in which records are of prompts, through their chains, and all other
calls are arbitrary.

## Main definitions

* `KvRoute.chainCalls` — the calls on the index that calls about prompts amount to.
* `KvRoute.recordedFor` — the prompts recorded for a worker since its last purge.
* `KvRoute.mostShared` — the most leading blocks a prompt shares with one of them.

## Main results

* `KvRoute.lists_imp_recordedFor` — a listed block comes from a recorded prompt.
* `KvRoute.longestMatch_le_mostShared`, `mostShared_le_longestMatch` — the two bounds on a match.
* `KvRoute.longestMatch_of_history` — matches never exceed the history, and without sweeps
  equal it.
-/

namespace KvRoute

/-- A sequence of calls in which prompts are recorded, and something of type `μ` matched. -/
abbrev PromptCalls (μ : Type) := List (Instant × IndexOp String μ)

section History

variable {μ : Type} (hasher : Option UInt64 → List Char → UInt64) (blockSize : ℕ)
  (matchedChain : μ → List UInt64)

/-- The calls on the index: a prompt is recorded through its chain. -/
def chainCalls (calls : PromptCalls μ) : List (Instant × IndexOp (List UInt64) (List UInt64)) :=
  calls.map fun call => (call.1, call.2.map (chainHash hasher · blockSize) matchedChain)

/-- The prompts recorded for a worker since its last purge, after one more call. -/
def noteFor (worker : WorkerId) (prompts : List String) (op : IndexOp String μ) :
    List String :=
  match op with
  | .record w prompt => if w = worker then prompts ++ [prompt] else prompts
  | .removeWorker w => if w = worker then [] else prompts
  | _ => prompts

/-- The prompts recorded for a worker since its last purge. -/
def recordedFor (worker : WorkerId) (calls : PromptCalls μ) : List String :=
  calls.foldl (fun prompts call => noteFor worker prompts call.2) []

/-- How many leading blocks two prompts share. -/
def sharedBlocks (P Q : String) : ℕ :=
  Slices.commonPrefix (blocks P blockSize) (blocks Q blockSize)

/-- The largest number of leading blocks that a prompt shares with one of `prompts`, and `0`
if there is none. -/
def mostShared (P : String) (prompts : List String) : ℕ :=
  (prompts.map (sharedBlocks blockSize P)).foldr max 0

/-- The prompts that a sequence of calls records, for any worker. -/
def recordedPrompts (calls : PromptCalls μ) : Set String :=
  {Q | ∃ now worker, (now, IndexOp.record worker Q) ∈ calls}

/-! ## Largest shares -/

variable {blockSize matchedChain}

theorem sharedBlocks_le_mostShared (P : String) {Q : String} {prompts : List String}
    (hQ : Q ∈ prompts) : sharedBlocks blockSize P Q ≤ mostShared blockSize P prompts := by
  unfold mostShared
  induction prompts with
  | nil => cases hQ
  | cons R prompts ih =>
    rw [List.map_cons, List.foldr_cons]
    rcases List.mem_cons.mp hQ with rfl | hQ
    · exact le_max_left _ _
    · exact (ih hQ).trans (le_max_right _ _)

/-- The largest share, unless it is zero, is the share of one of the prompts. -/
theorem exists_sharedBlocks_eq {P : String} {prompts : List String}
    (h : mostShared blockSize P prompts ≠ 0) :
    ∃ Q ∈ prompts, sharedBlocks blockSize P Q = mostShared blockSize P prompts := by
  unfold mostShared at h ⊢
  induction prompts with
  | nil => exact absurd rfl h
  | cons R prompts ih =>
    rw [List.map_cons, List.foldr_cons] at h ⊢
    rcases le_total (sharedBlocks blockSize P R)
      ((prompts.map (sharedBlocks blockSize P)).foldr max 0) with hle | hle
    · rw [max_eq_right hle] at h ⊢
      obtain ⟨Q, hQ, hshare⟩ := ih h
      exact ⟨Q, List.mem_cons_of_mem R hQ, hshare⟩
    · exact ⟨R, List.mem_cons_self, (max_eq_left hle).symm⟩

/-! ## Where listed blocks come from -/

/-- What one call does to the recorded prompts of a worker. -/
theorem mem_noteFor {worker : WorkerId} {prompts : List String}
    {op : IndexOp String μ} {Q : String} :
    Q ∈ noteFor worker prompts op ↔
      op = .record worker Q ∨ op ≠ .removeWorker worker ∧ Q ∈ prompts := by
  cases op with
  | record w R =>
    by_cases hw : w = worker
    · simp [noteFor, hw, or_comm, eq_comm]
    · simp [noteFor, hw]
  | removeWorker w =>
    by_cases hw : w = worker
    · simp [noteFor, hw]
    · simp [noteFor, hw]
  | longestMatch w chain => simp [noteFor]
  | len => simp [noteFor]
  | evict order ttl maxEntries => simp [noteFor]

theorem recordedFor_append_singleton (worker : WorkerId) (calls : PromptCalls μ)
    (call : Instant × IndexOp String μ) :
    recordedFor worker (calls ++ [call]) = noteFor worker (recordedFor worker calls) call.2 := by
  simp [recordedFor]

/-- Only recorded prompts count. -/
theorem recordedFor_subset (worker : WorkerId) (calls : PromptCalls μ) :
    ∀ Q ∈ recordedFor worker calls, Q ∈ recordedPrompts calls := by
  induction calls using List.reverseRecOn with
  | nil => nofun
  | append_singleton calls call ih =>
    intro Q hQ
    rw [recordedFor_append_singleton, mem_noteFor] at hQ
    rcases hQ with heq | ⟨-, hQ⟩
    · exact ⟨call.1, worker, by simp [← heq]⟩
    · obtain ⟨now, w, hmem⟩ := ih Q hQ
      exact ⟨now, w, List.mem_append_left _ hmem⟩

variable {hasher}

theorem run_chainCalls_append_singleton (calls : PromptCalls μ)
    (call : Instant × IndexOp String μ) :
    PrefixIndex.new.run (chainCalls hasher blockSize matchedChain (calls ++ [call])) =
      ((PrefixIndex.new.run (chainCalls hasher blockSize matchedChain calls)).step
        (call.1, call.2.map (chainHash hasher · blockSize) matchedChain)).1 := by
  simp [PrefixIndex.run, chainCalls]

/-- A call about a prompt is a record exactly when its call on the index is. -/
theorem map_eq_record_iff {op : IndexOp String μ} {worker : WorkerId} {chain : List UInt64} :
    op.map (chainHash hasher · blockSize) matchedChain = .record worker chain ↔
      ∃ Q, op = .record worker Q ∧ chainHash hasher Q blockSize = chain := by
  cases op <;> simp [IndexOp.map]

theorem map_eq_removeWorker_iff {op : IndexOp String μ} {worker : WorkerId} :
    op.map (chainHash hasher · blockSize) matchedChain = .removeWorker worker ↔
      op = .removeWorker worker := by
  cases op <;> simp [IndexOp.map]

theorem isEvict_map {op : IndexOp String μ} :
    (op.map (chainHash hasher · blockSize) matchedChain).isEvict = op.isEvict := by
  cases op <;> rfl

/-- A block that a worker is listed on belongs to a prompt recorded for it since its last
purge.

**Proof sketch.** Induction on the calls, from the last one back; `lists_of_lists_step` and
`mem_noteFor` say the same of the listed blocks and of the recorded prompts. -/
theorem lists_imp_recordedFor (calls : PromptCalls μ) (worker : WorkerId) (hash : UInt64)
    (h : (PrefixIndex.new.run (chainCalls hasher blockSize matchedChain calls)).lists worker
      hash = true) :
    ∃ Q ∈ recordedFor worker calls, hash ∈ chainHash hasher Q blockSize := by
  induction calls using List.reverseRecOn with
  | nil => cases h
  | append_singleton calls call ih =>
    rw [run_chainCalls_append_singleton] at h
    simp only [recordedFor_append_singleton, mem_noteFor]
    rcases PrefixIndex.lists_of_lists_step h with ⟨chain, heq, hc⟩ | ⟨hne, hold⟩
    · obtain ⟨Q, hop, rfl⟩ := map_eq_record_iff.mp heq
      exact ⟨Q, Or.inl hop, hc⟩
    · obtain ⟨Q, hQ, hc⟩ := ih hold
      exact ⟨Q, Or.inr ⟨fun heq => hne (map_eq_removeWorker_iff.mpr heq), hQ⟩, hc⟩

/-- Without sweeps, a worker is listed on every block of its recorded prompts. -/
theorem lists_of_recordedFor (calls : PromptCalls μ)
    (hevict : ∀ call ∈ calls, call.2.isEvict = false) (worker : WorkerId) (hash : UInt64)
    (Q : String) (hQ : Q ∈ recordedFor worker calls) (hc : hash ∈ chainHash hasher Q blockSize) :
    (PrefixIndex.new.run (chainCalls hasher blockSize matchedChain calls)).lists worker
      hash = true := by
  induction calls using List.reverseRecOn with
  | nil => cases hQ
  | append_singleton calls call ih =>
    rw [run_chainCalls_append_singleton]
    refine PrefixIndex.lists_step_of_lists (isEvict_map.trans (hevict call (by simp))) ?_
    rw [recordedFor_append_singleton, mem_noteFor] at hQ
    rcases hQ with hop | ⟨hne, hQ⟩
    · exact Or.inl ⟨_, map_eq_record_iff.mpr ⟨Q, hop, rfl⟩, hc⟩
    · refine Or.inr ⟨fun heq => hne (map_eq_removeWorker_iff.mp heq), ih ?_ hQ⟩
      exact fun c hcalls => hevict c (List.mem_append_left _ hcalls)

/-! ## Matches and histories -/

/-- Two prompts share at least `k` blocks exactly when their chains have `k` equal leading
hashes. -/
theorem le_sharedBlocks_iff {P Q : String} {k : ℕ} :
    k ≤ sharedBlocks blockSize P Q ↔ k ≤ (blocks P blockSize).length ∧
      (blocks P blockSize).take k = (blocks Q blockSize).take k :=
  Slices.le_commonPrefix_iff

/-- A match never exceeds the history: some prompt recorded for the worker since its last purge
shares all matched blocks.

**Proof sketch.** If `m` blocks match, the worker is listed on the last of them, so some
recorded prompt has that hash in its chain (`lists_imp_recordedFor`); equal hashes sit at equal
positions after equal blocks (`chainHash_eq_imp`), so that prompt shares all `m` blocks. -/
theorem longestMatch_le_mostShared (calls : PromptCalls μ) (now : Instant) (worker : WorkerId)
    (P : String) (hfree : CollisionFree hasher blockSize (insert P (recordedPrompts calls))) :
    ((PrefixIndex.new.run (chainCalls hasher blockSize matchedChain calls)).longestMatch now worker
      (chainHash hasher P blockSize)).2 ≤ mostShared blockSize P (recordedFor worker calls) := by
  set idx := PrefixIndex.new.run (chainCalls hasher blockSize matchedChain calls) with hidx
  obtain ⟨hlen, hall⟩ :=
    (idx.le_longestMatch_iff now worker (chainHash hasher P blockSize) _).mp le_rfl
  cases hm : (idx.longestMatch now worker (chainHash hasher P blockSize)).2 with
  | zero => exact Nat.zero_le _
  | succ m =>
    rw [hm] at hlen hall
    have hget := List.getElem?_eq_getElem (l := chainHash hasher P blockSize) (i := m) hlen
    have hlast := hall _ (List.mem_take_iff_getElem.mpr ⟨m, by omega, rfl⟩)
    obtain ⟨Q, hQ, hc⟩ := lists_imp_recordedFor calls worker _ hlast
    obtain ⟨j, hj⟩ := List.mem_iff_getElem?.mp hc
    have hrecorded : Q ∈ insert P (recordedPrompts calls) :=
      Set.mem_insert_of_mem _ (recordedFor_subset worker calls Q hQ)
    obtain ⟨rfl, htake⟩ :=
      chainHash_eq_imp hfree (Set.mem_insert _ _) hrecorded m j _ hget hj
    rw [length_chainHash] at hlen
    have hshared : m + 1 ≤ sharedBlocks blockSize P Q := le_sharedBlocks_iff.mpr ⟨hlen, htake⟩
    exact hshared.trans (sharedBlocks_le_mostShared P hQ)

/-- Without sweeps the match is as long as the history allows.

**Proof sketch.** The shared blocks of the best recorded prompt have the hashes of its own
chain, and without sweeps the worker is still listed on all of them (`lists_of_recordedFor`). -/
theorem mostShared_le_longestMatch (calls : PromptCalls μ) (now : Instant) (worker : WorkerId)
    (P : String) (hevict : ∀ call ∈ calls, call.2.isEvict = false) :
    mostShared blockSize P (recordedFor worker calls) ≤
      ((PrefixIndex.new.run (chainCalls hasher blockSize matchedChain calls)).longestMatch now
        worker (chainHash hasher P blockSize)).2 := by
  by_cases h0 : mostShared blockSize P (recordedFor worker calls) = 0
  · rw [h0]
    exact Nat.zero_le _
  · obtain ⟨Q, hQ, hshare⟩ := exists_sharedBlocks_eq h0
    obtain ⟨hlen, htake⟩ := le_sharedBlocks_iff.mp hshare.ge
    apply (PrefixIndex.le_longestMatch_iff _ now worker _ _).mpr
    refine ⟨by rwa [length_chainHash], fun hash hh => ?_⟩
    rw [chainHash_take_congr hasher htake] at hh
    exact lists_of_recordedFor calls hevict worker hash Q hQ (List.mem_of_mem_take hh)

/-- **A match is the history's.**  After any calls, `longest_match` for a worker and a prompt
never exceeds the largest number of leading blocks that the prompt shares with a prompt
recorded for the worker since its last purge; if no call was a sweep, it equals that number. -/
theorem longestMatch_of_history (calls : PromptCalls μ) (now : Instant) (worker : WorkerId)
    (P : String) (hfree : CollisionFree hasher blockSize (insert P (recordedPrompts calls))) :
    let idx := PrefixIndex.new.run (chainCalls hasher blockSize matchedChain calls)
    let matched := (idx.longestMatch now worker (chainHash hasher P blockSize)).2
    matched ≤ mostShared blockSize P (recordedFor worker calls) ∧
      ((∀ call ∈ calls, call.2.isEvict = false) →
        matched = mostShared blockSize P (recordedFor worker calls)) := by
  intro idx matched
  have hle : matched ≤ mostShared blockSize P (recordedFor worker calls) :=
    longestMatch_le_mostShared calls now worker P hfree
  refine ⟨hle, ?_⟩
  intro hevict
  exact le_antisymm hle (mostShared_le_longestMatch calls now worker P hevict)

end History

/-- The code's hasher, a purge of another worker and a prompt that leaves the recorded one in
its fourth block: three blocks match. -/
theorem longestMatch_of_history_once_upon :
    ((PrefixIndex.new.run (chainCalls defaultHasher 4 id
      [(0, .record 0 "once upon a time"), (1, .removeWorker 1)])).longestMatch 2 0
        (chainHash defaultHasher "once upon a dime" 4)).2 = 3 := by
  have hfree : CollisionFree defaultHasher 4 (insert "once upon a dime"
      (recordedPrompts ([(0, .record 0 "once upon a time"), (1, .removeWorker 1)] :
        PromptCalls (List UInt64)))) := by
    refine (collisionFree_of_forall ["once upon a time", "once upon a dime"] ?_).mono ?_
    · decide +kernel
    · rintro Q (rfl | ⟨now, worker, hmem⟩)
      · simp
      · simp_all
  refine ((longestMatch_of_history _ 2 0 "once upon a dime" hfree).2 ?_).trans ?_
  · simp [IndexOp.isEvict]
  · decide +kernel

end KvRoute
