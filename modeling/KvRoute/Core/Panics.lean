import KvRoute.Core.Scoring
import KvRoute.Lib.Checked

set_option relaxedAutoImplicit false
set_option autoImplicit false

/-!
# The core with its panics

The operations of the core once more, now with every subtraction, remainder, index and chunk length
checked as the language checks it (`crates/router-core/src/{hashing,prefix,router}.rs`).  Each of
them has a value, namely that of the plain operation: the shards are addressed by the low six bits
of a hash, a filter does not grow a table, the overflow of the cap is computed only above the cap,
and the turn of a request is taken modulo a number of candidates that is not zero.

Sizes are natural numbers: that a collection fits into memory is not in question here.

## Main definitions

* `KvRoute.chainHashChecked` — the chain of a prompt.
* `PrefixIndex.recordChecked`, `longestMatchChecked`, `evictChecked` — the operations of the index.
* `Router.selectForChatChecked` — routing a chat request, run alone.

## Main results

* `KvRoute.chainHashChecked_eq`, `PrefixIndex.recordChecked_eq`, `longestMatchChecked_eq`,
  `evictChecked_eq`, `Router.selectForChatChecked_eq` — none of them panics.
-/

namespace KvRoute

/-- `chain_hash`. -/
def chainHashChecked (hasher : Option UInt64 → List Char → UInt64) (prompt : String)
    (blockSize : ℕ) : Checked (List UInt64) := do
  let blockSize := max blockSize 1
  let chars := prompt.toList
  let _ ← Checked.divCeil chars.length blockSize
  let blocks ← Checked.chunks blockSize chars
  pure (chainFrom hasher none blocks)

/-- The block size is at least one. -/
theorem chainHashChecked_eq (hasher : Option UInt64 → List Char → UInt64) (prompt : String)
    (blockSize : ℕ) :
    chainHashChecked hasher prompt blockSize = pure (chainHash hasher prompt blockSize) := by
  have hpos : 0 < max blockSize 1 := lt_max_of_lt_right one_pos
  rw [chainHashChecked, Checked.divCeil_eq hpos, Checked.chunks_eq hpos, pure_bind, pure_bind]
  rfl

namespace PrefixIndex

/-! ## The index -/

/-- `shard`: the number of the shard of a hash, as an index of the vector of shards. -/
def shardChecked (hash : UInt64) : Checked (Fin numShards) :=
  Checked.index (List.finRange numShards) (hash.toNat &&& (numShards - 1))

/-- The low bits of a hash address a shard. -/
theorem shardChecked_eq (hash : UInt64) : shardChecked hash = pure (shardOf hash) :=
  Checked.index_finRange _

/-- One turn of the loop of `record`. -/
def recordBlockChecked (worker : WorkerId) (now : Instant) (idx : PrefixIndex) (hash : UInt64) :
    Checked PrefixIndex := do
  let i ← shardChecked hash
  let entries := idx.shards i
  let entry := (entries.get hash).getD ⟨[], now⟩
  pure (idx.setShard i (entries.insert hash ⟨addWorker worker entry.workers, now⟩))

/-- `record`. -/
def recordChecked (idx : PrefixIndex) (now : Instant) (worker : WorkerId) (chain : List UInt64) :
    Checked PrefixIndex :=
  chain.foldlM (recordBlockChecked worker now) idx

theorem recordChecked_eq (idx : PrefixIndex) (now : Instant) (worker : WorkerId)
    (chain : List UInt64) :
    idx.recordChecked now worker chain = pure (idx.record now worker chain) := by
  refine Checked.foldlM_eq (fun idx hash => ?_) idx chain
  rw [recordBlockChecked, shardChecked_eq, pure_bind]
  rfl

/-- The reading loop of `longest_match`. -/
def readMatchedChecked (idx : PrefixIndex) (worker : WorkerId) :
    List UInt64 → Checked (List UInt64)
  | [] => pure []
  | hash :: chain => do
    let i ← shardChecked hash
    match (idx.shards i).get hash with
    | some entry =>
      if entry.workers.contains worker then
        let matched ← readMatchedChecked idx worker chain
        pure (hash :: matched)
      else pure []
    | none => pure []

theorem readMatchedChecked_eq (idx : PrefixIndex) (worker : WorkerId) (chain : List UInt64) :
    idx.readMatchedChecked worker chain = pure (idx.matchedHashes worker chain) := by
  induction chain with
  | nil => rfl
  | cons hash chain ih =>
    rw [readMatchedChecked, shardChecked_eq, pure_bind, ih, pure_bind]
    have hstep : idx.matchedHashes worker (hash :: chain) =
        if idx.lists worker hash then hash :: idx.matchedHashes worker chain else [] :=
      List.takeWhile_cons
    rw [hstep, lists, shard]
    cases (idx.shards (shardOf hash)).get hash with
    | none => rfl
    | some entry =>
      dsimp only
      split_ifs <;> rfl

/-- One turn of the touching loop of `longest_match`. -/
def touchBlockChecked (now : Instant) (idx : PrefixIndex) (hash : UInt64) :
    Checked PrefixIndex := do
  let i ← shardChecked hash
  match (idx.shards i).get hash with
  | some entry =>
    pure (idx.setShard i ((idx.shards i).insert hash { entry with lastTouched := now }))
  | none => pure idx

theorem touchBlockChecked_eq (now : Instant) (idx : PrefixIndex) (hash : UInt64) :
    touchBlockChecked now idx hash = pure (touchBlock now idx hash) := by
  rw [touchBlockChecked, shardChecked_eq, pure_bind, touchBlock, shard]
  cases (idx.shards (shardOf hash)).get hash <;> rfl

/-- `longest_match`. -/
def longestMatchChecked (idx : PrefixIndex) (now : Instant) (worker : WorkerId)
    (chain : List UInt64) : Checked (PrefixIndex × ℕ) := do
  let matched ← idx.readMatchedChecked worker chain
  let touched ← matched.foldlM (touchBlockChecked now) idx
  pure (touched, matched.length)

theorem longestMatchChecked_eq (idx : PrefixIndex) (now : Instant) (worker : WorkerId)
    (chain : List UInt64) :
    idx.longestMatchChecked now worker chain = pure (idx.longestMatch now worker chain) := by
  rw [longestMatchChecked, readMatchedChecked_eq, pure_bind,
    Checked.foldlM_eq (touchBlockChecked_eq now), pure_bind]
  rfl

/-- One turn of the expiry loop of `evict`. -/
def expireShardChecked (now : Instant) (ttl : Duration) (acc : PrefixIndex × ℕ)
    (i : Fin numShards) : Checked (PrefixIndex × ℕ) := do
  let entries := acc.1.shards i
  let before := entries.len
  let kept := entries.retain fun _ entry => keepFresh now ttl entry
  let gone ← Checked.sub before kept.len
  pure (acc.1.setShard i kept, acc.2 + gone)

/-- A filter does not grow the table. -/
theorem expireShardChecked_eq (now : Instant) (ttl : Duration) (acc : PrefixIndex × ℕ)
    (i : Fin numShards) :
    expireShardChecked now ttl acc i = pure (expireShard now ttl acc i) := by
  rw [expireShardChecked, Checked.sub_eq (HashTable.len_retain_le _ _), pure_bind]
  rfl

/-- One turn of the removal loop of `evict`. -/
def removeOldestChecked (acc : PrefixIndex × ℕ) (e : Instant × UInt64 × Fin numShards) :
    Checked (PrefixIndex × ℕ) := do
  let i ← Checked.index (List.finRange numShards) e.2.2.val
  let entries := acc.1.shards i
  pure (acc.1.setShard i (entries.remove e.2.1),
    if entries.containsKey e.2.1 then acc.2 + 1 else acc.2)

/-- The shard numbers come from the collecting loop. -/
theorem removeOldestChecked_eq (acc : PrefixIndex × ℕ)
    (e : Instant × UInt64 × Fin numShards) :
    removeOldestChecked acc e = pure (removeOldest acc e) := by
  rw [removeOldestChecked, Checked.index_finRange e.2.2.isLt, pure_bind]
  rfl

/-- `evict`. -/
def evictChecked (order : IterOrder (UInt64 × IndexEntry)) (idx : PrefixIndex) (now : Instant)
    (ttl : Duration) (maxEntries : ℕ) : Checked (PrefixIndex × EvictionStats) := do
  let (idx, expired) ← (List.finRange numShards).foldlM (expireShardChecked now ttl) (idx, 0)
  let total := idx.len
  if total ≤ maxEntries then pure (idx, { expired, lruEvicted := 0 })
  else
    let overflow ← Checked.sub total maxEntries
    let oldest := sortByAge (idx.ages order)
    let (idx, lruEvicted) ← (oldest.take overflow).foldlM removeOldestChecked (idx, 0)
    pure (idx, { expired, lruEvicted })

theorem evictChecked_eq (order : IterOrder (UInt64 × IndexEntry)) (idx : PrefixIndex)
    (now : Instant) (ttl : Duration) (maxEntries : ℕ) :
    idx.evictChecked order now ttl maxEntries = pure (idx.evict order now ttl maxEntries) := by
  rw [evictChecked, Checked.foldlM_eq (expireShardChecked_eq now ttl), pure_bind, evict, expire]
  dsimp only
  split_ifs with hfits
  · rfl
  · rw [Checked.sub_eq (not_le.mp hfits).le, pure_bind,
      Checked.foldlM_eq removeOldestChecked_eq, pure_bind]

end PrefixIndex

namespace Router

/-! ## The router -/

section Selection

variable (hasher : Option UInt64 → List Char → UInt64) (fl : F64.Rounding) (router : Router)

/-- Score one candidate. -/
def evaluateChecked (chain : List UInt64) (now : Instant) (worker : Worker) (s : Shared) :
    Checked (Shared × ScoredWorker) := do
  let (prefixIndex, matched) ← s.prefixIndex.longestMatchChecked now worker.id chain
  let inFlight := s.inflight.count worker.id
  pure ({ s with prefixIndex },
    ⟨worker, matched, ⟨router.score fl matched inFlight.toNat, inFlight, worker.id⟩⟩)

/-- Score every candidate. -/
def evaluateAllChecked (chain : List UInt64) (clock : ℕ → Instant) :
    List Worker → Shared → Checked (Shared × List ScoredWorker)
  | [], s => pure (s, [])
  | worker :: workers, s => do
    let (s, scored) ← router.evaluateChecked fl chain (clock 0) worker s
    let (s, rest) ← evaluateAllChecked chain (fun n => clock (n + 1)) workers s
    pure (s, scored :: rest)

/-- The cache-aware arm of `select_for_chat`. -/
def selectBestChecked (clock : ℕ → Instant) (candidates : List Worker) (chain : List UInt64)
    (error : RouterError) (s : Shared) :
    Checked (Shared × Except RouterError RouteDecision) := do
  let (s, scored) ← router.evaluateAllChecked fl chain clock candidates s
  match Slices.maxBy (fun a b => a.candidate.cmp b.candidate) scored with
  | none => pure (s, .error error)
  | some best =>
    let prefixIndex ←
      s.prefixIndex.recordChecked (clock candidates.length) best.worker.id chain
    pure ({ s with prefixIndex },
      .ok ⟨best.worker, best.matched, chain.length, best.candidate.score⟩)

/-- The round-robin arm of `select_for_chat`. -/
def selectInTurnChecked (clock : ℕ → Instant) (candidates : List Worker) (chain : List UInt64)
    (s : Shared) : Checked (Shared × Except RouterError RouteDecision) := do
  let index ← Checked.rem s.nextWorker.toNat candidates.length
  let worker ← Checked.index candidates index
  let (prefixIndex, matched) ← s.prefixIndex.longestMatchChecked (clock 0) worker.id chain
  let prefixIndex ← prefixIndex.recordChecked (clock 1) worker.id chain
  pure ({ s with prefixIndex, nextWorker := s.nextWorker + 1 },
    .ok ⟨worker, matched, chain.length, .finite 0⟩)

/-- `select_for_chat`. -/
def selectForChatChecked (clock : ℕ → Instant) (request : ChatCompletionRequest) (s : Shared) :
    Checked (Shared × Except RouterError RouteDecision) := do
  let chain ← chainHashChecked hasher request.canonicalPrompt router.blockSize
  let healthy := s.registry.healthyWorkers
  if healthy = [] then pure (s, .error (.noHealthyWorkers (toString router.policy)))
  else
    let candidates := chatCandidates healthy
    match router.policy with
    | .roundRobin => selectInTurnChecked clock candidates chain s
    | .cacheAware =>
      router.selectBestChecked fl clock candidates chain
        (.noHealthyWorkers (toString router.policy)) s
    | .disaggregated => pure (s, .error .disaggregatedRequiresTwoPhase)

variable {fl router}

theorem evaluateChecked_eq (chain : List UInt64) (now : Instant) (worker : Worker) (s : Shared) :
    router.evaluateChecked fl chain now worker s =
      pure ((router.evaluate fl chain now worker).alone s) := by
  rw [evaluateChecked, PrefixIndex.longestMatchChecked_eq, pure_bind, evaluate, Thread.alone_bind,
    Program.alone_longestMatch]
  rfl

theorem evaluateAllChecked_eq (chain : List UInt64) (clock : ℕ → Instant) (workers : List Worker)
    (s : Shared) : router.evaluateAllChecked fl chain clock workers s =
      pure ((router.evaluateAll fl chain clock workers).alone s) := by
  induction workers generalizing clock s with
  | nil => rfl
  | cons worker workers ih =>
    rw [evaluateAllChecked, evaluateChecked_eq, pure_bind, evaluateAll, Thread.alone_bind,
      Thread.alone_bind]
    dsimp only
    rw [ih, pure_bind]
    rfl

theorem selectBestChecked_eq (clock : ℕ → Instant) (candidates : List Worker)
    (chain : List UInt64) (error : RouterError) (s : Shared) :
    router.selectBestChecked fl clock candidates chain error s =
      pure ((router.selectBest fl clock candidates chain error).alone s) := by
  rw [selectBestChecked, evaluateAllChecked_eq, pure_bind, selectBest, Thread.alone_bind, pickBest,
    Thread.alone_bind, Thread.pure_eq_done, Thread.alone_done]
  dsimp only
  cases Slices.maxBy (fun a b => a.candidate.cmp b.candidate)
      ((router.evaluateAll fl chain clock candidates).alone s).2 with
  | none => rfl
  | some best =>
    dsimp only
    rw [PrefixIndex.recordChecked_eq, pure_bind, Thread.alone_bind, Program.alone_record]
    rfl

/-- There is a candidate, so the turn is one of the candidates' positions. -/
theorem selectInTurnChecked_eq (clock : ℕ → Instant) {candidates : List Worker}
    (hne : candidates ≠ []) (chain : List UInt64) (s : Shared) :
    selectInTurnChecked clock candidates chain s =
      pure ((selectInTurn clock candidates hne chain).alone s) := by
  have hpos : 0 < candidates.length := List.length_pos_iff.mpr hne
  rw [selectInTurnChecked, Checked.rem_eq hpos, pure_bind,
    Checked.index_eq (Nat.mod_lt _ hpos), pure_bind, PrefixIndex.longestMatchChecked_eq, pure_bind]
  dsimp only
  rw [PrefixIndex.recordChecked_eq, pure_bind, alone_selectInTurn]
  rfl

/-- **Routing a chat request never panics.** -/
theorem selectForChatChecked_eq (hasher : Option UInt64 → List Char → UInt64)
    (clock : ℕ → Instant) (request : ChatCompletionRequest) (s : Shared) :
    router.selectForChatChecked hasher fl clock request s =
      pure ((router.selectForChat hasher fl clock request).alone s) := by
  rw [selectForChatChecked, chainHashChecked_eq, pure_bind, selectForChat,
    Program.alone_healthyWorkers_bind]
  dsimp only
  by_cases hup : s.registry.healthyWorkers = []
  · rw [if_pos hup, dif_pos hup]
    rfl
  · rw [if_neg hup, dif_neg hup]
    cases router.policy with
    | roundRobin => exact selectInTurnChecked_eq clock (chatCandidates_ne_nil hup) _ s
    | cacheAware => exact selectBestChecked_eq clock _ _ _ s
    | disaggregated => rfl

end Selection

end Router

end KvRoute
