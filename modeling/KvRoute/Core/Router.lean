import KvRoute.Core.Hashing
import KvRoute.Core.Inflight
import KvRoute.Core.Prefix
import KvRoute.Core.Request
import KvRoute.Lib.Interleaving

set_option relaxedAutoImplicit false
set_option autoImplicit false

/-!
# The router

Routing calls (`crates/router-core/src/router.rs`) as programs over the state that the router
shares with the background tasks: the registry, the round-robin counter, the prefix index and
the in-flight tracker.  Every access to one of them is one critical section, as it is in the
code: a snapshot of the registry under its lock, one block of the index under the lock of its
shard, one atomic counter.  Running a program alone gives the sequential meaning of the call;
running several programs in a pool gives the interleavings.

Clock readings are arguments: a call takes its `n`-th reading from `clock n`.  Rounding of
floating-point results and the hasher are parameters.

## Main definitions

* `KvRoute.Shared`, `KvRoute.Access`, `KvRoute.Program` — the shared state, the labels of
  critical sections, and the programs made of them.
* `Program.record`, `longestMatch`, `removeWorker` — the operations of the index, block by block
  and shard by shard.
* `KvRoute.Candidate`, `Candidate.cmp` — the sort key of cache-aware selection.
* `Router.pickBest`, `selectForChat`, `selectInPool` — the selection.

## Main results

* `Program.alone_record`, `alone_longestMatch`, `alone_removeWorker` — run alone, the programs are
  the operations of `PrefixIndex`.
* `Router.alone_pickBest` — picking changes only times in the index, and picks a candidate.
-/

namespace KvRoute

/-- The state behind the router's shared pointers. -/
structure Shared where
  /-- The worker registry. -/
  registry : WorkerRegistry
  /-- The round-robin counter. -/
  nextWorker : UInt64
  /-- The prefix index. -/
  prefixIndex : PrefixIndex
  /-- The in-flight tracker. -/
  inflight : InflightTracker

/-- The shared state of a freshly built server. -/
def Shared.new (config : RouterConfig) : Shared where
  registry := .fromConfig config.workers
  nextWorker := 0
  prefixIndex := .new
  inflight := .withCapacity config.workers.length

/-- What one critical section does to the shared state. -/
inductive Access where
  /-- `registry.healthy_workers()`, with what it returned. -/
  | snapshot (healthy : List Worker)
  /-- `next_worker.fetch_add(1)`. -/
  | ticket
  /-- One turn of the reading loop of `longest_match`. -/
  | lookup (worker : WorkerId) (hash : UInt64)
  /-- One turn of the touching loop of `longest_match`. -/
  | touch (hash : UInt64)
  /-- One turn of the loop of `record`. -/
  | write (worker : WorkerId) (hash : UInt64)
  /-- One turn of the loop of `remove_worker`. -/
  | purge (worker : WorkerId) (shard : Fin numShards)
  /-- `inflight.count(worker)`. -/
  | count (worker : WorkerId)
  /-- `registry.set_healthy(worker, healthy)`. -/
  | setHealthy (worker : WorkerId) (healthy : Bool)
  /-- The allocation of an id in `registry.register_worker`. -/
  | allocate
  /-- The insertion in `registry.register_worker`. -/
  | register (worker : WorkerId) (url : String) (pool : Pool)
  /-- `registry.remove_worker(worker)`. -/
  | unregister (worker : WorkerId)
  /-- `inflight.ensure_capacity(workers)`. -/
  | resize (workers : ℕ)
deriving DecidableEq

/-- A program over the shared state. -/
abbrev Program (α : Type) := Thread Shared Access α

namespace Program

/-! ## Single accesses -/

/-- Snapshot of the workers currently marked healthy. -/
def healthyWorkers : Program (List Worker) :=
  .critical (fun s => (s, s.registry.healthyWorkers)) .snapshot

/-- Take the next round-robin ticket. -/
def ticket : Program UInt64 :=
  .critical (fun s => ({ s with nextWorker := s.nextWorker + 1 }, s.nextWorker)) fun _ => .ticket

/-- The in-flight count of a worker. -/
def count (worker : WorkerId) : Program UInt64 :=
  .critical (fun s => (s, s.inflight.count worker)) fun _ => .count worker

/-- Whether the index lists a worker on a block. -/
def lookup (worker : WorkerId) (hash : UInt64) : Program Bool :=
  .critical (fun s => (s, s.prefixIndex.lists worker hash)) fun _ => .lookup worker hash

/-- Refresh the entry of a block. -/
def touch (now : Instant) (hash : UInt64) : Program Unit :=
  .critical (fun s => ({ s with prefixIndex := .touchBlock now s.prefixIndex hash }, ()))
    fun _ => .touch hash

/-- Enter a worker for a block. -/
def write (worker : WorkerId) (now : Instant) (hash : UInt64) : Program Unit :=
  .critical (fun s => ({ s with prefixIndex := .recordBlock worker now s.prefixIndex hash }, ()))
    fun _ => .write worker hash

/-- Purge a worker from one shard. -/
def purge (worker : WorkerId) (shard : Fin numShards) : Program Unit :=
  .critical (fun s => ({ s with prefixIndex := .purgeShard worker s.prefixIndex shard }, ()))
    fun _ => .purge worker shard

/-- Update a worker's health state; the answer says whether it changed. -/
def setHealthy (worker : WorkerId) (healthy : Bool) : Program Bool :=
  .critical (fun s => ({ s with registry := (s.registry.setHealthy worker healthy).1 },
    (s.registry.setHealthy worker healthy).2)) fun _ => .setHealthy worker healthy

/-- Take the next worker id. -/
def allocateId : Program WorkerId :=
  .critical (fun s => ({ s with registry := s.registry.allocateId.1 }, s.registry.allocateId.2))
    fun _ => .allocate

/-- Enter a worker under an allocated id. -/
def insertWorker (id : WorkerId) (url : String) (pool : Pool) : Program Unit :=
  .critical (fun s => ({ s with registry := s.registry.insertWorker id url pool }, ()))
    fun _ => .register id url pool

/-- Remove a worker from the registry. -/
def unregister (worker : WorkerId) : Program Unit :=
  .critical (fun s => ({ s with registry := (s.registry.removeWorker worker).1 }, ()))
    fun _ => .unregister worker

/-- Grow the in-flight tracker. -/
def ensureCapacity (workers : ℕ) : Program Unit :=
  .critical (fun s => ({ s with inflight := s.inflight.ensureCapacity workers }, ()))
    fun _ => .resize workers

/-! ## Operations of the index, section by section -/

/-- `record`: one write for each block, all with one clock reading. -/
def record (worker : WorkerId) (now : Instant) : List UInt64 → Program Unit
  | [] => pure ()
  | hash :: chain => do
    write worker now hash
    record worker now chain

/-- The reading loop of `longest_match`, which stops at the first block that misses. -/
def readMatched (worker : WorkerId) : List UInt64 → Program (List UInt64)
  | [] => pure []
  | hash :: chain => do
    let hit ← lookup worker hash
    if hit then
      let matched ← readMatched worker chain
      pure (hash :: matched)
    else pure []

/-- The touching loop of `longest_match`. -/
def touchAll (now : Instant) : List UInt64 → Program Unit
  | [] => pure ()
  | hash :: matched => do
    touch now hash
    touchAll now matched

/-- `longest_match`. -/
def longestMatch (worker : WorkerId) (now : Instant) (chain : List UInt64) : Program ℕ := do
  let matched ← readMatched worker chain
  touchAll now matched
  pure matched.length

/-- The loop of `remove_worker` over some shards. -/
def purgeAll (worker : WorkerId) : List (Fin numShards) → Program Unit
  | [] => pure ()
  | shard :: shards => do
    purge worker shard
    purgeAll worker shards

/-- `remove_worker`, on the index. -/
def removeWorker (worker : WorkerId) : Program Unit :=
  purgeAll worker (List.finRange numShards)

/-- `register_worker`. -/
def registerWorker (url : String) (pool : Pool) : Program WorkerId := do
  let id ← allocateId
  insertWorker id url pool
  pure id

end Program

/-! ## Selection -/

/-- The outcome of a routing decision. -/
structure RouteDecision where
  /-- The worker the request should be proxied to. -/
  worker : Worker
  /-- Matched prefix of the prompt's chain, measured before the request was recorded. -/
  matchedPrefixLen : ℕ
  /-- Number of blocks in the request's chain. -/
  promptBlocks : ℕ
  /-- Selection score, zero for policies that do not score. -/
  score : F64
deriving DecidableEq, Repr

/-- Sort key for cache-aware selection. -/
structure Candidate where
  /-- Higher scores win. -/
  score : F64
  /-- Ties break on fewer in-flight requests. -/
  inFlight : UInt64
  /-- Then on lower worker id. -/
  id : WorkerId
deriving DecidableEq, Repr

/-- The order of candidates; NaN is equal to anything. -/
def Candidate.cmp (a b : Candidate) : Ordering :=
  ((a.score.partialCmp b.score).getD .eq).then
    ((compare b.inFlight a.inFlight).then (compare b.id a.id))

/-- A candidate with what it was scored by. -/
structure ScoredWorker where
  /-- The worker. -/
  worker : Worker
  /-- Its matched prefix of the chain. -/
  matched : ℕ
  /-- Its sort key. -/
  candidate : Candidate
deriving DecidableEq, Repr

/-- The settings of a router, which never change. -/
structure Router where
  /-- The routing policy. -/
  policy : RoutingPolicy
  /-- Block size of the chains, at least one. -/
  blockSize : ℕ
  /-- Score multiplier for matched blocks. -/
  cacheWeight : F64
  /-- Score penalty per in-flight request. -/
  loadWeight : F64

namespace Router

/-- The router of a configuration. -/
def new (config : RouterConfig) : Router where
  policy := config.routingPolicy
  blockSize := max config.promptBlockChars 1
  cacheWeight := config.cacheWeight
  loadWeight := config.loadWeight

/-- The candidates of a chat request: workers labelled `both` are preferred; any healthy worker
will do if there are none. -/
def chatCandidates (healthy : List Worker) : List Worker :=
  if healthy.any fun w => w.pool = .both then healthy.filter fun w => w.pool = .both else healthy

/-- The candidates of one phase of a disaggregated request. -/
def poolCandidates (pool : Pool) (healthy : List Worker) : List Worker :=
  healthy.filter fun w => w.pool = pool

/-- Some worker is a candidate whenever some worker is healthy. -/
theorem chatCandidates_ne_nil {healthy : List Worker} (h : healthy ≠ []) :
    chatCandidates healthy ≠ [] := by
  unfold chatCandidates
  split_ifs with hboth
  · obtain ⟨w, hw, hpool⟩ := List.any_eq_true.mp hboth
    exact List.ne_nil_of_mem (List.mem_filter.mpr ⟨hw, hpool⟩)
  · exact h

theorem mem_of_mem_chatCandidates {healthy : List Worker} {w : Worker}
    (h : w ∈ chatCandidates healthy) : w ∈ healthy := by
  unfold chatCandidates at h
  split_ifs at h
  · exact (List.mem_filter.mp h).1
  · exact h

section Selection

variable (hasher : Option UInt64 → List Char → UInt64) (fl : F64.Rounding) (router : Router)

/-- `cache_hit_blocks * cache_weight - queued_requests * load_weight`. -/
def scoreWorker (worker : WorkerId) (matched : ℕ) : Program F64 := do
  let inFlight ← Program.count worker
  pure (F64.sub fl (F64.mul fl (F64.ofNat fl matched) router.cacheWeight)
    (F64.mul fl (F64.ofNat fl inFlight.toNat) router.loadWeight))

/-- Score one candidate. -/
def evaluate (chain : List UInt64) (now : Instant) (worker : Worker) : Program ScoredWorker := do
  let matched ← Program.longestMatch worker.id now chain
  let score ← router.scoreWorker fl worker.id matched
  let inFlight ← Program.count worker.id
  pure ⟨worker, matched, ⟨score, inFlight, worker.id⟩⟩

/-- Score every candidate. -/
def evaluateAll (chain : List UInt64) (clock : ℕ → Instant) :
    List Worker → Program (List ScoredWorker)
  | [] => pure []
  | worker :: workers => do
    let scored ← router.evaluate fl chain (clock 0) worker
    let rest ← evaluateAll chain (fun n => clock (n + 1)) workers
    pure (scored :: rest)

/-- Score every candidate and return the winner, if any. -/
def pickBest (clock : ℕ → Instant) (candidates : List Worker) (chain : List UInt64) :
    Program (Option ScoredWorker) := do
  let scored ← router.evaluateAll fl chain clock candidates
  pure (Slices.maxBy (fun a b => a.candidate.cmp b.candidate) scored)

/-- Score the candidates, record the chain against the winner, and decide; `error` is for the
case that there is no winner. -/
def selectBest (clock : ℕ → Instant) (candidates : List Worker) (chain : List UInt64)
    (error : RouterError) : Program (Except RouterError RouteDecision) := do
  match ← router.pickBest fl clock candidates chain with
  | none => pure (.error error)
  | some best =>
    Program.record best.worker.id (clock candidates.length) chain
    pure (.ok ⟨best.worker, best.matched, chain.length, best.candidate.score⟩)

/-- The next candidate in turn. -/
def selectInTurn (clock : ℕ → Instant) (candidates : List Worker) (hne : candidates ≠ [])
    (chain : List UInt64) : Program (Except RouterError RouteDecision) := do
  let ticket ← Program.ticket
  let worker := candidates.get
    ⟨ticket.toNat % candidates.length, Nat.mod_lt _ (List.length_pos_iff.mpr hne)⟩
  let matched ← Program.longestMatch worker.id (clock 0) chain
  Program.record worker.id (clock 1) chain
  pure (.ok ⟨worker, matched, chain.length, .finite 0⟩)

/-- Route a full chat-completion request. -/
def selectForChat (clock : ℕ → Instant) (request : ChatCompletionRequest) :
    Program (Except RouterError RouteDecision) := do
  let chain := chainHash hasher request.canonicalPrompt router.blockSize
  let healthy ← Program.healthyWorkers
  if hne : healthy = [] then
    pure (.error (.noHealthyWorkers (toString router.policy)))
  else
    let candidates := chatCandidates healthy
    match router.policy with
    | .roundRobin => selectInTurn clock candidates (chatCandidates_ne_nil hne) chain
    | .cacheAware =>
      router.selectBest fl clock candidates chain (.noHealthyWorkers (toString router.policy))
    | .disaggregated => pure (.error .disaggregatedRequiresTwoPhase)

/-- Select a worker from a specific pool: one phase of the disaggregated flow. -/
def selectInPool (clock : ℕ → Instant) (pool : Pool) (chain : List UInt64) :
    Program (Except RouterError RouteDecision) := do
  let healthy ← Program.healthyWorkers
  let candidates := poolCandidates pool healthy
  if candidates.isEmpty then
    pure (.error (.noHealthyWorkersInPool (toString pool) (toString router.policy)))
  else
    router.selectBest fl clock candidates chain
      (.noHealthyWorkersInPool (toString pool) (toString router.policy))

end Selection

end Router

/-! ## Programs run alone -/

section Alone

variable (s : Shared)

theorem Program.alone_record (worker : WorkerId) (now : Instant) (chain : List UInt64) :
    (Program.record worker now chain).alone s =
      ({ s with prefixIndex := s.prefixIndex.record now worker chain }, ()) := by
  induction chain generalizing s with
  | nil => rfl
  | cons hash chain ih =>
    rw [Program.record, Thread.alone_bind]
    exact ih _

theorem Program.alone_lookup_bind {α : Type} (worker : WorkerId) (hash : UInt64)
    (f : Bool → Program α) : (Program.lookup worker hash >>= f).alone s =
      (f (s.prefixIndex.lists worker hash)).alone s := rfl

theorem Program.alone_healthyWorkers_bind {α : Type} (f : List Worker → Program α) :
    (Program.healthyWorkers >>= f).alone s = (f s.registry.healthyWorkers).alone s := rfl

theorem Program.alone_ticket_bind {α : Type} (f : UInt64 → Program α) :
    (Program.ticket >>= f).alone s =
      (f s.nextWorker).alone { s with nextWorker := s.nextWorker + 1 } := rfl

theorem Program.alone_setHealthy_bind {α : Type} (worker : WorkerId) (healthy : Bool)
    (f : Bool → Program α) : (Program.setHealthy worker healthy >>= f).alone s =
      (f (s.registry.setHealthy worker healthy).2).alone
        { s with registry := (s.registry.setHealthy worker healthy).1 } := rfl

theorem Program.alone_readMatched (worker : WorkerId) (chain : List UInt64) :
    (Program.readMatched worker chain).alone s =
      (s, s.prefixIndex.matchedHashes worker chain) := by
  induction chain with
  | nil => rfl
  | cons hash chain ih =>
    rw [Program.readMatched, Program.alone_lookup_bind]
    by_cases hit : s.prefixIndex.lists worker hash = true
    · rw [if_pos hit, Thread.alone_bind, ih]
      simp [PrefixIndex.matchedHashes, List.takeWhile_cons_of_pos hit]
    · rw [if_neg hit]
      simp [PrefixIndex.matchedHashes, List.takeWhile_cons_of_neg hit]

theorem Program.alone_touchAll (now : Instant) (matched : List UInt64) :
    (Program.touchAll now matched).alone s =
      ({ s with prefixIndex := matched.foldl (PrefixIndex.touchBlock now) s.prefixIndex }, ()) := by
  induction matched generalizing s with
  | nil => rfl
  | cons hash matched ih =>
    rw [Program.touchAll, Thread.alone_bind]
    exact ih _

theorem Program.alone_longestMatch (worker : WorkerId) (now : Instant) (chain : List UInt64) :
    (Program.longestMatch worker now chain).alone s =
      ({ s with prefixIndex := (s.prefixIndex.longestMatch now worker chain).1 },
        (s.prefixIndex.longestMatch now worker chain).2) := by
  rw [Program.longestMatch, Thread.alone_bind, Program.alone_readMatched, Thread.alone_bind,
    Program.alone_touchAll]
  rfl

theorem Program.alone_purgeAll (worker : WorkerId) (shards : List (Fin numShards)) :
    (Program.purgeAll worker shards).alone s =
      ({ s with prefixIndex := shards.foldl (PrefixIndex.purgeShard worker) s.prefixIndex },
        ()) := by
  induction shards generalizing s with
  | nil => rfl
  | cons shard shards ih =>
    rw [Program.purgeAll, Thread.alone_bind]
    exact ih _

theorem Program.alone_removeWorker (worker : WorkerId) :
    (Program.removeWorker worker).alone s =
      ({ s with prefixIndex := s.prefixIndex.removeWorker worker }, ()) :=
  Program.alone_purgeAll s worker _

theorem Program.alone_registerWorker (url : String) (pool : Pool) :
    (Program.registerWorker url pool).alone s =
      ({ s with registry := (s.registry.registerWorker url pool).1 },
        (s.registry.registerWorker url pool).2) := rfl

/-- `s'` is `s` but for the times of index entries: nobody is registered, counted or listed
differently. -/
structure Shared.Touched (s s' : Shared) : Prop where
  /-- The registry is the same. -/
  registry_eq : s'.registry = s.registry
  /-- The round-robin counter is the same. -/
  nextWorker_eq : s'.nextWorker = s.nextWorker
  /-- The counters are the same. -/
  inflight_eq : s'.inflight = s.inflight
  /-- The same workers are listed on the same blocks. -/
  lists_eq : ∀ w h, s'.prefixIndex.lists w h = s.prefixIndex.lists w h

theorem Shared.Touched.refl : s.Touched s := ⟨rfl, rfl, rfl, fun _ _ => rfl⟩

variable {s}

theorem Shared.Touched.trans {s' s'' : Shared} (h : s.Touched s') (h' : s'.Touched s'') :
    s.Touched s'' :=
  ⟨h'.registry_eq.trans h.registry_eq, h'.nextWorker_eq.trans h.nextWorker_eq,
    h'.inflight_eq.trans h.inflight_eq, fun w b => (h'.lists_eq w b).trans (h.lists_eq w b)⟩

variable (s) {fl : F64.Rounding} {router : Router}

theorem Program.touched_longestMatch (worker : WorkerId) (now : Instant) (chain : List UInt64) :
    s.Touched ((Program.longestMatch worker now chain).alone s).1 := by
  rw [Program.alone_longestMatch]
  exact ⟨rfl, rfl, rfl, fun w b =>
    PrefixIndex.lists_longestMatch s.prefixIndex now worker w chain b⟩

namespace Router

/-- Scoring a candidate, run alone: its match, and the counts the tracker has. -/
theorem alone_evaluate (chain : List UInt64) (now : Instant) (worker : Worker) :
    s.Touched ((router.evaluate fl chain now worker).alone s).1 ∧
      ((router.evaluate fl chain now worker).alone s).2.worker = worker ∧
      ((router.evaluate fl chain now worker).alone s).2.matched =
        (s.prefixIndex.longestMatch now worker.id chain).2 := by
  rw [evaluate, Thread.alone_bind]
  refine ⟨Program.touched_longestMatch s worker.id now chain, rfl, ?_⟩
  exact congrArg Prod.snd (Program.alone_longestMatch s worker.id now chain)

/-- Scoring all candidates changes only times, and gives each of them a score. -/
theorem alone_evaluateAll (chain : List UInt64) (clock : ℕ → Instant) (workers : List Worker) :
    s.Touched ((router.evaluateAll fl chain clock workers).alone s).1 ∧
      ((router.evaluateAll fl chain clock workers).alone s).2.map (·.worker) = workers := by
  induction workers generalizing s clock with
  | nil => exact ⟨.refl s, rfl⟩
  | cons worker workers ih =>
    rw [evaluateAll, Thread.alone_bind, Thread.alone_bind]
    obtain ⟨htouched, hworker, -⟩ := @alone_evaluate s fl router chain (clock 0) worker
    obtain ⟨hrest, hworkers⟩ := ih ((router.evaluate fl chain (clock 0) worker).alone s).1
      fun n => clock (n + 1)
    refine ⟨htouched.trans hrest, ?_⟩
    rw [Thread.pure_eq_done, Thread.alone_done, List.map_cons, hworker, hworkers]

/-- Picking changes only times; it fails only without candidates, and picks a candidate. -/
theorem alone_pickBest (clock : ℕ → Instant) (candidates : List Worker) (chain : List UInt64) :
    s.Touched ((router.pickBest fl clock candidates chain).alone s).1 ∧
      (((router.pickBest fl clock candidates chain).alone s).2 = none ↔ candidates = []) ∧
      ∀ best, ((router.pickBest fl clock candidates chain).alone s).2 = some best →
        best.worker ∈ candidates := by
  obtain ⟨htouched, hworkers⟩ :=
    @alone_evaluateAll s fl router chain clock candidates
  rw [pickBest, Thread.alone_bind]
  refine ⟨htouched, ?_, fun best hbest => ?_⟩
  · rw [Thread.pure_eq_done, Thread.alone_done, Slices.maxBy_eq_none, ← List.map_eq_nil_iff,
      hworkers]
  · rw [← hworkers]
    exact List.mem_map_of_mem (Slices.mem_of_maxBy_eq_some hbest)

end Router

/-- What a routing call does, run alone: registry and counters stay, the worker it decides for is
entered against the whole chain, and nothing else is listed differently. -/
structure Shared.Routed (s : Shared) (candidates : List Worker) (chain : List UInt64)
    (result : Except RouterError RouteDecision) (s' : Shared) : Prop where
  /-- The registry is the same. -/
  registry_eq : s'.registry = s.registry
  /-- The counters are the same. -/
  inflight_eq : s'.inflight = s.inflight
  /-- A decision is for a candidate. -/
  chosen : ∀ d, result = .ok d → d.worker ∈ candidates
  /-- The decided worker is listed on the chain, and otherwise everything is as before. -/
  lists_iff : ∀ w h, s'.prefixIndex.lists w h = true ↔
    (∃ d, result = .ok d ∧ w = d.worker.id ∧ h ∈ chain) ∨ s.prefixIndex.lists w h = true

/-- A call that fails after changing only times. -/
theorem Shared.Touched.routed_error {s' : Shared} (h : s.Touched s') (candidates : List Worker)
    (chain : List UInt64) (error : RouterError) : s.Routed candidates chain (.error error) s' :=
  ⟨h.registry_eq, h.inflight_eq, nofun, fun w b => by simp [h.lists_eq w b]⟩

/-- A call that changes only times, then records its chain for a candidate and decides for it. -/
theorem Shared.routed_record {s' : Shared} {candidates : List Worker} {worker : Worker}
    (hregistry : s'.registry = s.registry) (hinflight : s'.inflight = s.inflight)
    (hlists : ∀ w h, s'.prefixIndex.lists w h = s.prefixIndex.lists w h)
    (hworker : worker ∈ candidates) (chain : List UInt64) (now : Instant) (matched blocks : ℕ)
    (score : F64) :
    s.Routed candidates chain (.ok ⟨worker, matched, blocks, score⟩)
      { s' with prefixIndex := s'.prefixIndex.record now worker.id chain } := by
  refine ⟨hregistry, hinflight, fun d hd => (Except.ok.inj hd) ▸ hworker, fun w h => ?_⟩
  rw [PrefixIndex.lists_record, hlists]
  constructor
  · rintro (⟨rfl, hc⟩ | hold)
    · exact Or.inl ⟨_, rfl, rfl, hc⟩
    · exact Or.inr hold
  · rintro (⟨d, hd, rfl, hc⟩ | hold)
    · exact Or.inl ⟨(Except.ok.inj hd) ▸ rfl, hc⟩
    · exact Or.inr hold

namespace Router

theorem routed_selectBest (clock : ℕ → Instant) (candidates : List Worker) (chain : List UInt64)
    (error : RouterError) :
    s.Routed candidates chain ((router.selectBest fl clock candidates chain error).alone s).2
      ((router.selectBest fl clock candidates chain error).alone s).1 := by
  obtain ⟨htouched, -, hchosen⟩ :=
    @alone_pickBest s fl router clock candidates chain
  rw [selectBest, Thread.alone_bind]
  cases hbest : ((router.pickBest fl clock candidates chain).alone s).2 with
  | none => exact htouched.routed_error s candidates chain error
  | some best =>
    dsimp only
    rw [Thread.alone_bind, Program.alone_record]
    exact s.routed_record htouched.registry_eq htouched.inflight_eq htouched.lists_eq
      (hchosen best hbest) chain _ _ _ _

/-- Selection in turn, run alone: it takes a ticket, refreshes what it matches and records the
chain for the worker whose turn it is. -/
theorem alone_selectInTurn (clock : ℕ → Instant) (candidates : List Worker)
    (hne : candidates ≠ []) (chain : List UInt64) :
    (selectInTurn clock candidates hne chain).alone s =
      let w := candidates.get ⟨s.nextWorker.toNat % candidates.length,
        Nat.mod_lt _ (List.length_pos_iff.mpr hne)⟩
      let hit := s.prefixIndex.longestMatch (clock 0) w.id chain
      ({ s with nextWorker := s.nextWorker + 1, prefixIndex := hit.1.record (clock 1) w.id chain },
        .ok ⟨w, hit.2, chain.length, .finite 0⟩) := by
  rw [selectInTurn, Program.alone_ticket_bind]
  dsimp only
  rw [Thread.alone_bind, Program.alone_longestMatch, Thread.alone_bind, Program.alone_record]
  rfl

theorem routed_selectInTurn (clock : ℕ → Instant) (candidates : List Worker)
    (hne : candidates ≠ []) (chain : List UInt64) :
    s.Routed candidates chain ((selectInTurn clock candidates hne chain).alone s).2
      ((selectInTurn clock candidates hne chain).alone s).1 := by
  rw [alone_selectInTurn]
  set worker := candidates.get ⟨s.nextWorker.toNat % candidates.length,
    Nat.mod_lt _ (List.length_pos_iff.mpr hne)⟩
  have htouched := Program.touched_longestMatch { s with nextWorker := s.nextWorker + 1 }
    worker.id (clock 0) chain
  rw [Program.alone_longestMatch] at htouched
  exact s.routed_record htouched.registry_eq htouched.inflight_eq htouched.lists_eq
    (List.get_mem _ _) chain _ _ _ _

/-- **A chat request, run alone.**  It decides for a healthy worker or fails, and records the
chain of its prompt for that worker. -/
theorem routed_selectForChat (hasher : Option UInt64 → List Char → UInt64)
    (clock : ℕ → Instant) (request : ChatCompletionRequest) :
    s.Routed (chatCandidates s.registry.healthyWorkers)
      (chainHash hasher request.canonicalPrompt router.blockSize)
      ((router.selectForChat hasher fl clock request).alone s).2
      ((router.selectForChat hasher fl clock request).alone s).1 := by
  rw [selectForChat, Program.alone_healthyWorkers_bind]
  by_cases hne : s.registry.healthyWorkers = []
  · rw [dif_pos hne]
    exact (Shared.Touched.refl s).routed_error s _ _ _
  · rw [dif_neg hne]
    cases router.policy with
    | roundRobin => exact routed_selectInTurn s clock _ _ _
    | cacheAware => exact routed_selectBest s clock _ _ _
    | disaggregated => exact (Shared.Touched.refl s).routed_error s _ _ _

/-- **One phase of a disaggregated request, run alone.** -/
theorem routed_selectInPool (clock : ℕ → Instant) (pool : Pool) (chain : List UInt64) :
    s.Routed (poolCandidates pool s.registry.healthyWorkers) chain
      ((router.selectInPool fl clock pool chain).alone s).2
      ((router.selectInPool fl clock pool chain).alone s).1 := by
  rw [selectInPool, Program.alone_healthyWorkers_bind]
  dsimp only
  split_ifs
  · exact (Shared.Touched.refl s).routed_error s _ _ _
  · exact routed_selectBest s clock _ _ _

end Router

end Alone

end KvRoute
