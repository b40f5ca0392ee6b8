import Mathlib.Data.Rat.Floor
import KvRoute.Core.Panics
import KvRoute.Core.PrefixRuns

set_option relaxedAutoImplicit false
set_option autoImplicit false

/-!
# The native Python module

The bindings that Python sees (`crates/router-py/src/lib.rs`): a prefix index and a router whose
arguments are checked when they are built, and whose calls raise exceptions.  A call may also end
in a panic of the core, which reaches Python as an exception of its own kind; the two are kept
apart here.

The order in which a set of workers is iterated and the clock readings are arguments of the calls.

## Main definitions

* `KvRoute.PyError`, `KvRoute.Native` — the exceptions, and what a call ends with.
* `Duration.fromSecsF64` — the conversion of a number of seconds.
* `KvRoute.PyPrefixIndex`, `KvRoute.PyRouter` — the two classes with their constructors and methods.
* `KvRoute.PyIndexCall`, `KvRoute.PyRouterCall` — their calls.

## Main results

* `PyRouter.decide_eq` — a routing call is `select_for_chat` on the core router of its policy.
-/

namespace KvRoute

/-! ## Outcomes -/

/-- The exceptions that the bindings raise. -/
inductive PyError where
  /-- The base of the hierarchy. -/
  | kvRouterError (message : String)
  /-- No worker to route to. -/
  | noHealthyWorkersError (message : String)
  /-- A policy that cannot be served in process. -/
  | policyError (message : String)
  /-- `ValueError`. -/
  | valueError (message : String)
deriving DecidableEq, Repr

/-- Map a core routing error to the Python exception hierarchy. -/
def toPyError (error : RouterError) : PyError :=
  match error with
  | .noHealthyWorkers _ | .noHealthyWorkersInPool _ _ => .noHealthyWorkersError (toString error)
  | .disaggregatedRequiresTwoPhase | .policyNotImplemented _ => .policyError (toString error)
  | .kvTransfer .. | .config _ => .kvRouterError (toString error)

/-- `parse_policy`. -/
def parsePolicy (policy : String) : Except PyError RoutingPolicy :=
  if policy = "round_robin" then .ok .roundRobin
  else if policy = "cache_aware" then .ok .cacheAware
  else if policy = "disaggregated" then
    .error (.policyError ("policy `disaggregated` needs the two-phase server flow (prefill -> " ++
      "KV transfer -> decode); use the HTTP router for it"))
  else
    .error (.policyError s!"unknown policy `{policy}`; expected `round_robin` or `cache_aware`")

/-- What a call ends with if it does not return. -/
inductive Raised where
  /-- An exception of the bindings. -/
  | exception (error : PyError)
  /-- A panic of the core. -/
  | panicked (panic : Panic)
deriving DecidableEq, Repr

/-- The outcome of a call. -/
abbrev Native (α : Type) := Except Raised α

namespace Native

variable {α : Type}

/-- Raise an exception. -/
def raise (error : PyError) : Native α := .error (.exception error)

/-- Run a computation of the core. -/
def ofChecked : Checked α → Native α
  | .ok a => .ok a
  | .error panic => .error (.panicked panic)

/-- The call ended in a panic. -/
def Panics (result : Native α) : Prop := ∃ panic, result = .error (.panicked panic)

@[simp] theorem ofChecked_pure (a : α) : ofChecked (pure a) = pure a := rfl

theorem not_panics_pure (a : α) : ¬Panics (pure a : Native α) := nofun

theorem not_panics_raise (error : PyError) : ¬Panics (raise error : Native α) := nofun

end Native

/-- The nearest natural number, the even one of two. -/
def roundHalfEven (q : ℚ) : ℕ :=
  let n := ⌊q⌋.toNat
  if q - n < 1 / 2 then n else if 1 / 2 < q - n then n + 1 else if n % 2 = 0 then n else n + 1

/-- `Duration::from_secs_f64`, in nanoseconds. -/
def Duration.fromSecsF64 (secs : F64) : Checked Duration :=
  match secs with
  | .finite q => if 0 ≤ q ∧ q < 2 ^ 64 then pure (roundHalfEven (q * 10 ^ 9)) else throw .duration
  | .posInf | .negInf | .nan => throw .duration

/-! ## The prefix index -/

/-- Python-facing view of the router-side prefix index. -/
structure PyPrefixIndex where
  /-- The index. -/
  inner : PrefixIndex
  /-- Block size of the chains. -/
  blockSize : ℕ
  /-- The time limit of `evict_stale`. -/
  ttl : Duration
  /-- The cap of `evict_stale`. -/
  maxEntries : ℕ
  /-- The workers that have ever been inserted. -/
  workers : HashTable WorkerId Unit

namespace PyPrefixIndex

/-- `PrefixIndex(block_size, ttl_seconds, max_entries)`. -/
def new (blockSize : ℕ) (ttlSeconds : F64) (maxEntries : ℕ) : Native PyPrefixIndex :=
  if blockSize = 0 then Native.raise (.valueError "block_size must be >= 1")
  else if !ttlSeconds.isFinite || ttlSeconds.partialCmp (.finite 0) = some .lt then
    Native.raise (.valueError "ttl_seconds must be a finite, non-negative number")
  else do
    let ttl ← Native.ofChecked (Duration.fromSecsF64 ttlSeconds)
    pure { inner := .new, blockSize, ttl, maxEntries, workers := .empty }

variable (hasher : Option UInt64 → List Char → UInt64)

/-- Record that `workerId` now holds every block of `prompt`. -/
def insert (index : PyPrefixIndex) (now : Instant) (workerId : UInt64) (prompt : String) :
    Checked PyPrefixIndex := do
  let chain ← chainHashChecked hasher prompt index.blockSize
  let inner ← index.inner.recordChecked now workerId.toNat chain
  pure { index with inner, workers := index.workers.insert workerId.toNat () }

/-- One match for each worker of a list. -/
def matchAll (chain : List UInt64) (clock : ℕ → Instant) :
    List WorkerId → PrefixIndex → Checked (PrefixIndex × List (WorkerId × ℕ))
  | [], inner => pure (inner, [])
  | worker :: workers, inner => do
    let (inner, matched) ← inner.longestMatchChecked (clock 0) worker chain
    let (inner, rest) ← matchAll chain (fun n => clock (n + 1)) workers inner
    pure (inner, (worker, matched) :: rest)

/-- For every worker that has ever been inserted its match of `prompt`, sorted by worker. -/
def lookup (order : IterOrder WorkerId) (index : PyPrefixIndex) (clock : ℕ → Instant)
    (prompt : String) : Checked (PyPrefixIndex × List (WorkerId × ℕ)) := do
  let chain ← chainHashChecked hasher prompt index.blockSize
  let workerIds := order.arrange index.workers.keys
  let (inner, found) ← matchAll chain clock workerIds index.inner
  pure ({ index with inner }, found.insertionSort fun a b => a.1 ≤ b.1)

/-- Apply TTL expiry and the LRU cap. -/
def evictStale (order : IterOrder (UInt64 × IndexEntry)) (index : PyPrefixIndex) (now : Instant) :
    Checked (PyPrefixIndex × ℕ × ℕ) := do
  let (inner, stats) ← index.inner.evictChecked order now index.ttl index.maxEntries
  pure ({ index with inner }, stats.expired, stats.lruEvicted)

/-- `len(index)`. -/
def len (index : PyPrefixIndex) : ℕ := index.inner.len

end PyPrefixIndex

/-- A call on a prefix index. -/
inductive PyIndexCall where
  /-- `insert(worker_id, prompt)`. -/
  | insert (now : Instant) (workerId : UInt64) (prompt : String)
  /-- `lookup(prompt)`. -/
  | lookup (order : IterOrder WorkerId) (clock : ℕ → Instant) (prompt : String)
  /-- `evict_stale()`. -/
  | evictStale (order : IterOrder (UInt64 × IndexEntry)) (now : Instant)
  /-- `len(index)`. -/
  | len

/-- What a call on a prefix index returns. -/
inductive PyIndexReply where
  /-- `None`. -/
  | none
  /-- The matches of the workers. -/
  | matches (rows : List (WorkerId × ℕ))
  /-- The counts of a sweep. -/
  | evicted (expired lruEvicted : ℕ)
  /-- The number of entries. -/
  | len (entries : ℕ)
deriving DecidableEq, Repr

/-- What a call on a prefix index does. -/
def PyPrefixIndex.perform (hasher : Option UInt64 → List Char → UInt64) (index : PyPrefixIndex)
    (call : PyIndexCall) : Checked (PyPrefixIndex × PyIndexReply) :=
  match call with
  | .insert now workerId prompt => do
    let index ← index.insert hasher now workerId prompt
    pure (index, .none)
  | .lookup order clock prompt => do
    let (index, rows) ← index.lookup hasher order clock prompt
    pure (index, .matches rows)
  | .evictStale order now => do
    let (index, expired, lruEvicted) ← index.evictStale order now
    pure (index, .evicted expired lruEvicted)
  | .len => pure (index, .len index.len)

/-- One call on a prefix index. -/
def PyPrefixIndex.call (hasher : Option UInt64 → List Char → UInt64) (index : PyPrefixIndex)
    (call : PyIndexCall) : PyPrefixIndex × Native PyIndexReply :=
  match index.perform hasher call with
  | .ok (index, reply) => (index, pure reply)
  | .error panic => (index, .error (.panicked panic))

/-! ## The router -/

/-- A core router: its settings, and the state behind it. -/
structure PolicyRouter where
  /-- The settings. -/
  settings : Router
  /-- The state. -/
  state : Shared

/-- Python-facing router: a worker registry and one core router for each policy. -/
structure PyRouter where
  /-- The workers. -/
  registry : WorkerRegistry
  /-- The configuration that core routers are built from, but for the policy. -/
  baseConfig : RouterConfig
  /-- The core routers that have been built. -/
  routers : HashTable RoutingPolicy PolicyRouter

/-- The outcome of one routing decision. -/
structure PyRouteDecision where
  /-- The worker's URL. -/
  worker : String
  /-- Matched prefix of the prompt's chain. -/
  matchedBlocks : ℕ
  /-- Number of blocks of the chain. -/
  promptBlocks : ℕ
  /-- The selection score. -/
  score : F64
deriving DecidableEq, Repr

namespace PyRouter

/-- The configuration that a router is built with. -/
def config (workers : List String) (cacheWeight loadWeight : F64) (blockSize : ℕ) :
    RouterConfig where
  workers := workers.map fun url => ⟨url, .both⟩
  routingPolicy := .roundRobin
  promptBlockChars := blockSize
  cacheWeight := cacheWeight
  loadWeight := loadWeight
  prefixIndexTtlSecs := 300
  prefixIndexMaxEntries := 100000

/-- The registry of a configuration, with every worker marked healthy. -/
def healthyRegistry (workers : List WorkerConfig) : WorkerRegistry :=
  (List.range workers.length).foldl (fun registry index => (registry.setHealthy index true).1)
    (.fromConfig workers)

/-- `Router(workers, cache_weight, load_weight, block_size)`. -/
def new (workers : List String) (cacheWeight loadWeight : F64) (blockSize : ℕ) :
    Native PyRouter :=
  if workers.isEmpty then Native.raise (.kvRouterError "`workers` must not be empty")
  else if blockSize = 0 then Native.raise (.valueError "block_size must be >= 1")
  else
    let config := config workers cacheWeight loadWeight blockSize
    pure { registry := healthyRegistry config.workers, baseConfig := config, routers := .empty }

/-- A core router as `Router::new` builds it. -/
def buildRouter (router : PyRouter) (policy : RoutingPolicy) : PolicyRouter :=
  let config := { router.baseConfig with routingPolicy := policy }
  { settings := .new config
    state :=
      { registry := router.registry
        nextWorker := 0
        prefixIndex := .new
        inflight := .withCapacity config.workers.length } }

/-- The core router of a policy, built when it is first asked for. -/
def getOrCreate (router : PyRouter) (policy : RoutingPolicy) : PyRouter × PolicyRouter :=
  match router.routers.get policy with
  | some built => (router, built)
  | none =>
    let built := router.buildRouter policy
    ({ router with routers := router.routers.insert policy built }, built)

section Calls

variable (hasher : Option UInt64 → List Char → UInt64) (fl : F64.Rounding)

/-- `decide`. -/
def decide (router : PyRouter) (clock : ℕ → Instant) (prompt policy : String) :
    PyRouter × Native RouteDecision :=
  match parsePolicy policy with
  | .error error => (router, Native.raise error)
  | .ok policy =>
    let (router, built) := router.getOrCreate policy
    let request : ChatCompletionRequest := ⟨[⟨"user", prompt⟩]⟩
    match built.settings.selectForChatChecked hasher fl clock request built.state with
    | .error panic => (router, .error (.panicked panic))
    | .ok (state, result) =>
      ({ router with routers := router.routers.insert policy { built with state } },
        match result with
        | .ok decision => pure decision
        | .error error => Native.raise (toPyError error))

/-- `select_worker(prompt, policy)`. -/
def selectWorker (router : PyRouter) (clock : ℕ → Instant) (prompt policy : String) :
    PyRouter × Native String :=
  let (router, result) := router.decide hasher fl clock prompt policy
  (router, do
    let decision ← result
    pure decision.worker.url)

/-- `route(prompt, policy)`. -/
def route (router : PyRouter) (clock : ℕ → Instant) (prompt policy : String) :
    PyRouter × Native PyRouteDecision :=
  let (router, result) := router.decide hasher fl clock prompt policy
  (router, do
    let decision ← result
    pure ⟨decision.worker.url, decision.matchedPrefixLen, decision.promptBlocks, decision.score⟩)

end Calls

/-- The core router of a policy: the one that has been built, or a new one. -/
def built (router : PyRouter) (policy : RoutingPolicy) : PolicyRouter :=
  (router.routers.get policy).getD (router.buildRouter policy)

theorem getOrCreate_snd (router : PyRouter) (policy : RoutingPolicy) :
    (router.getOrCreate policy).2 = router.built policy := by
  rw [getOrCreate, built]
  cases router.routers.get policy <;> rfl

/-- Routing a prompt on the core router of its policy, run alone. -/
def selected (hasher : Option UInt64 → List Char → UInt64) (fl : F64.Rounding) (router : PyRouter)
    (clock : ℕ → Instant) (prompt : String) (policy : RoutingPolicy) :
    Shared × Except RouterError RouteDecision :=
  ((router.built policy).settings.selectForChat hasher fl clock ⟨[⟨"user", prompt⟩]⟩).alone
    (router.built policy).state

section Decide

variable {hasher : Option UInt64 → List Char → UInt64} {fl : F64.Rounding} {router : PyRouter}
  {clock : ℕ → Instant} {prompt name : String} {policy : RoutingPolicy}

/-- **A routing call** is `select_for_chat` on the core router of its policy, whose new state it
keeps. -/
theorem decide_eq (hpolicy : parsePolicy name = .ok policy) :
    router.decide hasher fl clock prompt name =
      ({ (router.getOrCreate policy).1 with
          routers := (router.getOrCreate policy).1.routers.insert policy
            { router.built policy with
              state := (router.selected hasher fl clock prompt policy).1 } },
        match (router.selected hasher fl clock prompt policy).2 with
        | .ok decision => pure decision
        | .error error => Native.raise (toPyError error)) := by
  rw [decide, hpolicy]
  dsimp only
  rw [getOrCreate_snd, Router.selectForChatChecked_eq]
  rfl

/-- The call leaves a core router of the policy with the new state. -/
theorem built_decide (hpolicy : parsePolicy name = .ok policy) :
    (router.decide hasher fl clock prompt name).1.built policy =
      { router.built policy with
        state := (router.selected hasher fl clock prompt policy).1 } := by
  rw [decide_eq hpolicy, built, HashTable.get_insert_self, Option.getD_some]

/-- A policy that cannot be served raises. -/
theorem decide_of_error {error : PyError} (hpolicy : parsePolicy name = .error error) :
    router.decide hasher fl clock prompt name = (router, Native.raise error) := by
  rw [decide, hpolicy]

end Decide

end PyRouter

/-- A call on a router. -/
inductive PyRouterCall where
  /-- `route(prompt, policy)`. -/
  | route (clock : ℕ → Instant) (prompt policy : String)
  /-- `select_worker(prompt, policy)`. -/
  | selectWorker (clock : ℕ → Instant) (prompt policy : String)

/-- What a call on a router returns. -/
inductive PyRouterReply where
  /-- A decision. -/
  | decision (decision : PyRouteDecision)
  /-- A URL. -/
  | url (url : String)
deriving DecidableEq, Repr

/-- One call on a router. -/
def PyRouter.call (hasher : Option UInt64 → List Char → UInt64) (fl : F64.Rounding)
    (router : PyRouter) (call : PyRouterCall) : PyRouter × Native PyRouterReply :=
  match call with
  | .route clock prompt policy =>
    let (router, result) := router.route hasher fl clock prompt policy
    (router, .decision <$> result)
  | .selectWorker clock prompt policy =>
    let (router, result) := router.selectWorker hasher fl clock prompt policy
    (router, .url <$> result)

end KvRoute
