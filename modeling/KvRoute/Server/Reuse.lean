import KvRoute.Server.Dispatch

set_option relaxedAutoImplicit false
set_option autoImplicit false

/-!
# Reuse over the turns of a conversation

The prompt of a conversation is a prefix of the prompt of each of its continuations, so the full
blocks of the first are blocks of the second, with the same hashes.  A worker that was sent the
conversation is therefore matched on all of them when the next turn comes, whatever the server has
done in the meantime, as long as it has kept the worker's entries.

## Main definitions

* `KvRoute.Traffic`, `Server.handle` — what happens on the server, guards included.
* `KvRoute.Spares` — a step that neither purges nor evicts a worker from given blocks.

## Main results

* `KvRoute.chainHash_take_continuation` — the chains of a conversation and of a continuation agree
  on the full blocks of the first.
* `KvRoute.conversation_reused` — these blocks are matched in the next turn.
-/

namespace KvRoute

/-! ## Chains of continuations -/

section Chains

variable (hasher : Option UInt64 → List Char → UInt64) (messages continuation : List ChatMessage)
  (blockSize : ℕ)

/-- The number of full blocks of a conversation's prompt. -/
def fullBlocks : ℕ :=
  (ChatCompletionRequest.canonicalPrompt ⟨messages⟩).length / blockSize

/-- The chain of a conversation. -/
def conversationChain : List UInt64 :=
  chainHash hasher (ChatCompletionRequest.canonicalPrompt ⟨messages⟩) blockSize

/-- **Chains of continuations.**  The chain of a conversation has a hash for each full block, and
the chain of every continuation begins with these hashes.

**Proof sketch.** The prompt is a prefix of the continuation's, full chunks of a prefix are chunks
of the whole (`Slices.take_chunks_of_prefix`), and the head of a chain depends on the blocks of
this head only. -/
theorem chainHash_take_continuation :
    fullBlocks messages blockSize ≤ (conversationChain hasher messages blockSize).length ∧
      (conversationChain hasher messages blockSize).take (fullBlocks messages blockSize) =
        (conversationChain hasher (messages ++ continuation) blockSize).take
          (fullBlocks messages blockSize) := by
  rcases Nat.eq_zero_or_pos blockSize with rfl | hpos
  · simp [fullBlocks]
  · have hsize : max blockSize 1 = blockSize := max_eq_left hpos
    have hprefix := ChatCompletionRequest.canonicalPrompt_prefix messages continuation
    rw [fullBlocks, conversationChain, conversationChain, length_chainHash, ← String.length_toList]
    refine ⟨?_, chainHash_take_congr hasher ?_⟩
    · rw [blocks, hsize]
      exact Slices.div_le_length_chunks _ _
    · rw [blocks, blocks, hsize]
      exact Slices.take_chunks_of_prefix hprefix blockSize

end Chains

/-! ## What happens between two turns -/

/-- What happens on the server: its steps, and guards that are acquired and released. -/
inductive Traffic where
  /-- A step of the server. -/
  | step (step : ServerStep)
  /-- A guard of a worker is acquired. -/
  | acquire (worker : WorkerId)
  /-- A guard of a worker is released. -/
  | release (worker : WorkerId)

/-- The steps that purge and evict. -/
def Traffic.Upkeep : Traffic → Prop
  | .step (.op (.probe ..)) | .step (.op (.evict ..)) | .step (.reconcile ..) => True
  | .step (.op (.chat ..)) | .step (.op (.phase ..)) | .acquire _ | .release _ => False

section Handle

variable (hasher : Option UInt64 → List Char → UInt64) (fl : F64.Rounding) (router : Router)

/-- One thing that happens. -/
def Server.handle (server : Server) : Traffic → Server
  | .step step => server.step hasher fl router step
  | .acquire worker =>
    { server with
      shared := { server.shared with inflight := server.shared.inflight.increment worker } }
  | .release worker =>
    { server with
      shared := { server.shared with inflight := server.shared.inflight.decrement worker } }

/-- A step neither purges nor evicts `worker` from any of the blocks `chain` that it is listed
on. -/
def Spares (worker : WorkerId) (chain : List UInt64) (server : Server) (traffic : Traffic) : Prop :=
  traffic.Upkeep → ∀ hash ∈ chain, server.shared.prefixIndex.lists worker hash = true →
    (server.handle hasher fl router traffic).shared.prefixIndex.lists worker hash = true

variable {hasher fl router}

/-- A routing step takes nobody from any block. -/
theorem lists_serve_of_lists {op : ServerOp} (hroutes : op.Routes) {s : Shared}
    {worker : WorkerId} {hash : UInt64} (h : s.prefixIndex.lists worker hash = true) :
    (op.serve hasher fl router s).prefixIndex.lists worker hash = true := by
  obtain ⟨result, -, hrouted⟩ := @ServerOp.routed_serve hasher fl router op hroutes s
  exact (hrouted.lists_iff worker hash).mpr (Or.inr h)

/-- A routing step enters the worker that it decides for on its whole chain. -/
theorem lists_serve_of_decision {op : ServerOp} (hroutes : op.Routes) {s : Shared}
    {d : RouteDecision} (hd : op.decision hasher fl router s = some d) {hash : UInt64}
    (hhash : hash ∈ op.chain hasher router) :
    (op.serve hasher fl router s).prefixIndex.lists d.worker.id hash = true := by
  obtain ⟨result, hresult, hrouted⟩ := @ServerOp.routed_serve hasher fl router op hroutes s
  refine (hrouted.lists_iff d.worker.id hash).mpr (Or.inl ⟨d, ?_, rfl, hhash⟩)
  rw [hd] at hresult
  cases result with
  | ok d' => exact congrArg Except.ok (Option.some.inj hresult).symm
  | error error => exact nomatch hresult

/-- A step that spares a worker leaves it listed. -/
theorem Spares.lists_handle {worker : WorkerId} {chain : List UInt64} {server : Server}
    {traffic : Traffic} (h : Spares hasher fl router worker chain server traffic) {hash : UInt64}
    (hhash : hash ∈ chain) (hlists : server.shared.prefixIndex.lists worker hash = true) :
    (server.handle hasher fl router traffic).shared.prefixIndex.lists worker hash = true := by
  cases traffic with
  | acquire w => exact hlists
  | release w => exact hlists
  | step step =>
    cases step with
    | reconcile order desired => exact h trivial hash hhash hlists
    | op op =>
      cases op with
      | chat clock request =>
        exact @lists_serve_of_lists hasher fl router (.chat clock request) trivial _ _ _ hlists
      | phase clock pool blocks =>
        exact @lists_serve_of_lists hasher fl router (.phase clock pool blocks) trivial _ _ _ hlists
      | probe w healthy => exact h trivial hash hhash hlists
      | evict order now ttl maxEntries => exact h trivial hash hhash hlists

end Handle

/-- **Multi-turn reuse.**  For every conversation and every continuation, the chains agree on the
full blocks of the conversation, for every block size.  And once the chain of the conversation has
been routed, in any state and by a call of either kind, and whatever happens afterwards short of
purging or evicting the chosen worker's entries, the chosen worker is matched on these blocks when
the continuation comes.

**Proof sketch.** The routing step enters the worker on the whole chain, and this is kept by every
later step that spares it (`Spares.lists_handle`).  So the worker is listed on the first full
blocks of the continuation's chain, which are those of the conversation's, and a match of at least
that many blocks is what `PrefixIndex.le_longestMatch_iff` says of it. -/
theorem conversation_reused (hasher : Option UInt64 → List Char → UInt64) (fl : F64.Rounding)
    (router : Router) (messages continuation : List ChatMessage) :
    (∀ blockSize, fullBlocks messages blockSize ≤
          (conversationChain hasher messages blockSize).length ∧
        (conversationChain hasher messages blockSize).take (fullBlocks messages blockSize) =
          (conversationChain hasher (messages ++ continuation) blockSize).take
            (fullBlocks messages blockSize)) ∧
      ∀ (server : Server) (op : ServerOp) (d : RouteDecision) (traffic : List Traffic)
        (now : Instant), op.Routes →
        op.chain hasher router = conversationChain hasher messages router.blockSize →
        op.decision hasher fl router server.shared = some d →
        Runs.Along (Server.handle hasher fl router) (Spares hasher fl router d.worker.id
            (conversationChain hasher messages router.blockSize))
          (server.handle hasher fl router (.step (.op op))) traffic →
        fullBlocks messages router.blockSize ≤
          ((traffic.foldl (Server.handle hasher fl router)
            (server.handle hasher fl router (.step (.op op)))).shared.prefixIndex.longestMatch now
              d.worker.id (conversationChain hasher (messages ++ continuation)
                router.blockSize)).2 := by
  refine ⟨chainHash_take_continuation hasher messages continuation, ?_⟩
  intro server op d traffic now hroutes hchain hd hspares
  obtain ⟨hlength, htake⟩ :=
    chainHash_take_continuation hasher messages continuation router.blockSize
  have hlists : ∀ hash ∈ conversationChain hasher messages router.blockSize,
      (traffic.foldl (Server.handle hasher fl router) (server.handle hasher fl router
        (.step (.op op)))).shared.prefixIndex.lists d.worker.id hash = true := by
    refine Runs.Along.foldl_inv (I := fun server : Server =>
      ∀ hash ∈ conversationChain hasher messages router.blockSize,
        server.shared.prefixIndex.lists d.worker.id hash = true) ?_ hspares ?_
    · exact fun server traffic h hs hash hhash => hs.lists_handle hhash (h hash hhash)
    · exact fun hash hhash => lists_serve_of_decision hroutes hd (hchain ▸ hhash)
  rw [PrefixIndex.le_longestMatch_iff, ← htake]
  refine ⟨?_, fun hash hhash => hlists hash (List.mem_of_mem_take hhash)⟩
  have hlen := congrArg List.length htake
  rw [List.length_take, List.length_take, min_eq_left hlength] at hlen
  omega

/-- One worker, up, before any request. -/
def idleServer : Server := ⟨((applyProbe 0 true).alone (.new oneWorker)).1, .default⟩

/-- A router that cuts prompts into blocks of four characters. -/
def quartersRouter : Router :=
  { policy := .roundRobin, blockSize := 4, cacheWeight := .finite 1, loadWeight := .finite 0 }

/-- The first turn of a conversation. -/
def greeting : List ChatMessage := [⟨"user", "hi"⟩]

/-- Another request comes while the first is in flight, and the index is swept. -/
def betweenTurns : List Traffic :=
  [.acquire 0, .step (.op (.chat (fun _ => 1) ⟨[⟨"user", "bye"⟩]⟩)),
    .step (.op (.evict .held 2 5 100)), .release 0]

/-- The two blocks of a greeting are matched in the next turn. -/
theorem conversation_reused_greeting :
    fullBlocks greeting 4 = 2 ∧ 2 ≤ ((betweenTurns.foldl
        (Server.handle defaultHasher .exact quartersRouter)
        (idleServer.handle defaultHasher .exact quartersRouter
          (.step (.op (.chat (fun _ => 0) ⟨greeting⟩))))).shared.prefixIndex.longestMatch 3 0
            (conversationChain defaultHasher (greeting ++ [⟨"assistant", "hello"⟩]) 4)).2 := by
  refine ⟨by decide +kernel, ?_⟩
  -- checked hash by hash: the quantifier alone would be decided over all 64-bit words
  have hkept : (conversationChain defaultHasher greeting 4).all (fun hash =>
      (((betweenTurns.take 3).foldl (Server.handle defaultHasher .exact quartersRouter)
        (idleServer.handle defaultHasher .exact quartersRouter
          (.step (.op (.chat (fun _ => 0) ⟨greeting⟩))))).shared.prefixIndex.lists 0 hash)) =
        true := by
    decide +kernel
  exact (conversation_reused defaultHasher .exact quartersRouter greeting
    [⟨"assistant", "hello"⟩]).2 idleServer (.chat (fun _ => 0) ⟨greeting⟩)
      ⟨⟨0, "http://a:8001", .both⟩, 0, 2, .finite 0⟩ betweenTurns 3 trivial rfl
      (by decide +kernel)
      ⟨fun h => h.elim, fun h => h.elim,
        fun _ hash hhash _ => List.all_eq_true.mp hkept hash hhash, fun h => h.elim, trivial⟩

end KvRoute
