import KvRoute.Core.ChainOrder
import KvRoute.Core.ConcurrentIndex

set_option relaxedAutoImplicit false
set_option autoImplicit false

/-!
# Conservation of misses

A decision reports how many blocks its chain has and how many of them the chosen worker was
already listed on from the front.  The rest are misses, and recording the chain stores each of
them: over any run of routing calls, the reported misses add up to what the index has stored.

## Main definitions

* `PrefixIndex.pairs` — the pairs of a block and a worker that an index stores.
* `KvRoute.Reports` — a decision reports the state of the index before the call.
* `KvRoute.Routing`, `KvRoute.serveAll` — routing calls, with anything but the index changing in
  between.
* `KvRoute.misses` — the misses of a decision.

## Main results

* `KvRoute.reports_program` — every routing call reports the index before it.
* `KvRoute.misses_conserved` — reported misses are stored pairs.
-/

namespace KvRoute

/-! ## Stored pairs -/

namespace PrefixIndex

/-- The pairs of a block hash and a worker that are stored in the index, shard by shard. -/
def pairs (idx : PrefixIndex) : List (UInt64 × WorkerId) :=
  (List.finRange numShards).flatMap fun i =>
    (idx.shards i).toList.flatMap fun e => e.2.workers.map fun worker => (e.1, worker)

variable {idx idx' : PrefixIndex}

/-- The stored pairs are those of a block and a worker listed on it. -/
theorem mem_pairs (h : idx.WellFormed) {hash : UInt64} {worker : WorkerId} :
    (hash, worker) ∈ idx.pairs ↔ idx.lists worker hash = true := by
  rw [lists_iff]
  simp only [pairs, List.mem_flatMap, List.mem_finRange, true_and, List.mem_map, Prod.mk.injEq,
    Prod.exists, HashTable.mem_toList]
  constructor
  · rintro ⟨i, b, entry, hget, w, hw, rfl, rfl⟩
    exact ⟨entry, (h.get_of_shard hget).2, hw⟩
  · rintro ⟨entry, hget, hw⟩
    exact ⟨shardOf hash, hash, entry, hget, worker, hw, rfl, rfl⟩

/-- No pair is stored twice. -/
theorem nodup_pairs (h : idx.WellFormed) : idx.pairs.Nodup := by
  refine List.nodup_flatMap.mpr ⟨fun i _ => List.nodup_flatMap.mpr ⟨?_, ?_⟩, ?_⟩
  · rintro ⟨hash, entry⟩ hmem
    have hget := (HashTable.mem_toList _).mp hmem
    have hnodup := h.nodup hash entry (h.get_of_shard hget).2
    exact hnodup.map fun _ _ heq => (Prod.mk.inj heq).2
  · refine (List.pairwise_map.mp (HashTable.nodup_keys (idx.shards i))).imp ?_
    intro e e' hne p hp hp'
    obtain ⟨w, -, rfl⟩ := List.mem_map.mp hp
    obtain ⟨w', -, heq⟩ := List.mem_map.mp hp'
    exact hne (Prod.mk.inj heq).1.symm
  · -- a block is stored in its own shard only
    refine (List.nodup_finRange numShards).imp fun {i j} hij p hi hj => hij ?_
    obtain ⟨⟨b, entry⟩, hmem, hp⟩ := List.mem_flatMap.mp hi
    obtain ⟨⟨b', entry'⟩, hmem', hp'⟩ := List.mem_flatMap.mp hj
    obtain ⟨w, -, rfl⟩ := List.mem_map.mp hp
    obtain ⟨w', -, heq⟩ := List.mem_map.mp hp'
    obtain ⟨rfl, -⟩ := Prod.mk.inj heq
    exact (h.get_of_shard ((HashTable.mem_toList _).mp hmem)).1.trans
      (h.get_of_shard ((HashTable.mem_toList _).mp hmem')).1.symm

/-- Who is listed decides how many pairs are stored. -/
theorem length_pairs_congr (h : idx.WellFormed) (h' : idx'.WellFormed)
    (hlists : ∀ w b, idx'.lists w b = idx.lists w b) : idx'.pairs.length = idx.pairs.length := by
  refine ((List.perm_ext_iff_of_nodup (nodup_pairs h') (nodup_pairs h)).mpr ?_).length_eq
  rintro ⟨hash, worker⟩
  rw [mem_pairs h', mem_pairs h, hlists]

/-- Entering a worker for a chain stores as many pairs as the chain has blocks that the worker was
not listed on. -/
theorem length_pairs_record (h : idx.WellFormed) (h' : idx'.WellFormed) {worker : WorkerId}
    {chain : List UInt64} (hchain : chain.Nodup)
    (hlists : ∀ w b, idx'.lists w b = true ↔ w = worker ∧ b ∈ chain ∨ idx.lists w b = true) :
    idx'.pairs.length = idx.pairs.length +
      (chain.filter fun hash => !idx.lists worker hash).length := by
  have hperm : idx'.pairs.Perm (idx.pairs ++
      (chain.filter fun hash => !idx.lists worker hash).map fun hash => (hash, worker)) := by
    refine (List.perm_ext_iff_of_nodup (nodup_pairs h') ?_).mpr ?_
    · refine (nodup_pairs h).append ((hchain.filter _).map fun _ _ heq => (Prod.mk.inj heq).1) ?_
      rintro ⟨hash, w⟩ hold hnew
      obtain ⟨b, hb, heq⟩ := List.mem_map.mp hnew
      obtain ⟨rfl, rfl⟩ := Prod.mk.inj heq
      have hlisted := (mem_pairs h).mp hold
      simp [hlisted] at hb
    · rintro ⟨hash, w⟩
      rw [mem_pairs h', hlists, List.mem_append, mem_pairs h]
      simp only [List.mem_map, List.mem_filter, Prod.mk.injEq, Bool.not_eq_true']
      constructor
      · rintro (⟨rfl, hmem⟩ | hold)
        · cases hlisted : idx.lists w hash with
          | true => exact Or.inl rfl
          | false => exact Or.inr ⟨hash, ⟨hmem, hlisted⟩, rfl, rfl⟩
        · exact Or.inl hold
      · rintro (hold | ⟨b, ⟨hmem, -⟩, rfl, rfl⟩)
        · exact Or.inr hold
        · exact Or.inl ⟨rfl, hmem⟩
  rw [hperm.length_eq, List.length_append, List.length_map]

end PrefixIndex

/-! ## What a decision reports -/

/-- A decision reports the length of the chain, and how much of it the chosen worker was listed on
from the front before the call. -/
def Reports (s : Shared) (chain : List UInt64) (result : Except RouterError RouteDecision) : Prop :=
  ∀ d, result = .ok d → d.promptBlocks = chain.length ∧
    d.matchedPrefixLen = (s.prefixIndex.matchedHashes d.worker.id chain).length

/-- A call that fails reports nothing. -/
theorem reports_error (s : Shared) (chain : List UInt64) (error : RouterError) :
    Reports s chain (.error error) := by
  intro d hd
  cases hd

theorem Shared.Touched.matchedHashes_eq {s s' : Shared} (h : s.Touched s') (worker : WorkerId)
    (chain : List UInt64) :
    s'.prefixIndex.matchedHashes worker chain = s.prefixIndex.matchedHashes worker chain := by
  rw [PrefixIndex.matchedHashes, PrefixIndex.matchedHashes, funext (h.lists_eq worker)]

namespace Router

variable (s : Shared) {fl : F64.Rounding} {router : Router}

/-- Every candidate's match is that of the index before the call: scoring changes only times. -/
theorem matched_evaluateAll (chain : List UInt64) (clock : ℕ → Instant) (workers : List Worker) :
    ∀ scored ∈ ((router.evaluateAll fl chain clock workers).alone s).2,
      scored.matched = (s.prefixIndex.matchedHashes scored.worker.id chain).length := by
  induction workers generalizing s clock with
  | nil => exact fun _ h => absurd h List.not_mem_nil
  | cons worker workers ih =>
    rw [evaluateAll, Thread.alone_bind, Thread.alone_bind]
    obtain ⟨htouched, hworker, hmatched⟩ := @alone_evaluate s fl router chain (clock 0) worker
    intro scored hscored
    rcases List.mem_cons.mp hscored with rfl | hrest
    · rw [hmatched, hworker]
      rfl
    · rw [ih _ _ scored hrest, htouched.matchedHashes_eq]

theorem reports_selectBest (clock : ℕ → Instant) (candidates : List Worker)
    (chain : List UInt64) (error : RouterError) :
    Reports s chain ((router.selectBest fl clock candidates chain error).alone s).2 := by
  rw [selectBest, Thread.alone_bind]
  cases hbest : ((router.pickBest fl clock candidates chain).alone s).2 with
  | none => exact reports_error s chain error
  | some best =>
    dsimp only
    rw [Thread.alone_bind, Program.alone_record]
    intro d hd
    obtain rfl := Except.ok.inj hd
    rw [pickBest, Thread.alone_bind] at hbest
    exact ⟨rfl, matched_evaluateAll s chain clock candidates best
      (Slices.mem_of_maxBy_eq_some hbest)⟩

theorem reports_selectInTurn (clock : ℕ → Instant) (candidates : List Worker)
    (hne : candidates ≠ []) (chain : List UInt64) :
    Reports s chain ((selectInTurn clock candidates hne chain).alone s).2 := by
  rw [alone_selectInTurn]
  intro d hd
  obtain rfl := Except.ok.inj hd
  exact ⟨rfl, rfl⟩

end Router

namespace RoutingCall

variable (hasher : Option UInt64 → List Char → UInt64) (fl : F64.Rounding) (router : Router)

/-- The chain that a call routes. -/
def chain : RoutingCall → List UInt64
  | .chat _ request => chainHash hasher request.canonicalPrompt router.blockSize
  | .phase _ _ chain => chain

/-- **What a call reports.**  The decision of a routing call reports the index before it. -/
theorem reports_program (call : RoutingCall) (s : Shared) :
    Reports s (call.chain hasher router) ((call.program hasher fl router).alone s).2 := by
  cases call with
  | chat clock request =>
    rw [program, Router.selectForChat, Program.alone_healthyWorkers_bind]
    by_cases hne : s.registry.healthyWorkers = []
    · rw [dif_pos hne]
      exact reports_error s _ _
    · rw [dif_neg hne]
      cases router.policy with
      | roundRobin => exact Router.reports_selectInTurn s clock _ _ _
      | cacheAware => exact Router.reports_selectBest s clock _ _ _
      | disaggregated => exact reports_error s _ _
  | phase clock pool chain =>
    rw [program, Router.selectInPool, Program.alone_healthyWorkers_bind]
    dsimp only
    split_ifs
    · exact reports_error s _ _
    · exact Router.reports_selectBest s clock _ _ _

/-- What a call does to the shared state. -/
theorem routed_program (call : RoutingCall) (s : Shared) :
    ∃ candidates, s.Routed candidates (call.chain hasher router)
      ((call.program hasher fl router).alone s).2 ((call.program hasher fl router).alone s).1 := by
  cases call with
  | chat clock request => exact ⟨_, Router.routed_selectForChat s hasher clock request⟩
  | phase clock pool chain => exact ⟨_, Router.routed_selectInPool s clock pool chain⟩

/-- A call keeps the index well formed. -/
theorem wellFormed_program (call : RoutingCall) {s : Shared} (hwf : s.prefixIndex.WellFormed) :
    ((call.program hasher fl router).alone s).1.prefixIndex.WellFormed := by
  obtain ⟨rest, heq, hrest⟩ := call.program_traces hasher fl router
  rw [heq, Program.alone_healthyWorkers_bind]
  exact (hrest _).alone_inv (I := fun s => s.prefixIndex.WellFormed)
    (fun _ _ _ hs => hs.1.wellFormed) hwf

end RoutingCall

/-! ## Runs of routing calls -/

/-- A routing call with what it finds besides the index: the registry, the round-robin counter
and the in-flight counts may have changed in any way since the last call. -/
structure Routing where
  /-- The registry at the call. -/
  registry : WorkerRegistry
  /-- The round-robin counter at the call. -/
  nextWorker : UInt64
  /-- The in-flight counts at the call. -/
  inflight : InflightTracker
  /-- The call. -/
  call : RoutingCall

/-- The misses of a call: the blocks of its chain that were not matched. -/
def misses : Except RouterError RouteDecision → ℕ
  | .ok d => d.promptBlocks - d.matchedPrefixLen
  | .error _ => 0

section Serve

variable (hasher : Option UInt64 → List Char → UInt64) (fl : F64.Rounding) (router : Router)

/-- One call on an index. -/
def Routing.serve (idx : PrefixIndex) (routing : Routing) :
    PrefixIndex × Except RouterError RouteDecision :=
  let out := (routing.call.program hasher fl router).alone
    ⟨routing.registry, routing.nextWorker, idx, routing.inflight⟩
  (out.1.prefixIndex, out.2)

/-- Some calls, one after the other, with their decisions. -/
def serveAll (idx : PrefixIndex) :
    List Routing → PrefixIndex × List (Except RouterError RouteDecision)
  | [] => (idx, [])
  | routing :: routings =>
    let served := routing.serve hasher fl router idx
    let rest := serveAll served.1 routings
    (rest.1, served.2 :: rest.2)

variable {hasher fl router} {𝒞 : Set (List UInt64)} {idx : PrefixIndex}

/-- What the calls keep: the index is well formed, and listed blocks come first. -/
structure Fronted (𝒞 : Set (List UInt64)) (idx : PrefixIndex) : Prop where
  /-- The index is well formed. -/
  wellFormed : idx.WellFormed
  /-- The blocks that a worker is listed on come first. -/
  lists : ∀ worker, FromFront 𝒞 fun hash => idx.lists worker hash = true

theorem fronted_new (𝒞 : Set (List UInt64)) : Fronted 𝒞 .new :=
  ⟨.new, fun _ _ _ _ _ _ _ _ _ _ h => nomatch h⟩

variable (fl) in
/-- **One call.**  Its misses are the pairs it stores, and it matches no more blocks than its chain
has.

**Proof sketch.** In an index with the listed blocks in front, the matched blocks are all blocks
of the chain that the worker is listed on (`FromFront.filter_eq_takeWhile`); the misses are the
others, and recording the chain stores exactly these. -/
theorem Fronted.serve (h : Fronted 𝒞 idx) (htree : PrefixTree 𝒞) (routing : Routing)
    (hchain : routing.call.chain hasher router ∈ 𝒞) :
    Fronted 𝒞 (routing.serve hasher fl router idx).1 ∧
      (routing.serve hasher fl router idx).1.pairs.length =
        idx.pairs.length + misses (routing.serve hasher fl router idx).2 ∧
      ∀ d, (routing.serve hasher fl router idx).2 = .ok d →
        d.matchedPrefixLen ≤ d.promptBlocks := by
  obtain ⟨registry, nextWorker, inflight, call⟩ := routing
  set s : Shared := ⟨registry, nextWorker, idx, inflight⟩ with hs
  set chain := call.chain hasher router with hc
  have hreports : Reports s chain ((call.program hasher fl router).alone s).2 :=
    call.reports_program hasher fl router s
  obtain ⟨candidates, hrouted⟩ := call.routed_program hasher fl router s
  have hwf : ((call.program hasher fl router).alone s).1.prefixIndex.WellFormed :=
    call.wellFormed_program hasher fl router (s := s) h.wellFormed
  show Fronted 𝒞 ((call.program hasher fl router).alone s).1.prefixIndex ∧
    ((call.program hasher fl router).alone s).1.prefixIndex.pairs.length =
      idx.pairs.length + misses ((call.program hasher fl router).alone s).2 ∧
    ∀ d, ((call.program hasher fl router).alone s).2 = .ok d →
      d.matchedPrefixLen ≤ d.promptBlocks
  have hlists := hrouted.lists_iff
  cases hresult : ((call.program hasher fl router).alone s).2 with
  | error error =>
    have hsame : ∀ w b, ((call.program hasher fl router).alone s).1.prefixIndex.lists w b =
        idx.lists w b := by
      intro w b
      rw [Bool.eq_iff_iff, hlists, hresult]
      simp [hs]
    refine ⟨⟨hwf, fun worker => (h.lists worker).congr fun b => by rw [hsame]⟩, ?_, nofun⟩
    exact PrefixIndex.length_pairs_congr h.wellFormed hwf hsame
  | ok d =>
    obtain ⟨hblocks, hmatched⟩ := hreports d hresult
    have hrecorded : ∀ w b, ((call.program hasher fl router).alone s).1.prefixIndex.lists w b =
        true ↔ w = d.worker.id ∧ b ∈ chain ∨ idx.lists w b = true := by
      intro w b
      rw [hlists, hresult]
      simp [hs, hc]
    have hfront := (h.lists d.worker.id).filter_eq_takeWhile hchain
    have hsplit : (chain.filter (idx.lists d.worker.id)).length +
        (chain.filter fun hash => !idx.lists d.worker.id hash).length = chain.length :=
      (List.length_eq_length_filter_add _).symm
    have hmatched' : d.matchedPrefixLen = (chain.filter (idx.lists d.worker.id)).length := by
      rw [hmatched, hfront]
      rfl
    have hstored := PrefixIndex.length_pairs_record h.wellFormed hwf (htree.nodup hchain) hrecorded
    refine ⟨⟨hwf, fun worker => ?_⟩, ?_, fun d' hd' => ?_⟩
    · exact ((htree.fromFront_mem hchain List.prefix_rfl).const_and.or (h.lists worker)).congr
        fun b => hrecorded worker b
    · rw [hstored, misses, hblocks, hmatched']
      omega
    · obtain rfl := Except.ok.inj hd'
      rw [hblocks, hmatched']
      exact List.length_filter_le _ _

variable (fl) in
/-- Any calls. -/
theorem Fronted.serveAll (h : Fronted 𝒞 idx) (htree : PrefixTree 𝒞) (routings : List Routing)
    (hchains : ∀ routing ∈ routings, routing.call.chain hasher router ∈ 𝒞) :
    (KvRoute.serveAll hasher fl router idx routings).1.pairs.length =
        idx.pairs.length + ((KvRoute.serveAll hasher fl router idx routings).2.map misses).sum ∧
      ∀ d, .ok d ∈ (KvRoute.serveAll hasher fl router idx routings).2 →
        d.matchedPrefixLen ≤ d.promptBlocks := by
  induction routings generalizing idx with
  | nil => exact ⟨rfl, fun _ h => absurd h List.not_mem_nil⟩
  | cons routing routings ih =>
    obtain ⟨hfronted, hpairs, hle⟩ := h.serve fl htree routing
      (hchains routing List.mem_cons_self)
    obtain ⟨hrest, hrest'⟩ := ih hfronted fun r hr => hchains r (List.mem_cons_of_mem _ hr)
    refine ⟨?_, fun d hd => ?_⟩
    · rw [KvRoute.serveAll, hrest, hpairs, List.map_cons, List.sum_cons, Nat.add_assoc]
    · rcases List.mem_cons.mp hd with heq | hd
      · exact hle d heq.symm
      · exact hrest' d hd

/-- **Conservation of misses.**  In every run of routing calls on one router, from an empty index,
on chains of prompts between which no hashes collide, with the registry, the round-robin counter
and the in-flight counts changing in any way between the calls: the misses that the decisions
report add up to the number of pairs of a block and a worker that the index stores.

**Proof sketch.** An empty index has no pairs, and every call stores as many as it misses
(`Fronted.serve`). -/
theorem misses_conserved (routings : List Routing) (S : Set (String × ℕ))
    (hsep : Separates hasher S)
    (hchains : ∀ routing ∈ routings, routing.call.chain hasher router ∈ chainsOf hasher S) :
    let run := KvRoute.serveAll hasher fl router .new routings
    (run.2.map misses).sum = run.1.pairs.length ∧
      ∀ d, .ok d ∈ run.2 → d.matchedPrefixLen ≤ d.promptBlocks := by
  intro run
  obtain ⟨hpairs, hle⟩ := (fronted_new (chainsOf hasher S)).serveAll fl
    (prefixTree_chainsOf hsep) routings hchains
  have hnone : PrefixIndex.new.pairs = [] := by
    rw [List.eq_nil_iff_forall_not_mem]
    rintro ⟨hash, worker⟩ hmem
    exact nomatch (PrefixIndex.mem_pairs .new).mp hmem
  rw [hnone, List.length_nil, Nat.zero_add] at hpairs
  exact ⟨hpairs.symm, hle⟩

end Serve

/-- A request for one decode worker, which is up. -/
def decodeRouting (prompt : String × ℕ) : Routing where
  registry := ((WorkerRegistry.fromConfig [⟨"http://a:8001", .decode⟩]).setHealthy 0 true).1
  nextWorker := 0
  inflight := .withCapacity 1
  call := .phase (fun _ => 0) .decode (chainOf defaultHasher prompt)

/-- Two prompts that share their first block: the second one misses one block of two, and the index
stores the four blocks that were missed. -/
theorem misses_conserved_hello_hello :
    let run := serveAll defaultHasher .exact ⟨.disaggregated, 4, .finite 1, .finite 1⟩ .new
      [decodeRouting ("hello world", 4), decodeRouting ("hello", 4)]
    run.2.map misses = [3, 1] ∧ run.1.pairs.length = 4 := by
  intro run
  obtain ⟨hsum, -⟩ := @misses_conserved defaultHasher .exact
    ⟨.disaggregated, 4, .finite 1, .finite 1⟩
    [decodeRouting ("hello world", 4), decodeRouting ("hello", 4)] _ separates_helloHello (by
      intro routing hmem
      simp only [List.mem_cons, List.not_mem_nil, or_false] at hmem
      rcases hmem with rfl | rfl
      · exact ⟨("hello world", 4), by simp, rfl⟩
      · exact ⟨("hello", 4), by simp, rfl⟩)
  have hmisses : run.2.map misses = [3, 1] := by decide +kernel
  refine ⟨hmisses, hsum.symm.trans ?_⟩
  rw [hmisses]
  rfl

end KvRoute
