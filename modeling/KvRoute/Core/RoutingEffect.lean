import Mathlib.Data.List.TakeWhile
import KvRoute.Core.Conservation
import KvRoute.Core.Scoring

set_option relaxedAutoImplicit false
set_option autoImplicit false

/-!
# The exact effect of a routing call

A routing call, run alone, either fails and leaves the shared state as it was, or decides for a
worker, and then all that it changes are the index entries of its own chain, and the round-robin
counter if it was served in turn.  Rating the candidates refreshes entries on behalf of losing
candidates too; these are entries of the chain, and recording the chain stamps them all.

## Main definitions

* `Shared.Refreshed` — the state but for the times of the entries of a chain.
* `Shared.RoutedTo` — all that a successful call does.
* `RoutingCall.stamp`, `RoutingCall.inTurn` — the time of a call, and how it is served.

## Main results

* `KvRoute.routing_exact` — every call does this, or nothing.
* `Router.alone_selectForChat_snd_congr`, `Router.touched_selectForChat_congr` — times of entries
  and clock readings do not matter for what is decided.
-/

namespace KvRoute

/-! ## Rating candidates -/

/-- `s'` is `s` but for the times of index entries of `chain`. -/
structure Shared.Refreshed (s : Shared) (chain : List UInt64) (s' : Shared) : Prop where
  /-- The registry is the same. -/
  registry_eq : s'.registry = s.registry
  /-- The round-robin counter is the same. -/
  nextWorker_eq : s'.nextWorker = s.nextWorker
  /-- The counters are the same. -/
  inflight_eq : s'.inflight = s.inflight
  /-- The same workers are listed on every block. -/
  workersOf_eq : ∀ hash, s'.prefixIndex.workersOf hash = s.prefixIndex.workersOf hash
  /-- Entries outside the chain are the same. -/
  get_eq : ∀ hash ∉ chain, s'.prefixIndex.get hash = s.prefixIndex.get hash

namespace Shared.Refreshed

variable {s s' s'' : Shared} {chain : List UInt64}

lemma refl (s : Shared) (chain : List UInt64) : s.Refreshed chain s :=
  ⟨rfl, rfl, rfl, fun _ => rfl, fun _ _ => rfl⟩

lemma trans (h : s.Refreshed chain s') (h' : s'.Refreshed chain s'') : s.Refreshed chain s'' where
  registry_eq := h'.registry_eq.trans h.registry_eq
  nextWorker_eq := h'.nextWorker_eq.trans h.nextWorker_eq
  inflight_eq := h'.inflight_eq.trans h.inflight_eq
  workersOf_eq hash := (h'.workersOf_eq hash).trans (h.workersOf_eq hash)
  get_eq hash hhash := (h'.get_eq hash hhash).trans (h.get_eq hash hhash)

/-- Matching a chain refreshes entries of the chain only. -/
lemma longestMatch (s : Shared) (worker : WorkerId) (now : Instant) (chain : List UInt64) :
    s.Refreshed chain ((Program.longestMatch worker now chain).alone s).1 := by
  rw [Program.alone_longestMatch]
  refine ⟨rfl, rfl, rfl, fun hash => ?_, fun hash hhash => ?_⟩
  · exact PrefixIndex.workersOf_longestMatch s.prefixIndex now worker chain hash
  · have hmatched : hash ∉ s.prefixIndex.matchedHashes worker chain := by
      intro hmem
      exact hhash ((List.takeWhile_prefix _).subset hmem)
    dsimp only
    rw [PrefixIndex.get_longestMatch, if_neg hmatched]

variable {fl : F64.Rounding} {router : Router}

/-- Rating a list of candidates refreshes entries of the chain only. -/
lemma evaluateAll (s : Shared) (chain : List UInt64) (clock : ℕ → Instant)
    (workers : List Worker) :
    s.Refreshed chain ((router.evaluateAll fl chain clock workers).alone s).1 := by
  induction workers generalizing s clock with
  | nil => exact refl s chain
  | cons worker workers ih =>
    rw [Router.evaluateAll, Thread.alone_bind, Thread.alone_bind]
    have hfirst : s.Refreshed chain ((router.evaluate fl chain (clock 0) worker).alone s).1 := by
      rw [Router.evaluate, Thread.alone_bind]
      exact longestMatch s worker.id (clock 0) chain
    exact hfirst.trans (ih _ _)

end Shared.Refreshed

/-! ## Recording the chain -/

/-- All that a call does that decides `d` for `chain` when the clock reads `now`; `turns` says
whether it is served in turn. -/
structure Shared.RoutedTo (s : Shared) (chain : List UInt64) (now : Instant) (turns : Bool)
    (d : RouteDecision) (s' : Shared) : Prop where
  /-- The registry is the same. -/
  registry_eq : s'.registry = s.registry
  /-- The counters are the same. -/
  inflight_eq : s'.inflight = s.inflight
  /-- A call that is served in turn takes one turn. -/
  nextWorker_eq : s'.nextWorker = if turns then s.nextWorker + 1 else s.nextWorker
  /-- The chosen worker is entered on the blocks of the chain, and otherwise the same workers are
  listed. -/
  lists_iff : ∀ worker hash, s'.prefixIndex.lists worker hash = true ↔
    worker = d.worker.id ∧ hash ∈ chain ∨ s.prefixIndex.lists worker hash = true
  /-- Every block of the chain has an entry that is stamped with the current time. -/
  stamped : ∀ hash ∈ chain, ∃ entry, s'.prefixIndex.get hash = some entry ∧
    entry.lastTouched = now
  /-- The entries of other blocks are the same. -/
  get_eq : ∀ hash ∉ chain, s'.prefixIndex.get hash = s.prefixIndex.get hash
  /-- The reported match is the chosen worker's match before the call. -/
  matched_eq : d.matchedPrefixLen = s.matched chain d.worker.id
  /-- The reported number of blocks is that of the chain. -/
  blocks_eq : d.promptBlocks = chain.length
  /-- After the call the chosen worker is matched on all of them. -/
  matched_after : s'.matched chain d.worker.id = d.promptBlocks

/-- A worker that is listed on a whole chain is matched on all of it. -/
lemma Shared.matched_of_lists {s : Shared} {chain : List UInt64} {worker : WorkerId}
    (h : ∀ hash ∈ chain, s.prefixIndex.lists worker hash = true) :
    s.matched chain worker = chain.length := by
  rw [Shared.matched, PrefixIndex.matchedHashes, List.takeWhile_eq_self_iff.mpr h]

/-- A call that refreshes the chain, and then records it for a worker. -/
theorem Shared.Refreshed.routedTo {s s₁ s' : Shared} {chain : List UInt64} {turns : Bool}
    (h : s₁.Refreshed chain s') (hregistry : s₁.registry = s.registry)
    (hinflight : s₁.inflight = s.inflight) (hindex : s₁.prefixIndex = s.prefixIndex)
    (hturns : s₁.nextWorker = if turns then s.nextWorker + 1 else s.nextWorker) (w : Worker)
    (now : Instant) (score : F64) :
    s.RoutedTo chain now turns ⟨w, s.matched chain w.id, chain.length, score⟩
      { s' with prefixIndex := s'.prefixIndex.record now w.id chain } := by
  have hlists : ∀ worker hash, (s'.prefixIndex.record now w.id chain).lists worker hash = true ↔
      worker = w.id ∧ hash ∈ chain ∨ s.prefixIndex.lists worker hash = true := by
    intro worker hash
    rw [PrefixIndex.lists_record, PrefixIndex.lists_eq_mem_workersOf, h.workersOf_eq, hindex,
      ← PrefixIndex.lists_eq_mem_workersOf]
  refine
    { registry_eq := h.registry_eq.trans hregistry
      inflight_eq := h.inflight_eq.trans hinflight
      nextWorker_eq := h.nextWorker_eq.trans hturns
      lists_iff := hlists
      stamped := fun hash hhash => ?stamped
      get_eq := fun hash hhash => ?get_eq
      matched_eq := rfl
      blocks_eq := rfl
      matched_after := Shared.matched_of_lists fun hash hhash =>
        (hlists w.id hash).mpr (Or.inl ⟨rfl, hhash⟩) }
  case stamped =>
    dsimp only
    rw [PrefixIndex.get_record, if_pos hhash]
    exact ⟨_, rfl, rfl⟩
  case get_eq =>
    dsimp only
    rw [PrefixIndex.get_record, if_neg hhash, h.get_eq hash hhash, hindex]

/-! ## The calls -/

namespace Router

variable {s : Shared} {fl : F64.Rounding} {router : Router}

/-- A call that is served in turn always succeeds. -/
lemma routedTo_selectInTurn (clock : ℕ → Instant) (candidates : List Worker)
    (hne : candidates ≠ []) (chain : List UInt64) :
    ∃ d, ((selectInTurn clock candidates hne chain).alone s).2 = .ok d ∧
      s.RoutedTo chain (clock 1) true d ((selectInTurn clock candidates hne chain).alone s).1 := by
  rw [alone_selectInTurn]
  set worker := candidates.get ⟨s.nextWorker.toNat % candidates.length,
    Nat.mod_lt _ (List.length_pos_iff.mpr hne)⟩
  have hrefreshed := Shared.Refreshed.longestMatch { s with nextWorker := s.nextWorker + 1 }
    worker.id (clock 0) chain
  rw [Program.alone_longestMatch] at hrefreshed
  exact ⟨_, rfl, hrefreshed.routedTo (s := s) rfl rfl rfl rfl worker (clock 1) _⟩

/-- A call that rates at least one candidate always succeeds. -/
lemma routedTo_selectBest (clock : ℕ → Instant) {candidates : List Worker}
    (hne : candidates ≠ []) (chain : List UInt64) (error : RouterError) :
    ∃ d, ((router.selectBest fl clock candidates chain error).alone s).2 = .ok d ∧
      s.RoutedTo chain (clock candidates.length) false d
        ((router.selectBest fl clock candidates chain error).alone s).1 := by
  obtain ⟨w, hw⟩ : ∃ w, router.picked fl s chain candidates = some w :=
    Option.ne_none_iff_exists'.mp fun hnone => hne (picked_eq_none.mp hnone)
  have hbest := @alone_pickBest_snd_eq_picked fl router s clock candidates chain
  rw [hw, Option.map_some] at hbest
  have hrefreshed : s.Refreshed chain ((router.pickBest fl clock candidates chain).alone s).1 := by
    rw [pickBest, Thread.alone_bind]
    exact Shared.Refreshed.evaluateAll s chain clock candidates
  rw [selectBest, Thread.alone_bind, hbest]
  dsimp only
  rw [Thread.alone_bind, Program.alone_record]
  exact ⟨_, rfl, hrefreshed.routedTo rfl rfl rfl rfl w (clock candidates.length) _⟩

end Router

/-- What the clock reads when a call in state `s` records its chain: a call that is served in turn
has read it once before, to match its chain, any other once for every candidate. -/
def RoutingCall.stamp (router : Router) (s : Shared) : RoutingCall → Instant
  | .chat clock _ =>
    match router.policy with
    | .roundRobin => clock 1
    | _ => clock (Router.chatCandidates s.registry.healthyWorkers).length
  | .phase clock pool _ => clock (Router.poolCandidates pool s.registry.healthyWorkers).length

/-- Whether a call is served in turn. -/
def RoutingCall.inTurn (router : Router) : RoutingCall → Bool
  | .chat _ _ => router.policy == .roundRobin
  | .phase _ _ _ => false

/-- **The exact effect of a routing call.**  In every state, a routing call run alone either decides
for a worker, records the chain for it, and changes nothing else but the round-robin counter when
it is served in turn; or it fails and changes nothing at all.

**Proof sketch.** A call that fails does so before it has taken a turn or rated a candidate: the
errors behind the rating are for an empty list of candidates, which was excluded before.  The
others refresh entries of their own chain, and then record the chain
(`Shared.Refreshed.routedTo`). -/
theorem routing_exact (hasher : Option UInt64 → List Char → UInt64) (fl : F64.Rounding)
    (router : Router) (call : RoutingCall) (s : Shared) :
    (∃ d, ((call.program hasher fl router).alone s).2 = .ok d ∧
      s.RoutedTo (call.chain hasher router) (call.stamp router s) (call.inTurn router) d
        ((call.program hasher fl router).alone s).1) ∨
    (∃ e, ((call.program hasher fl router).alone s).2 = .error e) ∧
      ((call.program hasher fl router).alone s).1 = s := by
  cases call with
  | chat clock request =>
    simp only [RoutingCall.program, Router.selectForChat]
    rw [Program.alone_healthyWorkers_bind]
    by_cases hne : s.registry.healthyWorkers = []
    · rw [dif_pos hne]
      exact Or.inr ⟨⟨_, rfl⟩, rfl⟩
    · rw [dif_neg hne]
      have hcandidates := Router.chatCandidates_ne_nil hne
      dsimp only [RoutingCall.chain, RoutingCall.stamp, RoutingCall.inTurn]
      cases router.policy with
      | roundRobin => exact Or.inl (Router.routedTo_selectInTurn clock _ hcandidates _)
      | cacheAware => exact Or.inl (Router.routedTo_selectBest clock hcandidates _ _)
      | disaggregated => exact Or.inr ⟨⟨_, rfl⟩, rfl⟩
  | phase clock pool chain =>
    simp only [RoutingCall.program, Router.selectInPool]
    rw [Program.alone_healthyWorkers_bind]
    by_cases hempty : (Router.poolCandidates pool s.registry.healthyWorkers).isEmpty = true
    · rw [if_pos hempty]
      exact Or.inr ⟨⟨_, rfl⟩, rfl⟩
    · rw [if_neg hempty]
      have hcandidates : Router.poolCandidates pool s.registry.healthyWorkers ≠ [] := by
        rwa [List.isEmpty_iff] at hempty
      exact Or.inl (Router.routedTo_selectBest clock hcandidates _ _)

/-! ## Times do not matter -/

section Congr

variable {fl : F64.Rounding} {router : Router} {s s' : Shared}

/-- Matches are about who is listed. -/
lemma Shared.Touched.matched_eq (h : s.Touched s') (chain : List UInt64) (worker : WorkerId) :
    s'.matched chain worker = s.matched chain worker := by
  rw [Shared.matched, Shared.matched, h.matchedHashes_eq]

/-- Loads are about counters. -/
lemma Shared.Touched.load_eq (h : s.Touched s') (worker : WorkerId) :
    s'.load worker = s.load worker := by
  unfold Shared.load
  rw [h.inflight_eq]

/-- Two states that differ in times only still do so when the same has been decided in both. -/
lemma Shared.Touched.routedTo {t t' : Shared} {chain : List UInt64} {now now' : Instant}
    {turns : Bool} {d : RouteDecision} (h : s.Touched s') (hd : s.RoutedTo chain now turns d t)
    (hd' : s'.RoutedTo chain now' turns d t') : t.Touched t' where
  registry_eq := by rw [hd'.registry_eq, hd.registry_eq, h.registry_eq]
  nextWorker_eq := by rw [hd'.nextWorker_eq, hd.nextWorker_eq, h.nextWorker_eq]
  inflight_eq := by rw [hd'.inflight_eq, hd.inflight_eq, h.inflight_eq]
  lists_eq worker hash := by
    rw [Bool.eq_iff_iff, hd'.lists_iff, hd.lists_iff, h.lists_eq]

/-- The same candidate is picked in states that differ in times only. -/
lemma Router.picked_congr (h : s.Touched s') (chain : List UInt64) (candidates : List Worker) :
    router.picked fl s' chain candidates = router.picked fl s chain candidates := by
  unfold Router.picked
  simp only [Router.rated_eq_of_touched h]

/-- The same decision is made in states that differ in times only, whatever the clock reads. -/
lemma Router.alone_selectForChat_snd_congr (hasher : Option UInt64 → List Char → UInt64)
    (h : s.Touched s') (clock clock' : ℕ → Instant) (request : ChatCompletionRequest) :
    ((router.selectForChat hasher fl clock' request).alone s').2 =
      ((router.selectForChat hasher fl clock request).alone s).2 := by
  rw [selectForChat, selectForChat, Program.alone_healthyWorkers_bind,
    Program.alone_healthyWorkers_bind, h.registry_eq]
  by_cases hne : s.registry.healthyWorkers = []
  · rw [dif_pos hne, dif_pos hne]
    rfl
  · rw [dif_neg hne, dif_neg hne]
    cases router.policy with
    | roundRobin =>
      dsimp only
      rw [alone_selectInTurn_snd, alone_selectInTurn_snd]
      simp only [h.nextWorker_eq, h.matched_eq]
    | cacheAware =>
      dsimp only
      rw [alone_selectBest_snd, alone_selectBest_snd, picked_congr h]
      simp only [h.matched_eq, h.load_eq]
    | disaggregated => rfl

/-- After the same chat call, states that differed in times only still differ in times only. -/
lemma Router.touched_selectForChat_congr (hasher : Option UInt64 → List Char → UInt64)
    (h : s.Touched s') (clock clock' : ℕ → Instant) (request : ChatCompletionRequest) :
    ((router.selectForChat hasher fl clock request).alone s).1.Touched
      ((router.selectForChat hasher fl clock' request).alone s').1 := by
  have hresult := @alone_selectForChat_snd_congr fl router s s' hasher h clock clock' request
  have heffect := routing_exact hasher fl router (.chat clock request) s
  have heffect' := routing_exact hasher fl router (.chat clock' request) s'
  simp only [RoutingCall.program] at heffect heffect'
  rw [hresult] at heffect'
  rcases heffect with ⟨d, hd, hrouted⟩ | ⟨⟨e, he⟩, hsame⟩
  · -- both calls record the chain for the same worker
    rcases heffect' with ⟨d', hd', hrouted'⟩ | ⟨⟨e', he'⟩, -⟩
    · obtain rfl : d = d' := Except.ok.inj (hd.symm.trans hd')
      exact h.routedTo hrouted hrouted'
    · rw [hd] at he'
      cases he'
  · -- both calls fail, and change nothing
    rcases heffect' with ⟨d', hd', -⟩ | ⟨-, hsame'⟩
    · rw [he] at hd'
      cases hd'
    · rwa [hsame, hsame']

end Congr

end KvRoute
