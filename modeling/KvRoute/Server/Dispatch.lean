import Mathlib.Algebra.Order.Field.Basic
import Mathlib.Data.UInt
import Mathlib.Tactic.Linarith
import Mathlib.Tactic.NormNum
import Mathlib.Tactic.Positivity
import KvRoute.Core.Scoring
import KvRoute.Server.State

set_option relaxedAutoImplicit false
set_option autoImplicit false

/-!
# Dispatching and load

A request that has been routed holds a guard of the worker it was routed to, from its selection
on (`serve_proxied` and `serve_disaggregated` in `crates/router-server/src/api.rs`).  Here
selections, each with its guard acquired before the next step, run next to health probes and
sweeps, none of the requests completing meanwhile.  Scoring charges every candidate for its load,
and this bounds how far the loads of candidates drift apart.

## Main definitions

* `ServerOp.decision`, `ServerOp.hold` — what a step decides, and the step with its guard.
* `ServerOp.candidates`, `ServerOp.chain`, `ServerOp.Scores` — what a scored selection is about.
* `KvRoute.Among` — selections are scored, among fixed candidates, with bounded chains.
* `KvRoute.CountsUp` — the guard of a step does not wrap its counter.

## Main results

* `ServerOp.decision_of_scores` — a scored selection decides for the candidate that is picked.
* `KvRoute.hot_spotting_bounded` — how much more load than others the chosen worker can have, and
  how far apart the loads of fixed candidates can be.
-/

namespace KvRoute

/-! ## Steps with guards -/

namespace ServerOp

variable (hasher : Option UInt64 → List Char → UInt64) (fl : F64.Rounding) (router : Router)

/-- The routing decision of a step, if it makes one. -/
def decision (op : ServerOp) (s : Shared) : Option RouteDecision :=
  match op with
  | .chat clock request => ((router.selectForChat hasher fl clock request).alone s).2.toOption
  | .phase clock pool chain => ((router.selectInPool fl clock pool chain).alone s).2.toOption
  | .probe .. | .evict .. => none

/-- A step after which the guard of its decision is acquired. -/
def hold (s : Shared) (op : ServerOp) : Shared :=
  let s' := op.serve hasher fl router s
  match op.decision hasher fl router s with
  | some d => { s' with inflight := s'.inflight.increment d.worker.id }
  | none => s'

/-- The chain that a step routes. -/
def chain (op : ServerOp) : List UInt64 :=
  match op with
  | .chat _ request => chainHash hasher request.canonicalPrompt router.blockSize
  | .phase _ _ chain => chain
  | .probe .. | .evict .. => []

/-- The candidates of a step. -/
def candidates (op : ServerOp) (s : Shared) : List Worker :=
  match op with
  | .chat .. => Router.chatCandidates s.registry.healthyWorkers
  | .phase _ pool _ => Router.poolCandidates pool s.registry.healthyWorkers
  | .probe .. | .evict .. => []

/-- A step is a selection that scores its candidates. -/
def Scores (op : ServerOp) : Prop :=
  match op with
  | .chat .. => router.policy = .cacheAware
  | .phase .. => True
  | .probe .. | .evict .. => False

variable {hasher fl router}

/-- **A scored selection** decides for the candidate that is picked, if there is one. -/
theorem decision_of_scores {op : ServerOp} (h : op.Scores router) (s : Shared) :
    op.decision hasher fl router s =
      (router.picked fl s (op.chain hasher router) (op.candidates s)).map fun w =>
        ⟨w, s.matched (op.chain hasher router) w.id, (op.chain hasher router).length,
          router.score fl (s.matched (op.chain hasher router) w.id) (s.load w.id)⟩ := by
  cases op with
  | chat clock request =>
    rw [decision, Router.selectForChat, Program.alone_healthyWorkers_bind, candidates, chain]
    dsimp only
    split_ifs with hnil
    · rw [hnil]
      rfl
    · rw [show router.policy = .cacheAware from h]
      dsimp only
      rw [Router.alone_selectBest_snd]
      cases router.picked fl s _ _ <;> rfl
  | phase clock pool chain =>
    rw [decision, Router.selectInPool, Program.alone_healthyWorkers_bind, candidates,
      ServerOp.chain]
    dsimp only
    split_ifs with hnil
    · rw [List.isEmpty_iff.mp hnil]
      rfl
    · rw [Router.alone_selectBest_snd]
      cases router.picked fl s _ _ <;> rfl
  | probe worker healthy => exact h.elim
  | evict order now ttl maxEntries => exact h.elim

/-- **A selection in turn** decides for the candidate whose turn it is, if there is one. -/
theorem decision_in_turn (hpolicy : router.policy = .roundRobin) (clock : ℕ → Instant)
    (request : ChatCompletionRequest) (s : Shared) :
    (ServerOp.chat clock request).decision hasher fl router s =
      (((ServerOp.chat clock request).candidates s)[s.nextWorker.toNat %
        ((ServerOp.chat clock request).candidates s).length]?).map fun w =>
          ⟨w, s.matched ((ServerOp.chat clock request).chain hasher router) w.id,
            ((ServerOp.chat clock request).chain hasher router).length, .finite 0⟩ := by
  rw [decision, Router.selectForChat, Program.alone_healthyWorkers_bind, candidates, chain]
  dsimp only
  split_ifs with hnil
  · rw [hnil]
    rfl
  · rw [hpolicy]
    dsimp only
    have hlen := Nat.mod_lt s.nextWorker.toNat
      (List.length_pos_iff.mpr (Router.chatCandidates_ne_nil hnil))
    rw [List.getElem?_eq_getElem hlen, Router.alone_selectInTurn_snd]
    rfl

/-- A selection in turn takes a ticket. -/
theorem nextWorker_hold_in_turn (hpolicy : router.policy = .roundRobin) (clock : ℕ → Instant)
    (request : ChatCompletionRequest) {s : Shared}
    (hne : (ServerOp.chat clock request).candidates s ≠ []) :
    ((ServerOp.chat clock request).hold hasher fl router s).nextWorker = s.nextWorker + 1 := by
  have hup : s.registry.healthyWorkers ≠ [] := by
    intro hnil
    apply hne
    rw [candidates, hnil]
    rfl
  have hserve : ((ServerOp.chat clock request).serve hasher fl router s).nextWorker =
      s.nextWorker + 1 := by
    rw [serve, Router.selectForChat, Program.alone_healthyWorkers_bind]
    dsimp only
    rw [dif_neg hup, hpolicy]
    dsimp only
    rw [Router.alone_selectInTurn]
  rw [hold]
  cases (ServerOp.chat clock request).decision hasher fl router s <;> exact hserve

theorem hold_of_none {op : ServerOp} {s : Shared} (h : op.decision hasher fl router s = none) :
    op.hold hasher fl router s = op.serve hasher fl router s := by
  rw [hold, h]

theorem hold_of_some {op : ServerOp} {s : Shared} {d : RouteDecision}
    (h : op.decision hasher fl router s = some d) :
    op.hold hasher fl router s =
      { op.serve hasher fl router s with
        inflight := s.inflight.increment d.worker.id } := by
  rw [hold, h]
  dsimp only
  rw [(op.kept_serve hasher fl router s).inflight_eq]

/-- A step without a decision changes no load. -/
theorem load_hold_of_none {op : ServerOp} {s : Shared}
    (h : op.decision hasher fl router s = none) (w : WorkerId) :
    (op.hold hasher fl router s).load w = s.load w := by
  rw [hold_of_none h, Shared.load, (op.kept_serve hasher fl router s).inflight_eq, Shared.load]

/-- A step with a decision adds the chosen worker's guard to its load, unless the counter wraps or
the worker is not tracked; no other load changes. -/
theorem load_hold_of_some {op : ServerOp} {s : Shared} {d : RouteDecision}
    (h : op.decision hasher fl router s = some d) (w : WorkerId) :
    (op.hold hasher fl router s).load w =
      if d.worker.id = w ∧ w < s.inflight.counts.length then (s.load w + 1) % 2 ^ 64
      else s.load w := by
  rw [hold_of_some h, Shared.load]
  dsimp only
  rw [InflightTracker.count_increment]
  split_ifs
  · rw [UInt64.toNat_add, UInt64.toNat_one]
    rfl
  · rfl

/-- A step is a selection. -/
def Routes : ServerOp → Prop
  | .chat .. | .phase .. => True
  | .probe .. | .evict .. => False

/-- A selection, run alone. -/
theorem routed_serve {op : ServerOp} (h : op.Routes) (s : Shared) :
    ∃ result, op.decision hasher fl router s = result.toOption ∧
      s.Routed (op.candidates s) (op.chain hasher router) result (op.serve hasher fl router s) := by
  cases op with
  | chat clock request => exact ⟨_, rfl, Router.routed_selectForChat s hasher clock request⟩
  | phase clock pool chain => exact ⟨_, rfl, Router.routed_selectInPool s clock pool chain⟩
  | probe worker healthy => exact h.elim
  | evict order now ttl maxEntries => exact h.elim

/-- A selection registers nobody. -/
theorem registry_hold {op : ServerOp} (h : op.Routes) (s : Shared) :
    (op.hold hasher fl router s).registry = s.registry := by
  obtain ⟨result, -, hrouted⟩ := @routed_serve hasher fl router op h s
  rw [hold]
  cases op.decision hasher fl router s <;> exact hrouted.registry_eq

/-- A selection enters the chosen worker for the blocks of its chain, and nobody else for
anything. -/
theorem lists_hold {op : ServerOp} (h : op.Routes) (s : Shared) (w : WorkerId) (hash : UInt64) :
    (op.hold hasher fl router s).prefixIndex.lists w hash = true ↔
      (∃ d, op.decision hasher fl router s = some d ∧ w = d.worker.id ∧
        hash ∈ op.chain hasher router) ∨ s.prefixIndex.lists w hash = true := by
  obtain ⟨result, hdecision, hrouted⟩ := @routed_serve hasher fl router op h s
  have hindex : (op.hold hasher fl router s).prefixIndex =
      (op.serve hasher fl router s).prefixIndex := by
    rw [hold]
    cases op.decision hasher fl router s <;> rfl
  rw [hindex, hrouted.lists_iff, hdecision]
  cases result <;> simp [Except.toOption]

/-- No step shortens or lengthens the tracker. -/
theorem length_hold (op : ServerOp) (s : Shared) :
    (op.hold hasher fl router s).inflight.counts.length = s.inflight.counts.length := by
  cases hd : op.decision hasher fl router s with
  | none => rw [hold_of_none hd, (op.kept_serve hasher fl router s).inflight_eq]
  | some d =>
    rw [hold_of_some hd]
    exact s.inflight.length_increment d.worker.id

end ServerOp

/-! ## Bounded hot-spotting -/

/-- A step of a run among fixed candidates: if it decides, it scores exactly these candidates, for
a chain of at most `blocks` blocks. -/
def Among (hasher : Option UInt64 → List Char → UInt64) (fl : F64.Rounding) (router : Router)
    (candidates : Set Worker) (blocks : ℕ) (s : Shared) (op : ServerOp) : Prop :=
  ∀ d, op.decision hasher fl router s = some d →
    op.Scores router ∧ {v | v ∈ op.candidates s} = candidates ∧
      (op.chain hasher router).length ≤ blocks

/-- The guard of a step, if it acquires one, does not wrap its counter. -/
def CountsUp (hasher : Option UInt64 → List Char → UInt64) (fl : F64.Rounding) (router : Router)
    (s : Shared) (op : ServerOp) : Prop :=
  ∀ d, op.decision hasher fl router s = some d → s.load d.worker.id + 1 < 2 ^ 64

/-- No candidate has more than `gap` more load than any other. -/
def Shared.Balanced (s : Shared) (candidates : Set Worker) (gap : ℚ) : Prop :=
  ∀ w ∈ candidates, ∀ v ∈ candidates, (s.load w.id : ℚ) ≤ s.load v.id + gap

section Balance

variable {hasher : Option UInt64 → List Char → UInt64} {router : Router} {cw lw : ℚ} {s : Shared}
  {op : ServerOp} {d : RouteDecision} {blocks : ℕ}

/-- The chosen worker's load exceeds another candidate's by no more than the cache term can make
up for: its match is at most the whole chain, and the other's is at least nothing. -/
theorem load_le_of_scores (hcw : router.cacheWeight = .finite cw)
    (hlw : router.loadWeight = .finite lw) (hnonneg : 0 ≤ cw) (hpos : 0 < lw)
    (hscores : op.Scores router) (hblocks : (op.chain hasher router).length ≤ blocks)
    (hd : op.decision hasher .exact router s = some d) {v : Worker} (hv : v ∈ op.candidates s) :
    (s.load d.worker.id : ℚ) ≤ s.load v.id + blocks * cw / lw := by
  rw [ServerOp.decision_of_scores hscores, Option.map_eq_some_iff] at hd
  obtain ⟨w, hpicked, rfl⟩ := hd
  dsimp only
  have hscore := Shared.exactScore_le_of_rank_le (Router.rank_le_of_picked hcw hlw hpicked hv)
  rw [Shared.exactScore, Shared.exactScore] at hscore
  have hmatch : (s.matched (op.chain hasher router) w.id : ℚ) * cw ≤ blocks * cw := by
    have hle := (s.matched_le (op.chain hasher router) w.id).trans hblocks
    exact mul_le_mul_of_nonneg_right (Nat.cast_le.mpr hle) hnonneg
  have hother : 0 ≤ (s.matched (op.chain hasher router) v.id : ℚ) * cw :=
    mul_nonneg (Nat.cast_nonneg _) hnonneg
  rw [← sub_le_iff_le_add', le_div_iff₀ hpos]
  linarith

/-- A step among the candidates keeps their loads balanced: only the chosen worker's load grows,
by one, and before the step it was within the gap of every other. -/
theorem Shared.Balanced.hold {candidates : Set Worker}
    (h : s.Balanced candidates (blocks * cw / lw + 1)) (hcw : router.cacheWeight = .finite cw)
    (hlw : router.loadWeight = .finite lw) (hnonneg : 0 ≤ cw) (hpos : 0 < lw)
    (hamong : Among hasher .exact router candidates blocks s op)
    (hcounts : CountsUp hasher .exact router s op) :
    (op.hold hasher .exact router s).Balanced candidates (blocks * cw / lw + 1) := by
  intro w hw v hv
  cases hd : op.decision hasher .exact router s with
  | none =>
    rw [ServerOp.load_hold_of_none hd, ServerOp.load_hold_of_none hd]
    exact h w hw v hv
  | some d =>
    obtain ⟨hscores, hset, hblocks⟩ := hamong d hd
    have hgap : (s.load d.worker.id : ℚ) ≤ s.load v.id + blocks * cw / lw := by
      refine load_le_of_scores hcw hlw hnonneg hpos hscores hblocks hd ?_
      rw [← hset] at hv
      exact hv
    have hfits := hcounts d hd
    -- the load of `v` does not shrink
    have hgrows : s.load v.id ≤ (op.hold hasher .exact router s).load v.id := by
      rw [ServerOp.load_hold_of_some hd]
      split_ifs with hcounted
      · rw [← hcounted.1, Nat.mod_eq_of_lt hfits]
        exact Nat.le_succ _
      · exact le_rfl
    have hgrows' : (s.load v.id : ℚ) ≤ (op.hold hasher .exact router s).load v.id :=
      Nat.cast_le.mpr hgrows
    rw [ServerOp.load_hold_of_some hd w.id]
    split_ifs with hcounted
    · rw [← hcounted.1, Nat.mod_eq_of_lt hfits, Nat.cast_succ]
      linarith
    · have hbefore := h w hw v hv
      linarith

end Balance

/-- **Bounded hot-spotting.**  With finite weights, the cache weight not negative and the load
weight positive, and exact scores: in every state, whatever the index believes, the worker that a
scored selection chooses for at most `blocks` blocks has at most
`blocks * cache_weight / load_weight` more load than any other candidate.  And in every run of
selections among fixed candidates that start with equal loads, with probes and sweeps in between,
each guard acquired before the next step and none released or wrapping its counter, the loads of
two candidates never differ by more than that and one.

**Proof sketch.** The chosen worker's score is at least any other candidate's; the cache terms
differ by at most `blocks * cache_weight`, so the load terms do too (`load_le_of_scores`).  The
second bound is an invariant of such steps (`Shared.Balanced.hold`). -/
theorem hot_spotting_bounded (hasher : Option UInt64 → List Char → UInt64) (router : Router)
    (cw lw : ℚ) (hcw : router.cacheWeight = .finite cw) (hlw : router.loadWeight = .finite lw)
    (hnonneg : 0 ≤ cw) (hpos : 0 < lw) (blocks : ℕ) :
    (∀ (s : Shared) (op : ServerOp) d, op.Scores router →
      (op.chain hasher router).length ≤ blocks → op.decision hasher .exact router s = some d →
        ∀ v ∈ op.candidates s, (s.load d.worker.id : ℚ) ≤ s.load v.id + blocks * cw / lw) ∧
      ∀ (candidates : Set Worker) (s : Shared) (run : List ServerOp),
        (∀ w ∈ candidates, ∀ v ∈ candidates, s.load w.id = s.load v.id) →
        Runs.Along (fun s op => op.hold hasher .exact router s)
          (Among hasher .exact router candidates blocks) s run →
        Runs.Along (fun s op => op.hold hasher .exact router s)
          (CountsUp hasher .exact router) s run →
        (run.foldl (fun s op => op.hold hasher .exact router s) s).Balanced candidates
          (blocks * cw / lw + 1) := by
  constructor
  · intro s op d hscores hblocks hd v hv
    exact load_le_of_scores hcw hlw hnonneg hpos hscores hblocks hd hv
  · intro candidates s run hequal hamong hcounts
    have hgap : 0 ≤ (blocks : ℚ) * cw / lw + 1 := by positivity
    have hstart : s.Balanced candidates (blocks * cw / lw + 1) := by
      intro w hw v hv
      rw [hequal w hw v hv]
      exact le_add_of_nonneg_right hgap
    exact Runs.Along.foldl_inv (I := fun s => s.Balanced candidates (blocks * cw / lw + 1))
      (fun _ _ h hstep => Shared.Balanced.hold h hcw hlw hnonneg hpos hstep.1 hstep.2)
      (hamong.and hcounts) hstart

/-- Two healthy replicas for both phases. -/
def replicas : List Worker := [⟨0, "http://a", .both⟩, ⟨1, "http://b", .both⟩]

/-- A server with these replicas and given counts. -/
def replicasWith (counts : List UInt64) : Shared :=
  { registry := (((WorkerRegistry.fromConfig [⟨"http://a", .both⟩, ⟨"http://b", .both⟩]).setHealthy
      0 true).1.setHealthy 1 true).1
    nextWorker := 0
    prefixIndex := .new
    inflight := ⟨counts⟩ }

/-- A one-block request. -/
def sayHi : ServerOp := .chat (fun _ => 0) ⟨[⟨"user", "hi"⟩]⟩

theorem candidates_sayHi (counts : List UInt64) :
    sayHi.candidates (replicasWith counts) = replicas :=
  show Router.chatCandidates (replicasWith []).registry.healthyWorkers = replicas by decide +kernel

/-- A one-block request is scored among the two replicas. -/
theorem among_sayHi (router : Router) (hpolicy : router.policy = .cacheAware)
    (hblocks : (sayHi.chain defaultHasher router).length ≤ 1) (counts : List UInt64) :
    Among defaultHasher .exact router {v | v ∈ replicas} 1 (replicasWith counts) sayHi := by
  intro d _
  refine ⟨hpolicy, ?_, hblocks⟩
  rw [candidates_sayHi]

/-- One request to two idle replicas. -/
theorem hot_spotting_bounded_two_replicas :
    ([sayHi].foldl (fun s op => op.hold defaultHasher .exact defaultWeights s)
      (replicasWith [0, 0])).Balanced {v | v ∈ replicas} ((1 : ℕ) * 1 / (1 / 2) + 1) := by
  have hd : sayHi.decision defaultHasher .exact defaultWeights (replicasWith [0, 0]) =
      some ⟨⟨0, "http://a", .both⟩, 0, 1, .finite 0⟩ := by decide +kernel
  refine (hot_spotting_bounded defaultHasher defaultWeights 1 (1 / 2) rfl rfl (by norm_num)
    (by norm_num) 1).2 {v | v ∈ replicas} (replicasWith [0, 0]) [sayHi] ?_
      ⟨among_sayHi defaultWeights rfl (by decide +kernel) [0, 0], trivial⟩ ⟨?_, trivial⟩
  · intro w hw v hv
    simp only [replicas, Set.mem_ofPred_eq, List.mem_cons, List.not_mem_nil, or_false] at hw hv
    rcases hw with rfl | rfl <;> rcases hv with rfl | rfl <;> rfl
  · intro d hd'
    obtain rfl := Option.some.inj (hd'.symm.trans hd)
    decide +kernel

/-- A router for which only the load counts. -/
def loadOnly : Router := ⟨.cacheAware, 512, .finite 0, .finite 1⟩

/-- Both counters are full.  The first replica is chosen and its counter wraps: the other one now
has `2 ^ 64 - 1` more. -/
theorem hot_spotting_wraps :
    (∀ w ∈ replicas, ∀ v ∈ replicas, (replicasWith [2 ^ 64 - 1, 2 ^ 64 - 1]).load w.id =
      (replicasWith [2 ^ 64 - 1, 2 ^ 64 - 1]).load v.id) ∧
    Runs.Along (fun s op => op.hold defaultHasher .exact loadOnly s)
      (Among defaultHasher .exact loadOnly {v | v ∈ replicas} 1)
      (replicasWith [2 ^ 64 - 1, 2 ^ 64 - 1]) [sayHi] ∧
    ¬([sayHi].foldl (fun s op => op.hold defaultHasher .exact loadOnly s)
      (replicasWith [2 ^ 64 - 1, 2 ^ 64 - 1])).Balanced {v | v ∈ replicas}
        ((1 : ℕ) * 0 / 1 + 1) := by
  refine ⟨by decide +kernel, ⟨among_sayHi loadOnly rfl (by decide +kernel) _, trivial⟩, fun h => ?_⟩
  have hle := h ⟨1, "http://b", .both⟩ (by simp [replicas]) ⟨0, "http://a", .both⟩
    (by simp [replicas])
  have hfull : ([sayHi].foldl (fun s op => op.hold defaultHasher .exact loadOnly s)
      (replicasWith [2 ^ 64 - 1, 2 ^ 64 - 1])).load 1 = 2 ^ 64 - 1 := by decide +kernel
  have hwrapped : ([sayHi].foldl (fun s op => op.hold defaultHasher .exact loadOnly s)
      (replicasWith [2 ^ 64 - 1, 2 ^ 64 - 1])).load 0 = 0 := by decide +kernel
  dsimp only at hle
  rw [hfull, hwrapped] at hle
  norm_num at hle

end KvRoute
