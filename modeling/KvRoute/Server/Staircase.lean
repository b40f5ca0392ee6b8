import Mathlib.Data.Int.CardIntervalMod
import KvRoute.Server.Dispatch

set_option relaxedAutoImplicit false
set_option autoImplicit false

/-!
# Scored selection without reuse

Requests that share no block with an earlier one match nothing, so only load and id tell their
candidates apart.  With every guard held, the candidates' loads then form a staircase in the order
of ids: the next request goes to the first candidate of the lower step, which is also the one
whose turn it is.  This holds under every rounding that keeps the order, and for infinite load
weights.

The turn is kept in a 64-bit counter, so the two policies part after `2 ^ 64` requests, unless the
number of candidates divides `2 ^ 64`.

## Main definitions

* `KvRoute.decisions` — the decisions of a run.
* `KvRoute.turns` — how many of the first `k` turns were a given candidate's.
* `KvRoute.Staircase` — the invariant: the loads are the turns, and only earlier blocks are listed.
* `KvRoute.SameChoice` — two decisions for the same worker, without a match.

## Main results

* `KvRoute.cacheAware_follows_roundRobin` — the two policies decide alike, for `2 ^ 64` requests.
* `KvRoute.cacheAware_leaves_roundRobin` — and not for one more.
-/

namespace KvRoute

/-- The decisions of a run of steps with guards. -/
def decisions (hasher : Option UInt64 → List Char → UInt64) (fl : F64.Rounding) (router : Router) :
    Shared → List ServerOp → List (Option RouteDecision)
  | _, [] => []
  | s, op :: ops =>
    op.decision hasher fl router s ::
      decisions hasher fl router (op.hold hasher fl router s) ops

/-! ## Unmatched candidates -/

section Unmatched

variable {fl : F64.Rounding} {router : Router} {s : Shared} {chain : List UInt64} {c : ℚ}

/-- Without a match a higher load does not score higher. -/
theorem score_notAbove (hfl : fl.Monotone) (hcw : router.cacheWeight = .finite c)
    (hlw : router.loadWeight.Nonneg) {m n : ℕ} (h : m ≤ n) :
    (router.score fl 0 n).NotAbove (router.score fl 0 m) := by
  have hzero : F64.mul fl (F64.ofNat fl 0) router.cacheWeight = .finite 0 := by
    rw [hcw, F64.ofNat, Nat.cast_zero, hfl.round_zero, F64.mul, zero_mul, hfl.round_zero]
  have hnonneg : ∀ k : ℕ, (F64.ofNat fl k).Nonneg := fun k => hfl.nonneg_round (Nat.cast_nonneg k)
  rw [Router.score, Router.score, hzero]
  apply F64.sub_notAbove hfl
  apply F64.mul_notAbove hfl (hnonneg m) (hnonneg n) hlw
  exact hfl.round_le (Nat.cast_le.mpr h)

/-- Unmatched candidates are compared by load, then by id. -/
theorem rated_cmp_eq_gt_iff_of_unmatched (hfl : fl.Monotone)
    (hcw : router.cacheWeight = .finite c) (hlw : router.loadWeight.Nonneg) {w v : Worker}
    (hw : s.matched chain w.id = 0) (hv : s.matched chain v.id = 0) :
    (router.rated fl s chain w).candidate.cmp (router.rated fl s chain v).candidate = .gt ↔
      s.load w.id < s.load v.id ∨ s.load w.id = s.load v.id ∧ w.id < v.id := by
  have hcount : compare (s.inflight.count v.id) (s.inflight.count w.id) = .gt ↔
      s.load w.id < s.load v.id := by
    rw [Std.compare_eq_gt, UInt64.lt_iff_toNat_lt]
    rfl
  have hcount' : compare (s.inflight.count v.id) (s.inflight.count w.id) = .eq ↔
      s.load w.id = s.load v.id := by
    rw [Std.compare_eq_iff_eq, ← UInt64.toNat_inj, eq_comm]
    rfl
  rw [Candidate.cmp, Ordering.then_eq_gt, Ordering.then_eq_gt]
  dsimp only [Router.rated]
  rw [hw, hv, hcount, hcount', Nat.compare_eq_gt]
  rcases lt_trichotomy (s.load w.id) (s.load v.id) with hlt | heq | hgt
  · -- a lower load does not score lower, and breaks the tie
    have hle := F64.notAbove_iff_ne_lt.mp (score_notAbove hfl hcw hlw hlt.le)
    refine iff_of_true ?_ (Or.inl hlt)
    cases hcmp : (router.score fl 0 (s.load w.id)).partialCmp (router.score fl 0 (s.load v.id)) with
    | none => exact Or.inr ⟨rfl, Or.inl hlt⟩
    | some o =>
      cases o with
      | lt => exact absurd hcmp hle
      | eq => exact Or.inr ⟨rfl, Or.inl hlt⟩
      | gt => exact Or.inl rfl
  · rw [heq, F64.partialCmp_self]
    simp
  · have hle : (router.score fl 0 (s.load w.id)).partialCmp
        (router.score fl 0 (s.load v.id)) ≠ some .gt := score_notAbove hfl hcw hlw hgt.le
    refine iff_of_false ?_ (by omega)
    rintro (hup | ⟨-, hlt | ⟨heq, -⟩⟩)
    · cases hcmp : (router.score fl 0 (s.load w.id)).partialCmp
        (router.score fl 0 (s.load v.id)) with
      | none => rw [hcmp] at hup; cases hup
      | some o => rw [hcmp, Option.getD_some] at hup; exact hle (hcmp.trans (congrArg some hup))
    · omega
    · omega

/-- The key of an unmatched worker: lower loads and lower ids are greater. -/
def Shared.lightness (s : Shared) (w : WorkerId) : ℕᵒᵈ ×ₗ ℕᵒᵈ :=
  toLex (OrderDual.toDual (s.load w), OrderDual.toDual w)

/-- Of unmatched candidates the one picked has the lowest load, and among those the lowest id. -/
theorem picked_of_unmatched (hfl : fl.Monotone) (hcw : router.cacheWeight = .finite c)
    (hlw : router.loadWeight.Nonneg) {candidates : List Worker}
    (hunmatched : ∀ w ∈ candidates, s.matched chain w.id = 0) {w : Worker}
    (hw : router.picked fl s chain candidates = some w) {v : Worker} (hv : v ∈ candidates) :
    s.load w.id < s.load v.id ∨ s.load w.id = s.load v.id ∧ w.id ≤ v.id := by
  have hcmp : ∀ a ∈ candidates, ∀ b ∈ candidates, (router.rated fl s chain a).candidate.cmp
      (router.rated fl s chain b).candidate = .gt ↔ s.lightness b.id < s.lightness a.id := by
    intro a ha b hb
    rw [rated_cmp_eq_gt_iff_of_unmatched hfl hcw hlw (hunmatched a ha) (hunmatched b hb),
      Shared.lightness, Shared.lightness, Prod.Lex.toLex_lt_toLex, OrderDual.toDual_lt_toDual,
      OrderDual.toDual_inj, OrderDual.toDual_lt_toDual, eq_comm (a := s.load a.id)]
  have hle : s.lightness v.id ≤ s.lightness w.id :=
    Slices.key_le_of_maxBy_eq_some hcmp hw v hv
  rw [Shared.lightness, Shared.lightness, Prod.Lex.toLex_le_toLex, OrderDual.toDual_lt_toDual,
    OrderDual.toDual_inj, OrderDual.toDual_le_toDual, eq_comm] at hle
  exact hle

end Unmatched

/-! ## The staircase -/

/-- How many of the first `k` turns among `n` candidates were the `j`-th one's. -/
def turns (n j k : ℕ) : ℕ := Nat.count (· ≡ j [MOD n]) k

theorem turns_le (n j k : ℕ) : turns n j k ≤ k := Nat.count_le _

/-- The turns form a staircase: everybody had `k / n`, and the first `k % n` had one more. -/
theorem turns_eq {n j : ℕ} (hj : j < n) (k : ℕ) :
    turns n j k = k / n + if j < k % n then 1 else 0 := by
  rw [turns, Nat.count_modEq_card k (Nat.zero_lt_of_lt hj), Nat.mod_eq_of_lt hj]

/-- The next turn is the `k % n`-th candidate's. -/
theorem turns_succ {n j : ℕ} (hj : j < n) (k : ℕ) :
    turns n j (k + 1) = turns n j k + if k % n = j then 1 else 0 := by
  have hiff : k ≡ j [MOD n] ↔ k % n = j := by rw [Nat.ModEq, Nat.mod_eq_of_lt hj]
  rw [turns, Nat.count_succ, turns]
  simp only [hiff]

/-- The invariant after `k` requests without reuse, all of them held: the candidates are fixed and
tracked, their loads are the turns, only earlier blocks are listed, and the next ticket is `k`. -/
structure Staircase (policy : RoutingPolicy) (candidates : List Worker) (k : ℕ)
    (seen : Set UInt64) (s : Shared) : Prop where
  /-- The candidates are fixed. -/
  candidates_eq : Router.chatCandidates s.registry.healthyWorkers = candidates
  /-- The loads are the turns, as far as the counters go. -/
  load_eq : ∀ j (hj : j < candidates.length),
    s.load candidates[j].id = turns candidates.length j k % 2 ^ 64
  /-- The candidates are tracked. -/
  tracked : ∀ w ∈ candidates, w.id < s.inflight.counts.length
  /-- Only blocks of earlier requests are listed. -/
  seen : ∀ w h, s.prefixIndex.lists w h = true → h ∈ seen
  /-- The turn, as far as the counter goes. -/
  turn : policy = .roundRobin → s.nextWorker.toNat = k % 2 ^ 64

/-- A decision for the `k`-th turn, without a match. -/
def TakesTurn (candidates : List Worker) (k : ℕ) (o : Option RouteDecision) : Prop :=
  ∃ d, o = some d ∧ candidates[k % candidates.length]? = some d.worker ∧ d.matchedPrefixLen = 0

/-- Two decisions for the same worker, without a match. -/
def SameChoice (o o' : Option RouteDecision) : Prop :=
  ∃ d d', o = some d ∧ o' = some d' ∧ d.worker = d'.worker ∧ d.matchedPrefixLen = 0 ∧
    d'.matchedPrefixLen = 0

theorem TakesTurn.sameChoice {candidates : List Worker} {k : ℕ} {o o' : Option RouteDecision}
    (h : TakesTurn candidates k o) (h' : TakesTurn candidates k o') : SameChoice o o' := by
  obtain ⟨d, rfl, hd, hmatched⟩ := h
  obtain ⟨d', rfl, hd', hmatched'⟩ := h'
  exact ⟨d, d', rfl, rfl, Option.some.inj (hd.symm.trans hd'), hmatched, hmatched'⟩

namespace Staircase

variable {hasher : Option UInt64 → List Char → UInt64} {fl : F64.Rounding} {router : Router}
  {candidates : List Worker} {k : ℕ} {seen : Set UInt64} {s : Shared} {c : ℚ}

/-- A chain of new blocks matches nothing. -/
theorem matched_eq_zero (h : Staircase router.policy candidates k seen s) {chain : List UInt64}
    (hnew : ∀ hash ∈ chain, hash ∉ seen) (w : WorkerId) : s.matched chain w = 0 := by
  cases chain with
  | nil => rfl
  | cons hash chain =>
    have hmiss : ¬s.prefixIndex.lists w hash = true :=
      fun hlists => hnew hash List.mem_cons_self (h.seen w hash hlists)
    rw [Shared.matched, PrefixIndex.matchedHashes, List.takeWhile_cons_of_neg hmiss]
    rfl

/-- Of the staircase the first candidate of the lower step is picked: everybody's load is at least
`k / n`, those before it have one more, and those after it higher ids. -/
theorem picked_eq (h : Staircase router.policy candidates k seen s) (hfl : fl.Monotone)
    (hcw : router.cacheWeight = .finite c) (hlw : router.loadWeight.Nonneg)
    (hsorted : candidates.Pairwise fun w v => w.id < v.id)
    (hfits : ∀ j < candidates.length, turns candidates.length j k < 2 ^ 64) {chain : List UInt64}
    (hnew : ∀ hash ∈ chain, hash ∉ seen) {w : Worker}
    (hw : router.picked fl s chain candidates = some w) :
    candidates[k % candidates.length]? = some w := by
  obtain ⟨j, hj, rfl⟩ := List.getElem_of_mem (Slices.mem_of_maxBy_eq_some hw)
  have hlt := Nat.mod_lt k (Nat.zero_lt_of_lt hj)
  have hbest := picked_of_unmatched hfl hcw hlw (fun v _ => h.matched_eq_zero hnew v.id) hw
    (List.getElem_mem hlt)
  rw [h.load_eq j hj, h.load_eq _ hlt, Nat.mod_eq_of_lt (hfits j hj),
    Nat.mod_eq_of_lt (hfits _ hlt), turns_eq hj, turns_eq hlt, if_neg (lt_irrefl _)] at hbest
  have hid : k % candidates.length < j → candidates[k % candidates.length].id < candidates[j].id :=
    fun hlow => List.pairwise_iff_getElem.mp hsorted _ _ hlt hj hlow
  have heq : j = k % candidates.length := by
    rcases lt_trichotomy j (k % candidates.length) with hlow | heq | hhigh
    · rw [if_pos hlow] at hbest
      omega
    · exact heq
    · have hid := hid hhigh
      split_ifs at hbest
      · omega
      · lia
  rw [List.getElem?_eq_getElem hlt]
  simp only [heq]

/-- With new blocks, a scored selection takes the turn. -/
theorem takesTurn_cacheAware (h : Staircase router.policy candidates k seen s)
    (hpolicy : router.policy = .cacheAware) (hfl : fl.Monotone)
    (hcw : router.cacheWeight = .finite c) (hlw : router.loadWeight.Nonneg)
    (hne : candidates ≠ []) (hsorted : candidates.Pairwise fun w v => w.id < v.id)
    (hfits : ∀ j < candidates.length, turns candidates.length j k < 2 ^ 64)
    (clock : ℕ → Instant) (request : ChatCompletionRequest)
    (hnew : ∀ hash ∈ (ServerOp.chat clock request).chain hasher router, hash ∉ seen) :
    TakesTurn candidates k ((ServerOp.chat clock request).decision hasher fl router s) := by
  have hcandidates : (ServerOp.chat clock request).candidates s = candidates := h.candidates_eq
  obtain ⟨w, hw⟩ := Option.ne_none_iff_exists'.mp
    (mt Router.picked_eq_none.mp hne : router.picked fl s
      ((ServerOp.chat clock request).chain hasher router) candidates ≠ none)
  rw [@ServerOp.decision_of_scores hasher fl router (.chat clock request) hpolicy, hcandidates, hw]
  exact ⟨_, rfl, h.picked_eq hfl hcw hlw hsorted hfits hnew hw, h.matched_eq_zero hnew w.id⟩

/-- With new blocks, a selection in turn takes the turn, as long as the ticket has not wrapped. -/
theorem takesTurn_roundRobin (h : Staircase router.policy candidates k seen s)
    (hpolicy : router.policy = .roundRobin) (hne : candidates ≠ []) (hk : k < 2 ^ 64)
    (clock : ℕ → Instant) (request : ChatCompletionRequest)
    (hnew : ∀ hash ∈ (ServerOp.chat clock request).chain hasher router, hash ∉ seen) :
    TakesTurn candidates k ((ServerOp.chat clock request).decision hasher fl router s) := by
  have hcandidates : (ServerOp.chat clock request).candidates s = candidates := h.candidates_eq
  have hlt := Nat.mod_lt k (List.length_pos_iff.mpr hne)
  rw [ServerOp.decision_in_turn hpolicy, hcandidates, h.turn hpolicy, Nat.mod_eq_of_lt hk,
    List.getElem?_eq_getElem hlt]
  exact ⟨_, rfl, List.getElem?_eq_getElem hlt, h.matched_eq_zero hnew _⟩

/-- A selection that takes the turn keeps the invariant. -/
theorem hold (h : Staircase router.policy candidates k seen s) (hne : candidates ≠ [])
    (hsorted : candidates.Pairwise fun w v => w.id < v.id) (clock : ℕ → Instant)
    (request : ChatCompletionRequest)
    (hturn : TakesTurn candidates k ((ServerOp.chat clock request).decision hasher fl router s)) :
    Staircase router.policy candidates (k + 1)
      (seen ∪ {hash | hash ∈ (ServerOp.chat clock request).chain hasher router})
      ((ServerOp.chat clock request).hold hasher fl router s) := by
  obtain ⟨d, hd, hworker, -⟩ := hturn
  obtain ⟨hlt, hworker⟩ := List.getElem?_eq_some_iff.mp hworker
  have hcandidates : (ServerOp.chat clock request).candidates s = candidates := h.candidates_eq
  refine
    { candidates_eq := ?candidates_eq
      load_eq := ?load_eq
      tracked := ?tracked
      seen := ?seen
      turn := ?turn }
  case candidates_eq =>
    rw [@ServerOp.registry_hold hasher fl router (.chat clock request) trivial]
    exact h.candidates_eq
  case load_eq =>
    intro j hj
    have htracked := h.tracked _ (List.getElem_mem hj)
    have hsame : d.worker.id = candidates[j].id ↔ k % candidates.length = j := by
      rw [← hworker]
      constructor
      · intro hid
        by_contra hne
        rcases lt_or_gt_of_ne hne with hlow | hhigh
        · exact absurd hid (List.pairwise_iff_getElem.mp hsorted _ _ hlt hj hlow).ne
        · exact absurd hid (List.pairwise_iff_getElem.mp hsorted _ _ hj hlt hhigh).ne'
      · rintro rfl
        rfl
    rw [ServerOp.load_hold_of_some hd, turns_succ hj, h.load_eq j hj]
    by_cases hj' : k % candidates.length = j
    · rw [if_pos ⟨hsame.mpr hj', htracked⟩, if_pos hj', Nat.mod_add_mod]
    · rw [if_neg fun hcounted => hj' (hsame.mp hcounted.1), if_neg hj', Nat.add_zero]
  case tracked =>
    intro w hw
    rw [ServerOp.length_hold]
    exact h.tracked w hw
  case seen =>
    intro w hash hlists
    rw [@ServerOp.lists_hold hasher fl router (.chat clock request) trivial] at hlists
    rcases hlists with ⟨_, -, -, hchain⟩ | hold
    · exact Or.inr hchain
    · exact Or.inl (h.seen w hash hold)
  case turn =>
    intro hpolicy
    rw [ServerOp.nextWorker_hold_in_turn hpolicy clock request (by rwa [hcandidates]),
      UInt64.toNat_add, h.turn hpolicy, UInt64.toNat_one, Nat.mod_add_mod]

/-- A fresh router over a registry, with an empty index, the first ticket and no counts. -/
theorem fresh (policy : RoutingPolicy) {registry : WorkerRegistry} {capacity : ℕ}
    (htracked : ∀ w ∈ Router.chatCandidates registry.healthyWorkers, w.id < capacity) :
    Staircase policy (Router.chatCandidates registry.healthyWorkers) 0 ∅
      ⟨registry, 0, .new, .withCapacity capacity⟩ where
  candidates_eq := rfl
  load_eq j hj := by
    rw [Shared.load, InflightTracker.count_withCapacity, turns, Nat.count_zero]
    rfl
  tracked w hw := by
    rw [InflightTracker.withCapacity, List.length_replicate]
    exact htracked w hw
  seen w hash hlists := nomatch hlists
  turn _ := rfl

end Staircase

/-! ## Runs -/

/-- The requests of a run, as steps. -/
def chats (run : List ((ℕ → Instant) × ChatCompletionRequest)) : List ServerOp :=
  run.map fun r => .chat r.1 r.2

/-- The blocks that a run routes. -/
def blocksOf (hasher : Option UInt64 → List Char → UInt64) (router : Router)
    (ops : List ServerOp) : Set UInt64 := {hash | ∃ op ∈ ops, hash ∈ op.chain hasher router}

/-- No block of a request was routed before. -/
def NewBlocks (hasher : Option UInt64 → List Char → UInt64) (router : Router)
    (ops : List ServerOp) : Prop :=
  ops.Pairwise fun earlier later =>
    (earlier.chain hasher router).Disjoint (later.chain hasher router)

section Runs

variable {hasher : Option UInt64 → List Char → UInt64} {fl : F64.Rounding} {router : Router}
  {candidates : List Worker} {c : ℚ}

/-- In a run without reuse every decision takes its turn, as long as `decides` says so of single
steps; afterwards the invariant holds of the next turn. -/
theorem Staircase.run {limit : ℕ} (hne : candidates ≠ [])
    (hsorted : candidates.Pairwise fun w v => w.id < v.id)
    (hdecides : ∀ k < limit, ∀ seen s, Staircase router.policy candidates k seen s →
      ∀ clock request, (∀ hash ∈ (ServerOp.chat clock request).chain hasher router, hash ∉ seen) →
        TakesTurn candidates k ((ServerOp.chat clock request).decision hasher fl router s))
    (run : List ((ℕ → Instant) × ChatCompletionRequest)) {k : ℕ} {seen : Set UInt64} {s : Shared}
    (h : Staircase router.policy candidates k seen s) (hlimit : k + run.length ≤ limit)
    (hnew : NewBlocks hasher router (chats run))
    (hseen : ∀ hash ∈ blocksOf hasher router (chats run), hash ∉ seen) :
    (∀ i (hi : i < (decisions hasher fl router s (chats run)).length),
      TakesTurn candidates (k + i) (decisions hasher fl router s (chats run))[i]) ∧
      ∃ seen', Staircase router.policy candidates (k + run.length) seen'
        ((chats run).foldl (fun s op => op.hold hasher fl router s) s) := by
  induction run generalizing k seen s with
  | nil => exact ⟨fun i hi => absurd hi (Nat.not_lt_zero i), seen, h⟩
  | cons r run ih =>
    obtain ⟨hhead, htail⟩ := List.pairwise_cons.mp hnew
    have hturn := hdecides k (by rw [List.length_cons] at hlimit; omega) seen s h r.1 r.2
      fun hash hmem => hseen hash ⟨_, List.mem_cons_self, hmem⟩
    have hseen' : ∀ hash ∈ blocksOf hasher router (chats run),
        hash ∉ seen ∪ {hash | hash ∈ (ServerOp.chat r.1 r.2).chain hasher router} := by
      rintro hash ⟨op, hop, hmem⟩ (hold | hchain)
      · exact hseen hash ⟨op, List.mem_cons_of_mem _ hop, hmem⟩ hold
      · exact hhead op hop hchain hmem
    obtain ⟨hrest, hfinal⟩ := ih (h.hold hne hsorted r.1 r.2 hturn)
      (by rw [List.length_cons] at hlimit; omega) htail hseen'
    constructor
    · intro i hi
      cases i with
      | zero => exact hturn
      | succ i =>
        have hi' := hrest i (Nat.lt_of_succ_lt_succ hi)
        rwa [Nat.add_right_comm] at hi'
    · rw [List.length_cons, ← Nat.add_assoc, Nat.add_right_comm]
      exact hfinal

theorem length_decisions (s : Shared) (ops : List ServerOp) :
    (decisions hasher fl router s ops).length = ops.length := by
  induction ops generalizing s with
  | nil => rfl
  | cons op ops ih => rw [decisions, List.length_cons, List.length_cons, ih]

theorem decisions_append (s : Shared) (ops ops' : List ServerOp) :
    decisions hasher fl router s (ops ++ ops') = decisions hasher fl router s ops ++
      decisions hasher fl router (ops.foldl (fun s op => op.hold hasher fl router s) s) ops' := by
  induction ops generalizing s with
  | nil => rfl
  | cons op ops ih =>
    rw [List.cons_append, decisions, ih]
    rfl

/-- The policy does not matter for the chain. -/
theorem chain_setPolicy (policy : RoutingPolicy) (op : ServerOp) :
    op.chain hasher { router with policy } = op.chain hasher router := by
  cases op <;> rfl

theorem newBlocks_setPolicy (policy : RoutingPolicy) {ops : List ServerOp} :
    NewBlocks hasher { router with policy } ops ↔ NewBlocks hasher router ops := by
  simp only [NewBlocks, chain_setPolicy]

end Runs

section Policies

variable (hasher : Option UInt64 → List Char → UInt64) (fl : F64.Rounding) (router : Router)

/-- The decisions of a fresh router with the given policy over a registry. -/
def freshDecisions (policy : RoutingPolicy) (registry : WorkerRegistry) (capacity : ℕ)
    (run : List ((ℕ → Instant) × ChatCompletionRequest)) : List (Option RouteDecision) :=
  decisions hasher fl { router with policy } ⟨registry, 0, .new, .withCapacity capacity⟩ (chats run)

/-- **Without reuse `cache_aware` is `round_robin`.**  Over every registry with fixed, tracked
candidates, under every rounding that keeps the order, for a finite cache weight and a load weight
of at least zero: for up to `2 ^ 64` requests without reuse, each selected and its guard acquired
before the next one and none completing, a fresh scoring router and a fresh router that takes
turns decide for the same worker at every step, both without a match.

**Proof sketch.** Both decide for the `k % n`-th candidate at step `k`: the scoring router by the
invariant `Staircase` (`Staircase.picked_eq`), the other one by its ticket, and the invariant is
kept by whatever takes the turn (`Staircase.hold`, `Staircase.run`). -/
theorem cacheAware_follows_roundRobin (hfl : fl.Monotone) {c : ℚ}
    (hcw : router.cacheWeight = .finite c) (hlw : router.loadWeight.Nonneg)
    {registry : WorkerRegistry} (hreg : registry.WellFormed)
    (hne : Router.chatCandidates registry.healthyWorkers ≠ []) {capacity : ℕ}
    (htracked : ∀ w ∈ Router.chatCandidates registry.healthyWorkers, w.id < capacity)
    (run : List ((ℕ → Instant) × ChatCompletionRequest)) (hlen : run.length ≤ 2 ^ 64)
    (hnew : NewBlocks hasher router (chats run)) :
    List.Forall₂ SameChoice (freshDecisions hasher fl router .cacheAware registry capacity run)
      (freshDecisions hasher fl router .roundRobin registry capacity run) := by
  have hsorted := hreg.pairwise_healthyWorkers.sublist (Router.chatCandidates_sublist _)
  have hstart : ∀ policy, Staircase ({ router with policy } : Router).policy
      (Router.chatCandidates registry.healthyWorkers) 0 ∅
      ⟨registry, 0, .new, .withCapacity capacity⟩ := fun policy => .fresh policy htracked
  have hscored := (@Staircase.run hasher fl { router with policy := .cacheAware } _ (2 ^ 64) hne
    hsorted (fun k hk seen s h clock request hfresh => h.takesTurn_cacheAware rfl hfl hcw hlw hne
      hsorted (fun j _ => lt_of_le_of_lt (turns_le _ j k) hk) clock request hfresh)
    run 0 ∅ _ (hstart _) (by omega) ((newBlocks_setPolicy _).mpr hnew)
    fun _ _ => Set.notMem_empty _).1
  have hinTurn := (@Staircase.run hasher fl { router with policy := .roundRobin } _ (2 ^ 64) hne
    hsorted (fun k hk seen s h clock request hfresh => h.takesTurn_roundRobin rfl hne hk clock
      request hfresh)
    run 0 ∅ _ (hstart _) (by omega) ((newBlocks_setPolicy _).mpr hnew)
    fun _ _ => Set.notMem_empty _).1
  rw [List.forall₂_iff_get]
  refine ⟨by rw [freshDecisions, freshDecisions, length_decisions, length_decisions],
    fun i hi hi' => ?_⟩
  exact (hscored i hi).sameChoice (hinTurn i hi')

end Policies

/-- Three healthy replicas for both phases. -/
def threeReplicas : WorkerRegistry :=
  let registry := WorkerRegistry.fromConfig
    [⟨"http://a", .both⟩, ⟨"http://b", .both⟩, ⟨"http://c", .both⟩]
  (((registry.setHealthy 0 true).1.setHealthy 1 true).1.setHealthy 2 true).1

theorem wellFormed_threeReplicas : threeReplicas.WellFormed :=
  (((WorkerRegistry.wellFormed_fromConfig _).setHealthy 0 true).setHealthy 1 true).setHealthy 2 true

theorem chatCandidates_threeReplicas : Router.chatCandidates threeReplicas.healthyWorkers =
    [⟨0, "http://a", .both⟩, ⟨1, "http://b", .both⟩, ⟨2, "http://c", .both⟩] := by decide +kernel

theorem chatCandidates_threeReplicas_ne_nil :
    Router.chatCandidates threeReplicas.healthyWorkers ≠ [] := by
  rw [chatCandidates_threeReplicas]
  exact List.cons_ne_nil _ _

theorem pairwise_chatCandidates_threeReplicas :
    (Router.chatCandidates threeReplicas.healthyWorkers).Pairwise fun w v => w.id < v.id :=
  wellFormed_threeReplicas.pairwise_healthyWorkers.sublist (Router.chatCandidates_sublist _)

theorem tracked_threeReplicas :
    ∀ w ∈ Router.chatCandidates threeReplicas.healthyWorkers, w.id < 3 := by
  rw [chatCandidates_threeReplicas]
  decide

/-- Two different prompts. -/
def twoPrompts : List ((ℕ → Instant) × ChatCompletionRequest) :=
  [(fun _ => 0, ⟨[⟨"user", "hi"⟩]⟩), (fun _ => 1, ⟨[⟨"user", "ho"⟩]⟩)]

/-- Two different prompts go to the first two replicas under both policies. -/
theorem cacheAware_follows_roundRobin_two_prompts :
    List.Forall₂ SameChoice
      (freshDecisions defaultHasher .exact defaultWeights .cacheAware threeReplicas 3 twoPrompts)
      (freshDecisions defaultHasher .exact defaultWeights .roundRobin threeReplicas 3
        twoPrompts) := by
  refine cacheAware_follows_roundRobin defaultHasher .exact defaultWeights
    F64.Rounding.monotone_exact rfl
    (show (0 : ℚ) ≤ 1 / 2 by norm_num) wellFormed_threeReplicas
    chatCandidates_threeReplicas_ne_nil tracked_threeReplicas twoPrompts (by decide) ?_
  -- checked hash by hash: the quantifier alone would be decided over all 64-bit words
  have hdisjoint : (chainHash defaultHasher "user: hi" 512).all
      (fun hash => hash ∉ chainHash defaultHasher "user: ho" 512) = true := by
    decide +kernel
  exact List.pairwise_pair.mpr fun hash hmem hmem' =>
    of_decide_eq_true (List.all_eq_true.mp hdisjoint hash hmem) hmem'

/-- A request without messages, which has no blocks. -/
def emptyRequest : (ℕ → Instant) × ChatCompletionRequest := (fun _ => 0, ⟨[]⟩)

theorem chain_emptyRequest (hasher : Option UInt64 → List Char → UInt64) (router : Router) :
    (ServerOp.chat emptyRequest.1 emptyRequest.2).chain hasher router = [] := by
  have hlt : max router.blockSize 1 - 1 < max router.blockSize 1 :=
    Nat.sub_lt (lt_max_of_lt_right Nat.one_pos) Nat.one_pos
  have hblocks : blocks "" router.blockSize = [] := by
    rw [blocks, Slices.chunks]
    simp [Nat.div_eq_of_lt hlt]
  rw [ServerOp.chain, emptyRequest, chainHash, ChatCompletionRequest.canonicalPrompt]
  exact congrArg (chainFrom hasher none) hblocks

/-- Requests without blocks reuse none. -/
theorem newBlocks_replicate (hasher : Option UInt64 → List Char → UInt64) (router : Router)
    (n : ℕ) : NewBlocks hasher router (chats (List.replicate n emptyRequest)) := by
  rw [chats, List.map_replicate, NewBlocks, List.pairwise_replicate]
  right
  rw [chain_emptyRequest]
  exact List.disjoint_nil_left _

/-- After `2 ^ 64` requests in turn it is the first replica's turn again. -/
theorem decision_after_wrap {n : ℕ} (hn : n = 2 ^ 64) :
    ∃ d, ServerOp.decision defaultHasher .exact { defaultWeights with policy := .roundRobin }
      (.chat emptyRequest.1 emptyRequest.2)
      ((chats (List.replicate n emptyRequest)).foldl
        (fun s op => op.hold defaultHasher .exact { defaultWeights with policy := .roundRobin } s)
          ⟨threeReplicas, 0, .new, .withCapacity 3⟩) = some d ∧ d.worker.id = 0 := by
  have hne := chatCandidates_threeReplicas_ne_nil
  have hsorted := pairwise_chatCandidates_threeReplicas
  obtain ⟨-, seen, hstair⟩ := @Staircase.run defaultHasher .exact
    { defaultWeights with policy := .roundRobin } _ (2 ^ 64) hne hsorted
    (fun k hk seen s h clock request hfresh => h.takesTurn_roundRobin rfl hne hk clock request
      hfresh)
    (List.replicate n emptyRequest) 0 ∅ _ (.fresh .roundRobin tracked_threeReplicas)
    (by rw [List.length_replicate]; omega) (newBlocks_replicate _ _ n)
    fun _ _ => Set.notMem_empty _
  rw [List.length_replicate, Nat.zero_add] at hstair
  have hturn := hstair.turn rfl
  rw [hn, Nat.mod_self, ← hn] at hturn
  have hcandidates := hstair.candidates_eq
  rw [ServerOp.decision_in_turn rfl, hturn]
  simp only [ServerOp.candidates]
  rw [hcandidates, chatCandidates_threeReplicas]
  exact ⟨_, rfl, rfl⟩

/-- The counter of turns wraps after `2 ^ 64` requests, and three does not divide that: the next
request goes to the first replica in turn, and to the second one by load. -/
theorem cacheAware_leaves_roundRobin :
    NewBlocks defaultHasher defaultWeights (chats (List.replicate (2 ^ 64 + 1) emptyRequest)) ∧
      ¬List.Forall₂ SameChoice
        (freshDecisions defaultHasher .exact defaultWeights .cacheAware threeReplicas 3
          (List.replicate (2 ^ 64 + 1) emptyRequest))
        (freshDecisions defaultHasher .exact defaultWeights .roundRobin threeReplicas 3
          (List.replicate (2 ^ 64 + 1) emptyRequest)) := by
  refine ⟨newBlocks_replicate _ _ _, ?_⟩
  generalize hn : 2 ^ 64 = n
  intro hsame
  have hne := chatCandidates_threeReplicas_ne_nil
  have hsorted := pairwise_chatCandidates_threeReplicas
  -- by load: the staircase goes on
  have hfits : ∀ k < n + 1, ∀ j < 3, turns 3 j k < 2 ^ 64 := by
    intro k hk j hj
    rw [turns_eq hj]
    split_ifs <;> omega
  have hscored := (@Staircase.run defaultHasher .exact
    { defaultWeights with policy := .cacheAware } _ (n + 1) hne hsorted
    (fun k hk seen s h clock request hfresh => h.takesTurn_cacheAware rfl
      F64.Rounding.monotone_exact rfl (show (0 : ℚ) ≤ 1 / 2 by norm_num) hne hsorted
      (fun j hj => hfits k hk j (by rwa [chatCandidates_threeReplicas] at hj)) clock request hfresh)
    (List.replicate (n + 1) emptyRequest) 0 ∅ _ (.fresh .cacheAware tracked_threeReplicas)
    (by rw [List.length_replicate]; omega) (newBlocks_replicate _ _ _)
    fun _ _ => Set.notMem_empty _).1
  -- in turn: the ticket is the first one again
  obtain ⟨d, hd, hid⟩ := decision_after_wrap hn.symm
  have hlast : (decisions defaultHasher .exact { defaultWeights with policy := .roundRobin }
      ⟨threeReplicas, 0, .new, .withCapacity 3⟩
      (chats (List.replicate (n + 1) emptyRequest)))[n]? = some (some d) := by
    have hsplit : chats (List.replicate (n + 1) emptyRequest) =
        chats (List.replicate n emptyRequest) ++ [.chat emptyRequest.1 emptyRequest.2] := by
      rw [List.replicate_succ', chats, List.map_append]
      rfl
    have hlen : (decisions defaultHasher .exact { defaultWeights with policy := .roundRobin }
        ⟨threeReplicas, 0, .new, .withCapacity 3⟩
        (chats (List.replicate n emptyRequest))).length = n := by
      rw [length_decisions, chats, List.length_map, List.length_replicate]
    rw [hsplit, decisions_append, decisions, hd, List.getElem?_append_right hlen.le, hlen,
      Nat.sub_self]
    rfl
  obtain ⟨hi', hlast⟩ := List.getElem?_eq_some_iff.mp hlast
  have hi : n < (freshDecisions defaultHasher .exact defaultWeights .cacheAware threeReplicas 3
      (List.replicate (n + 1) emptyRequest)).length := hsame.length_eq ▸ hi'
  obtain ⟨d₁, d₂, hd₁, hd₂, hworker, -⟩ := (List.forall₂_iff_get.mp hsame).2 n hi hi'
  obtain ⟨d', hd', hturn, -⟩ := hscored n hi
  obtain rfl := Option.some.inj (hd₂.symm.trans hlast)
  obtain rfl := Option.some.inj (hd₁.symm.trans hd')
  rw [chatCandidates_threeReplicas, Nat.zero_add, ← hn] at hturn
  have hsecond : d₁.worker = ⟨1, "http://b", .both⟩ := (Option.some.inj hturn).symm
  rw [← hworker, hsecond] at hid
  cases hid

end KvRoute
