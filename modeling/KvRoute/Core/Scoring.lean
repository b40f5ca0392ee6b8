import Mathlib.Data.Prod.Lex
import KvRoute.Core.Router

set_option relaxedAutoImplicit false
set_option autoImplicit false

/-!
# Which candidate is picked

Run alone, cache-aware selection rates every candidate by what the index and the tracker hold
when the call starts: rating one candidate touches index entries, and times are nothing that a
rating reads.  With finite weights and exact scores the ratings are linearly ordered, by score,
then by load, then by id, and the candidate picked is the greatest.

## Main definitions

* `Router.score`, `Router.rated` — the rating of a candidate as a function of the state.
* `Shared.matched`, `Shared.load`, `Shared.exactScore` — what it is made of.
* `Router.Leads` — a candidate whose rating is above all others, whatever the rounding.
* `Shared.rank`, `Shared.Ahead` — the order of candidates, as a key and spelled out.
* `Shared.Best` — a candidate that is ahead of all others.

## Main results

* `Router.alone_pickBest_snd` — picking, run alone, is the maximum over these ratings.
* `KvRoute.selection_picks_best` — what `pick_best`, `select_in_pool` and `select_for_chat` pick.
-/

namespace KvRoute

/-! ## Ratings -/

/-- How many blocks of a chain a worker is believed to hold. -/
def Shared.matched (s : Shared) (chain : List UInt64) (w : WorkerId) : ℕ :=
  (s.prefixIndex.matchedHashes w chain).length

/-- How many requests a worker serves, by the tracker's counts. -/
def Shared.load (s : Shared) (w : WorkerId) : ℕ := (s.inflight.count w).toNat

theorem Shared.matched_le (s : Shared) (chain : List UInt64) (w : WorkerId) :
    s.matched chain w ≤ chain.length := (List.takeWhile_sublist _).length_le

namespace Router

variable (fl : F64.Rounding) (router : Router)

/-- The score of a worker with a given match and load. -/
def score (matched load : ℕ) : F64 :=
  F64.sub fl (F64.mul fl (F64.ofNat fl matched) router.cacheWeight)
    (F64.mul fl (F64.ofNat fl load) router.loadWeight)

/-- The rating of a worker. -/
def rated (s : Shared) (chain : List UInt64) (w : Worker) : ScoredWorker :=
  ⟨w, s.matched chain w.id,
    ⟨router.score fl (s.matched chain w.id) (s.load w.id), s.inflight.count w.id, w.id⟩⟩

variable {fl router} {s : Shared}

/-- Times are nothing that a rating reads. -/
theorem rated_eq_of_touched {s' : Shared} (h : s.Touched s') (chain : List UInt64) (w : Worker) :
    router.rated fl s' chain w = router.rated fl s chain w := by
  have hlists : s'.prefixIndex.lists w.id = s.prefixIndex.lists w.id := by
    funext b
    exact h.lists_eq w.id b
  simp only [rated, Shared.matched, Shared.load, PrefixIndex.matchedHashes, hlists,
    h.inflight_eq]

/-- Scoring a candidate, run alone, is its rating. -/
theorem alone_evaluate_snd (chain : List UInt64) (now : Instant) (w : Worker) :
    ((router.evaluate fl chain now w).alone s).2 = router.rated fl s chain w := by
  rw [evaluate, Thread.alone_bind, Program.alone_longestMatch]
  rfl

/-- Scoring all candidates, run alone, rates them all in the state at the start. -/
theorem alone_evaluateAll_snd (chain : List UInt64) (clock : ℕ → Instant) (workers : List Worker) :
    ((router.evaluateAll fl chain clock workers).alone s).2 =
      workers.map (router.rated fl s chain) := by
  induction workers generalizing s clock with
  | nil => rfl
  | cons w workers ih =>
    rw [evaluateAll, Thread.alone_bind, Thread.alone_bind, Thread.pure_eq_done, Thread.alone_done,
      List.map_cons, alone_evaluate_snd, ih]
    obtain ⟨htouched, -, -⟩ := @alone_evaluate s fl router chain (clock 0) w
    exact congrArg (_ :: ·) (List.map_congr_left fun v _ => rated_eq_of_touched htouched chain v)

/-- **Picking, run alone,** takes the maximum over the ratings in the state at the start. -/
theorem alone_pickBest_snd (clock : ℕ → Instant) (candidates : List Worker)
    (chain : List UInt64) :
    ((router.pickBest fl clock candidates chain).alone s).2 =
      Slices.maxBy (fun a b => a.candidate.cmp b.candidate)
        (candidates.map (router.rated fl s chain)) := by
  rw [pickBest, Thread.alone_bind, Thread.pure_eq_done, Thread.alone_done, alone_evaluateAll_snd]

/-- Which of the candidates is picked, if there are any. -/
def picked (fl : F64.Rounding) (router : Router) (s : Shared) (chain : List UInt64)
    (candidates : List Worker) : Option Worker :=
  Slices.maxBy (fun w v => (router.rated fl s chain w).candidate.cmp
    (router.rated fl s chain v).candidate) candidates

theorem alone_pickBest_snd_eq_picked (clock : ℕ → Instant) (candidates : List Worker)
    (chain : List UInt64) :
    ((router.pickBest fl clock candidates chain).alone s).2 =
      (router.picked fl s chain candidates).map (router.rated fl s chain) := by
  rw [alone_pickBest_snd, picked, Slices.maxBy_map fun _ _ _ _ => rfl]

theorem picked_eq_none {chain : List UInt64} {candidates : List Worker} :
    router.picked fl s chain candidates = none ↔ candidates = [] := Slices.maxBy_eq_none

/-- What selection with scores decides, run alone. -/
theorem alone_selectBest_snd (clock : ℕ → Instant) (candidates : List Worker)
    (chain : List UInt64) (error : RouterError) :
    ((router.selectBest fl clock candidates chain error).alone s).2 =
      match router.picked fl s chain candidates with
      | none => .error error
      | some w => .ok ⟨w, s.matched chain w.id, chain.length,
          router.score fl (s.matched chain w.id) (s.load w.id)⟩ := by
  rw [selectBest, Thread.alone_bind, alone_pickBest_snd_eq_picked]
  cases router.picked fl s chain candidates with
  | none => rfl
  | some w =>
    dsimp only [Option.map_some]
    rw [Thread.alone_bind, Program.alone_record]
    rfl

/-- What selection in turn decides, run alone. -/
theorem alone_selectInTurn_snd (clock : ℕ → Instant) (candidates : List Worker)
    (hne : candidates ≠ []) (chain : List UInt64) :
    ((selectInTurn clock candidates hne chain).alone s).2 =
      let w := candidates.get ⟨s.nextWorker.toNat % candidates.length,
        Nat.mod_lt _ (List.length_pos_iff.mpr hne)⟩
      .ok ⟨w, s.matched chain w.id, chain.length, .finite 0⟩ := by
  rw [alone_selectInTurn]
  rfl

end Router

/-! ## Who leads -/

/-- Exchanging the two candidates reverses the comparison. -/
theorem Candidate.cmp_swap (a b : Candidate) : (a.cmp b).swap = b.cmp a := by
  rw [cmp, cmp, Ordering.swap_then, Ordering.swap_then, F64.partialCmp_swap,
    ← Std.OrientedOrd.eq_swap, ← Std.OrientedOrd.eq_swap]

/-- The key of a candidate whose score stands at `x`: lower loads and lower ids are greater. -/
def Candidate.rankAt (x : WithBot (WithTop ℚ)) (a : Candidate) :
    WithBot (WithTop ℚ) ×ₗ ℕᵒᵈ ×ₗ ℕᵒᵈ :=
  toLex (x, toLex (OrderDual.toDual a.inFlight.toNat, OrderDual.toDual a.id))

/-- The key of a candidate: higher scores, lower loads and lower ids are greater. -/
def Candidate.rank (a : Candidate) : WithBot (WithTop ℚ) ×ₗ ℕᵒᵈ ×ₗ ℕᵒᵈ :=
  toLex (a.score.key, toLex (OrderDual.toDual a.inFlight.toNat, OrderDual.toDual a.id))

/-- Where scores compare as places in a linear order, candidates compare as their keys. -/
theorem Candidate.cmp_eq_gt_iff_rankAt {a b : Candidate} {x y : WithBot (WithTop ℚ)}
    (h : (a.score.partialCmp b.score).getD .eq = compare x y) :
    a.cmp b = .gt ↔ b.rankAt y < a.rankAt x := by
  rw [cmp, h, rankAt, rankAt, Prod.Lex.toLex_lt_toLex, Prod.Lex.toLex_lt_toLex,
    OrderDual.toDual_lt_toDual, OrderDual.toDual_lt_toDual, OrderDual.toDual_inj]
  simp only [Ordering.then_eq_gt, compare_gt_iff_gt, compare_eq_iff_eq, Std.compare_eq_gt,
    Std.compare_eq_iff_eq, UInt64.lt_iff_toNat_lt, ← UInt64.toNat_inj]
  rw [eq_comm]

/-- The comparison of candidates with scores other than NaN is that of their keys. -/
theorem Candidate.cmp_eq_gt_iff {a b : Candidate} (ha : a.score ≠ .nan) (hb : b.score ≠ .nan) :
    a.cmp b = .gt ↔ b.rank < a.rank := by
  refine cmp_eq_gt_iff_rankAt ?_
  rw [F64.partialCmp_eq_compare_key ha hb, Option.getD_some]

/-- The key ends in the id. -/
theorem Candidate.id_eq_of_rankAt_eq {a b : Candidate} {x y : WithBot (WithTop ℚ)}
    (h : a.rankAt x = b.rankAt y) : a.id = b.id :=
  OrderDual.toDual.injective (congrArg (fun k => (ofLex (ofLex k).2).2) h)

/-- The state with nothing in flight. -/
def Shared.idle (s : Shared) : Shared := { s with inflight := ⟨[]⟩ }

namespace Router

/-- A candidate leads: its rating is above that of every other candidate. -/
structure Leads (fl : F64.Rounding) (router : Router) (s : Shared) (chain : List UInt64)
    (candidates : List Worker) (w : Worker) : Prop where
  /-- It is a candidate. -/
  mem : w ∈ candidates
  /-- It is above the others. -/
  above : ∀ v ∈ candidates, v ≠ w → (router.rated fl s chain w).candidate.cmp
    (router.rated fl s chain v).candidate = .gt

variable {fl : F64.Rounding} {router : Router} {s : Shared} {chain : List UInt64}
  {candidates : List Worker} {w : Worker}

/-- Who leads is picked, even where other ratings do not compare. -/
theorem Leads.picked (h : router.Leads fl s chain candidates w) :
    router.picked fl s chain candidates = some w := by
  refine Slices.maxBy_eq_some_of_forall_gt h.mem fun v hv hne => ⟨h.above v hv hne, fun hgt => ?_⟩
  have hswap := Candidate.cmp_swap (router.rated fl s chain w).candidate
    (router.rated fl s chain v).candidate
  rw [h.above v hv hne, hgt] at hswap
  cases hswap

/-- Where no score is NaN, who is picked leads. -/
theorem leads_of_picked (hscore : ∀ matched load, router.score fl matched load ≠ .nan)
    (hids : (candidates.map (·.id)).Nodup)
    (hpicked : router.picked fl s chain candidates = some w) :
    router.Leads fl s chain candidates w := by
  have hcmp : ∀ u v, (router.rated fl s chain u).candidate.cmp
      (router.rated fl s chain v).candidate = .gt ↔
        (router.rated fl s chain v).candidate.rank < (router.rated fl s chain u).candidate.rank :=
    fun u v => Candidate.cmp_eq_gt_iff (hscore _ _) (hscore _ _)
  have hmem : w ∈ candidates := Slices.mem_of_maxBy_eq_some hpicked
  refine ⟨hmem, fun v hv hne => (hcmp w v).mpr (lt_of_le_of_ne ?_ fun heq => ?_)⟩
  · exact Slices.key_le_of_maxBy_eq_some (fun u _ v _ => hcmp u v) hpicked v hv
  · -- the key ends in the id
    have hid : v.id = w.id := Candidate.id_eq_of_rankAt_eq heq
    exact hne (List.inj_on_of_nodup_map hids hv hmem hid)

end Router

/-! ## Exact scores -/

namespace Shared

section Exact

variable (cw lw : ℚ) (s : Shared) (chain : List UInt64)

/-- The score of a worker in exact arithmetic. -/
def exactScore (w : WorkerId) : ℚ := s.matched chain w * cw - s.load w * lw

/-- A worker is ahead of another: its score is higher, or it is the same and its load is lower, or
that is the same too and its id is lower. -/
def Ahead (w v : WorkerId) : Prop :=
  s.exactScore cw lw chain v < s.exactScore cw lw chain w ∨
    s.exactScore cw lw chain v = s.exactScore cw lw chain w ∧
      (s.load w < s.load v ∨ s.load w = s.load v ∧ w < v)

/-- A candidate that is ahead of all others. -/
structure Best (candidates : Set Worker) (w : Worker) : Prop where
  /-- It is a candidate. -/
  mem : w ∈ candidates
  /-- It is ahead of the others. -/
  ahead : ∀ v ∈ candidates, v ≠ w → s.Ahead cw lw chain w.id v.id

/-- The key of a worker: higher scores, lower loads and lower ids are greater. -/
def rank (w : WorkerId) : ℚ ×ₗ ℕᵒᵈ ×ₗ ℕᵒᵈ :=
  toLex (s.exactScore cw lw chain w, toLex (OrderDual.toDual (s.load w), OrderDual.toDual w))

variable {cw lw s chain}

/-- Being ahead is the order of the keys. -/
theorem ahead_iff_rank_lt {w v : WorkerId} :
    s.Ahead cw lw chain w v ↔ s.rank cw lw chain v < s.rank cw lw chain w := by
  simp only [Ahead, rank, Prod.Lex.toLex_lt_toLex, OrderDual.toDual_lt_toDual,
    OrderDual.toDual_inj]
  rw [eq_comm (a := s.load w)]

theorem rank_injective : Function.Injective (s.rank cw lw chain) := by
  intro w v h
  have hsnd := congrArg (fun k => (ofLex (ofLex k).2).2) h
  exact OrderDual.toDual.injective hsnd

/-- A greater key has at least the score. -/
theorem exactScore_le_of_rank_le {w v : WorkerId}
    (h : s.rank cw lw chain v ≤ s.rank cw lw chain w) :
    s.exactScore cw lw chain v ≤ s.exactScore cw lw chain w := by
  rcases Prod.Lex.toLex_le_toLex.mp h with hlt | ⟨heq, -⟩
  · exact hlt.le
  · exact heq.le

/-- No two candidates are ahead of all others. -/
theorem Best.unique {candidates : Set Worker} {w v : Worker} (hw : s.Best cw lw chain candidates w)
    (hv : s.Best cw lw chain candidates v) : v = w := by
  by_contra hne
  have hlt := ahead_iff_rank_lt.mp (hw.ahead v hv.mem hne)
  have hgt := ahead_iff_rank_lt.mp (hv.ahead w hw.mem (Ne.symm hne))
  exact lt_asymm hlt hgt

end Exact

end Shared

namespace Router

variable {router : Router} {s : Shared} {cw lw : ℚ}

theorem score_exact (hcw : router.cacheWeight = .finite cw) (hlw : router.loadWeight = .finite lw)
    (matched load : ℕ) :
    router.score .exact matched load = .finite (matched * cw - load * lw) := by
  rw [score, hcw, hlw]
  rfl

/-- In exact arithmetic the comparison of two ratings is that of the keys. -/
theorem rated_cmp_eq_gt_iff (hcw : router.cacheWeight = .finite cw)
    (hlw : router.loadWeight = .finite lw) (chain : List UInt64) (w v : Worker) :
    (router.rated .exact s chain w).candidate.cmp (router.rated .exact s chain v).candidate = .gt ↔
      s.rank cw lw chain v.id < s.rank cw lw chain w.id := by
  rw [← Shared.ahead_iff_rank_lt, Candidate.cmp]
  simp only [rated, score_exact hcw hlw, F64.partialCmp, Option.getD_some, Ordering.then_eq_gt,
    compare_gt_iff_gt, Std.compare_eq_iff_eq, Std.compare_eq_gt]
  rw [Shared.Ahead, Shared.exactScore, Shared.exactScore, UInt64.lt_iff_toNat_lt,
    ← UInt64.toNat_inj]
  simp only [Shared.load]
  rw [eq_comm, eq_comm (a := (s.inflight.count v.id).toNat)]

/-- No candidate has a greater key than the one picked. -/
theorem rank_le_of_picked (hcw : router.cacheWeight = .finite cw)
    (hlw : router.loadWeight = .finite lw) {chain : List UInt64} {candidates : List Worker}
    {w : Worker} (hw : router.picked .exact s chain candidates = some w) {v : Worker}
    (hv : v ∈ candidates) : s.rank cw lw chain v.id ≤ s.rank cw lw chain w.id :=
  Slices.key_le_of_maxBy_eq_some (fun a _ b _ => rated_cmp_eq_gt_iff hcw hlw chain a b) hw v hv

/-- The candidate picked is the best one, in whatever order the candidates are listed. -/
theorem picked_eq_some_iff (hcw : router.cacheWeight = .finite cw)
    (hlw : router.loadWeight = .finite lw) (chain : List UInt64) {candidates : List Worker}
    (hids : (candidates.map (·.id)).Nodup) (w : Worker) :
    router.picked .exact s chain candidates = some w ↔
      s.Best cw lw chain {v | v ∈ candidates} w := by
  have hbest : ∀ v, router.picked .exact s chain candidates = some v →
      s.Best cw lw chain {v | v ∈ candidates} v := by
    intro v hv
    have hmem : v ∈ candidates := Slices.mem_of_maxBy_eq_some hv
    refine ⟨hmem, fun u hu hne => ?_⟩
    rw [Shared.ahead_iff_rank_lt]
    apply lt_of_le_of_ne (rank_le_of_picked hcw hlw hv hu)
    intro heq
    exact hne (List.inj_on_of_nodup_map hids hu hmem (Shared.rank_injective heq))
  constructor
  · exact hbest w
  · intro hw
    cases hpicked : router.picked .exact s chain candidates with
    | none => exact absurd (picked_eq_none.mp hpicked) (List.ne_nil_of_mem hw.mem)
    | some v => rw [hw.unique (hbest v hpicked)]

/-- A selection with scores decides for the best candidate. -/
theorem alone_selectBest_decides_iff (hcw : router.cacheWeight = .finite cw)
    (hlw : router.loadWeight = .finite lw) (clock : ℕ → Instant) {candidates : List Worker}
    (hids : (candidates.map (·.id)).Nodup) (chain : List UInt64) (error : RouterError)
    (w : Worker) :
    (∃ d, ((router.selectBest .exact clock candidates chain error).alone s).2 = .ok d ∧
        d.worker = w) ↔
      s.Best cw lw chain {v | v ∈ candidates} w := by
  rw [alone_selectBest_snd, ← picked_eq_some_iff hcw hlw chain hids]
  cases router.picked .exact s chain candidates with
  | none => simp
  | some v => simp

/-- The candidates of a chat request, as a set. -/
theorem mem_chatCandidates {healthy : List Worker} {w : Worker} :
    w ∈ chatCandidates healthy ↔
      w ∈ healthy ∧ (w.pool = .both ∨ ∀ u ∈ healthy, u.pool ≠ .both) := by
  unfold chatCandidates
  split_ifs with hboth
  · obtain ⟨u, hu, hpool⟩ := List.any_eq_true.mp hboth
    rw [List.mem_filter, decide_eq_true_eq]
    refine and_congr_right fun _ => ⟨Or.inl, fun h => h.resolve_right fun hnone => ?_⟩
    exact hnone u hu (by simpa using hpool)
  · rw [List.any_eq_true] at hboth
    refine ⟨fun hw => ⟨hw, Or.inr fun u hu hpool => ?_⟩, fun h => h.1⟩
    exact hboth ⟨u, hu, by simpa using hpool⟩

/-- Workers that serve both phases are all candidates. -/
theorem chatCandidates_of_both {healthy : List Worker} (h : ∀ w ∈ healthy, w.pool = .both) :
    chatCandidates healthy = healthy := by
  unfold chatCandidates
  split_ifs
  · exact List.filter_eq_self.mpr fun w hw => decide_eq_true (h w hw)
  · rfl

theorem chatCandidates_sublist (healthy : List Worker) :
    (chatCandidates healthy).Sublist healthy := by
  unfold chatCandidates
  split_ifs
  · exact List.filter_sublist
  · exact List.Sublist.refl healthy

/-- `select_in_pool` decides for the best healthy worker of the pool. -/
theorem alone_selectInPool_decides_iff (hcw : router.cacheWeight = .finite cw)
    (hlw : router.loadWeight = .finite lw)
    (hids : (s.registry.healthyWorkers.map (·.id)).Nodup) (clock : ℕ → Instant) (pool : Pool)
    (chain : List UInt64) (w : Worker) :
    (∃ d, ((router.selectInPool .exact clock pool chain).alone s).2 = .ok d ∧ d.worker = w) ↔
      s.Best cw lw chain {v | v ∈ s.registry.healthyWorkers ∧ v.pool = pool} w := by
  have hset : {v | v ∈ s.registry.healthyWorkers ∧ v.pool = pool} =
      {v | v ∈ poolCandidates pool s.registry.healthyWorkers} := by
    ext v
    simp [poolCandidates]
  rw [hset, selectInPool, Program.alone_healthyWorkers_bind]
  dsimp only
  split_ifs with hempty
  · rw [List.isEmpty_iff] at hempty
    rw [Thread.pure_eq_done, Thread.alone_done, hempty]
    refine iff_of_false ?_ fun hw => List.not_mem_nil hw.mem
    rintro ⟨d, hd, -⟩
    cases hd
  · exact alone_selectBest_decides_iff hcw hlw clock (hids.sublist (List.filter_sublist.map _))
      chain _ w

/-- `select_for_chat`, under `cache_aware`, decides for the best healthy worker that serves both
phases, or the best healthy worker if none does. -/
theorem alone_selectForChat_decides_iff (hcw : router.cacheWeight = .finite cw)
    (hlw : router.loadWeight = .finite lw) (hpolicy : router.policy = .cacheAware)
    (hids : (s.registry.healthyWorkers.map (·.id)).Nodup)
    (hasher : Option UInt64 → List Char → UInt64) (clock : ℕ → Instant)
    (request : ChatCompletionRequest) (w : Worker) :
    (∃ d, ((router.selectForChat hasher .exact clock request).alone s).2 = .ok d ∧
        d.worker = w) ↔
      s.Best cw lw (chainHash hasher request.canonicalPrompt router.blockSize)
        {v | v ∈ s.registry.healthyWorkers ∧
          (v.pool = .both ∨ ∀ u ∈ s.registry.healthyWorkers, u.pool ≠ .both)} w := by
  have hset : {v | v ∈ s.registry.healthyWorkers ∧
        (v.pool = .both ∨ ∀ u ∈ s.registry.healthyWorkers, u.pool ≠ .both)} =
      {v | v ∈ chatCandidates s.registry.healthyWorkers} := by
    ext v
    exact mem_chatCandidates.symm
  rw [hset, selectForChat, Program.alone_healthyWorkers_bind]
  dsimp only
  split_ifs with hempty
  · rw [Thread.pure_eq_done, Thread.alone_done, hempty]
    refine iff_of_false ?_ fun hw => List.not_mem_nil hw.mem
    rintro ⟨d, hd, -⟩
    cases hd
  · rw [hpolicy]
    exact alone_selectBest_decides_iff hcw hlw clock
      (hids.sublist ((chatCandidates_sublist _).map _)) _ _ w

end Router

/-- **Selection picks the best candidate.**  With finite weights and exact scores, in every state
and for every chain: among candidates with distinct ids exactly one is ahead of all others, by
score, then by load, then by id, and `pick_best` picks it in whatever order the candidates are
listed, although rating a candidate touches the index.  So does `select_in_pool` among the healthy
workers of the pool, and `select_for_chat` under `cache_aware` among the healthy workers that serve
both phases, or among all healthy workers if none does.

**Proof sketch.** Rating reads nothing that rating writes, so the ratings are those of the state
at the start (`Router.alone_pickBest_snd`).  Their comparison is that of a key in a linear order
that ends in the id (`Router.rated_cmp_eq_gt_iff`), so the running maximum is the only greatest
one. -/
theorem selection_picks_best (router : Router) (cw lw : ℚ)
    (hcw : router.cacheWeight = .finite cw) (hlw : router.loadWeight = .finite lw) (s : Shared)
    (clock : ℕ → Instant) :
    (∀ chain (candidates : List Worker), candidates ≠ [] → (candidates.map (·.id)).Nodup →
      (∃! w, s.Best cw lw chain {v | v ∈ candidates} w) ∧
        ∀ listed, listed.Perm candidates → ∀ w,
          ((router.pickBest .exact clock listed chain).alone s).2.map (·.worker) = some w ↔
            s.Best cw lw chain {v | v ∈ candidates} w) ∧
      ((s.registry.healthyWorkers.map (·.id)).Nodup →
        (∀ pool chain w,
          (∃ d, ((router.selectInPool .exact clock pool chain).alone s).2 = .ok d ∧
              d.worker = w) ↔
            s.Best cw lw chain {v | v ∈ s.registry.healthyWorkers ∧ v.pool = pool} w) ∧
        (router.policy = .cacheAware → ∀ hasher request w,
          (∃ d, ((router.selectForChat hasher .exact clock request).alone s).2 = .ok d ∧
              d.worker = w) ↔
            s.Best cw lw (chainHash hasher request.canonicalPrompt router.blockSize)
              {v | v ∈ s.registry.healthyWorkers ∧
                (v.pool = .both ∨ ∀ u ∈ s.registry.healthyWorkers, u.pool ≠ .both)} w)) := by
  refine ⟨fun chain candidates hne hids => ⟨?_, fun listed hperm w => ?_⟩, fun hids => ⟨?_, ?_⟩⟩
  · obtain ⟨w, hw⟩ := Option.ne_none_iff_exists'.mp
      (mt Router.picked_eq_none.mp hne : router.picked .exact s chain candidates ≠ none)
    have hbest := (Router.picked_eq_some_iff hcw hlw chain hids w).mp hw
    exact ⟨w, hbest, fun v hv => hbest.unique hv⟩
  · have hset : {v | v ∈ candidates} = {v | v ∈ listed} := by
      ext v
      exact hperm.mem_iff.symm
    rw [hset, ← Router.picked_eq_some_iff hcw hlw chain ((hperm.map _).nodup_iff.mpr hids),
      Router.alone_pickBest_snd_eq_picked]
    cases router.picked .exact s chain listed <;> rfl
  · intro pool chain w
    exact Router.alone_selectInPool_decides_iff hcw hlw hids clock pool chain w
  · intro hpolicy hasher request w
    exact Router.alone_selectForChat_decides_iff hcw hlw hpolicy hids hasher clock request w

/-- Two replicas, the first of which serves ten requests. -/
def hotReplica : Shared :=
  { registry := .fromConfig [⟨"http://a", .both⟩, ⟨"http://b", .both⟩]
    nextWorker := 0
    prefixIndex := .new
    inflight := ⟨[10, 0]⟩ }

/-- A router with the default weights. -/
def defaultWeights : Router := ⟨.cacheAware, 512, .finite 1, .finite (1 / 2)⟩

/-- The idle replica is picked, and is the best. -/
theorem selection_picks_best_hot_replica :
    hotReplica.Best 1 (1 / 2) [7] {v | v ∈ [⟨0, "http://a", .both⟩, ⟨1, "http://b", .both⟩]}
      ⟨1, "http://b", .both⟩ :=
  (((selection_picks_best defaultWeights 1 (1 / 2) rfl rfl hotReplica fun _ => 0).1 [7]
    [⟨0, "http://a", .both⟩, ⟨1, "http://b", .both⟩] (by decide) (by decide)).2
      [⟨0, "http://a", .both⟩, ⟨1, "http://b", .both⟩] (List.Perm.refl _) _).mp
        (by decide +kernel)

end KvRoute
