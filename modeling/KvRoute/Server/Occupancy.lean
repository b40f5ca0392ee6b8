import Mathlib.Data.Set.Card
import KvRoute.Server.Disaggregated
import KvRoute.Server.Requests

set_option relaxedAutoImplicit false
set_option autoImplicit false

/-!
# What the counters say about requests

A handler selects a worker, acquires a guard on it, and holds the guard until the phase on that
worker has ended.  The counters that scoring reads count the guards: a request that has been given
a worker and has not acquired its guard yet is not in them.  Between the two `serve_disaggregated`
awaits the KV transfer.

## Main definitions

* `KvRoute.serving` — any number of requests over one shared state.
* `KvRoute.holders`, `KvRoute.assigned` — the requests that hold a guard on a worker, and those
  that have been given the worker and are not finished.

## Main results

* `KvRoute.count_eq_ncard_holders` — in every interleaving a counter is the number of guards.
* `KvRoute.inflight_counts_guards` — who holds a guard has the worker and is not finished; who has
  the worker and is not counted has sent nothing to it yet.
-/

namespace KvRoute

open ThreadPool

/-! ## Requests among each other -/

section Serving

variable {ι : Type} (hasher : Option UInt64 → List Char → UInt64) (fl : F64.Rounding)
  (showStatus : ℕ → String) (router : Router)

/-- Any number of requests over one shared state. -/
def serving (requests : ι → ServeRequest) (s : Shared) : ThreadPool ι Shared ServerEvent Served :=
  ⟨s, fun i => (requests i).program hasher fl showStatus router⟩

/-- The requests that hold a guard on a worker. -/
def holders [DecidableEq ι] (tr : List (ι × ServerEvent)) (worker : WorkerId) : Set ι :=
  {i | standing (labelsOf i tr) = .holding worker}

/-- The requests that have been given a worker for the phase they are in, and are not finished. -/
def assigned [DecidableEq ι] (tr : List (ι × ServerEvent))
    (p : ThreadPool ι Shared ServerEvent Served) (worker : WorkerId) : Set ι :=
  {i | (standing (labelsOf i tr) = .chosen worker ∨ standing (labelsOf i tr) = .holding worker) ∧
    ∀ served, p.threads i ≠ .done served}

variable [DecidableEq ι] {tr : List (ι × ServerEvent)} {worker : WorkerId}

/-- A request that holds a guard has run. -/
theorem finite_holders (tr : List (ι × ServerEvent)) (worker : WorkerId) :
    (holders tr worker).Finite := by
  refine (List.finite_toSet (tr.map Prod.fst)).subset fun i hi => ?_
  by_contra hnot
  have hlabels : labelsOf i tr = [] := by
    rw [List.eq_nil_iff_forall_not_mem]
    intro l hl
    exact hnot (List.mem_map.mpr ⟨_, mem_labelsOf.mp hl, rfl⟩)
  have hholding : standing (labelsOf i tr) = .holding worker := hi
  rw [hlabels] at hholding
  cases hholding

/-- One more section moves one request at most. -/
theorem holders_concat (tr : List (ι × ServerEvent)) (i : ι) (event : ServerEvent)
    (worker : WorkerId) : holders (tr ++ [(i, event)]) worker =
      if (standing (labelsOf i tr)).next event = .holding worker then insert i (holders tr worker)
      else holders tr worker \ {i} := by
  have hi : standing (labelsOf i (tr ++ [(i, event)])) =
      (standing (labelsOf i tr)).next event := by
    rw [labelsOf_append, labelsOf_cons_self, labelsOf_nil, standing_concat]
  have hother : ∀ j, j ≠ i → labelsOf j (tr ++ [(i, event)]) = labelsOf j tr := by
    intro j hj
    rw [labelsOf_append, labelsOf_cons_of_ne (Ne.symm hj), labelsOf_nil, List.append_nil]
  ext j
  show standing (labelsOf j (tr ++ [(i, event)])) = .holding worker ↔ _
  by_cases hj : j = i
  · subst hj
    rw [hi]
    split_ifs with hholding
    · simp [hholding]
    · simp [hholding]
  · rw [hother j hj]
    split_ifs with hholding
    · simp [hj, holders]
    · simp [hj, holders]

/-- A section after which its request holds a guard exactly if it did before. -/
theorem holders_concat_of_iff {i : ι} {event : ServerEvent}
    (h : (standing (labelsOf i tr)).next event = .holding worker ↔
      standing (labelsOf i tr) = .holding worker) :
    holders (tr ++ [(i, event)]) worker = holders tr worker := by
  rw [holders_concat]
  split_ifs with hholding
  · exact Set.insert_eq_of_mem (h.mp hholding)
  · exact Set.sdiff_singleton_eq_self fun hi => hholding (h.mpr hi)

theorem holders_acquire (tr : List (ι × ServerEvent)) (i : ι) (worker w : WorkerId) :
    holders (tr ++ [(i, .acquire worker)]) w =
      if worker = w then insert i (holders tr w) else holders tr w \ {i} := by
  rw [holders_concat]
  refine if_congr ?_ rfl rfl
  show Stand.holding worker = .holding w ↔ _
  rw [Stand.holding.injEq]

theorem holders_release (tr : List (ι × ServerEvent)) (i : ι) (worker w : WorkerId) :
    holders (tr ++ [(i, .release worker)]) w = holders tr w \ {i} := by
  rw [holders_concat]
  exact if_neg nofun

/-- A routing call leaves the tracker alone. -/
theorem Access.Effect.inflight_eq {s s' : Shared} {l : Access} (h : l.Effect s s')
    (hl : l.FromRouting) : s'.inflight = s.inflight := by
  cases l with
  | resize workers => exact absurd hl id
  | snapshot healthy => rw [h.1]
  | touch hash =>
    obtain ⟨now, rfl⟩ := h
    rfl
  | write worker hash =>
    obtain ⟨now, rfl⟩ := h
    rfl
  | _ =>
    obtain rfl := h
    rfl

variable {hasher fl showStatus router} {requests : ι → ServeRequest} {s : Shared}
  {p' : ThreadPool ι Shared ServerEvent Served}

/-- The counters are the numbers of guards.

**Proof sketch.** Induction on the trace, from its end.  A section that acquires a guard adds a
request that held none, one that drops a guard removes a request that held it, as the rule says;
no other section changes a counter or who holds a guard. -/
theorem count_eq_ncard_holders (hidle : ∀ w, s.inflight.count w = 0)
    (h : (serving hasher fl showStatus router requests s).Exec tr p') :
    p'.shared.inflight.counts.length = s.inflight.counts.length ∧
      ∀ w < s.inflight.counts.length,
        p'.shared.inflight.count w = UInt64.ofNat (holders tr w).ncard := by
  induction tr using List.reverseRecOn generalizing p' with
  | nil =>
    cases h
    refine ⟨rfl, fun w _ => ?_⟩
    have hnobody : holders ([] : List (ι × ServerEvent)) w = ∅ :=
      Set.eq_empty_of_forall_notMem nofun
    rw [hnobody, Set.ncard_empty]
    exact hidle w
  | append_singleton tr e ih =>
    obtain ⟨i, event⟩ := e
    have hrule : (requests i).Rule (labelsOf i tr) event :=
      h.rule_of_mem (ServeRequest.follows_program (requests i))
    obtain ⟨q, q', hq, heffect, hrest, -⟩ :=
      h.at_label fun i => (requests i).acts hasher fl showStatus router
    cases hrest
    obtain ⟨hlength, hcount⟩ := ih hq
    have hsame : p'.shared.inflight = q.shared.inflight →
        (∀ w, (standing (labelsOf i tr)).next event = .holding w ↔
          standing (labelsOf i tr) = .holding w) →
        p'.shared.inflight.counts.length = s.inflight.counts.length ∧
          ∀ w < s.inflight.counts.length, p'.shared.inflight.count w =
            UInt64.ofNat (holders (tr ++ [(i, event)]) w).ncard := by
      intro hinflight hstand
      rw [hinflight]
      refine ⟨hlength, fun w hw => ?_⟩
      rw [holders_concat_of_iff (hstand w), hcount w hw]
    cases event with
    | access l => exact hsame (Access.Effect.inflight_eq heffect hrule.2.1) fun w => Iff.rfl
    | listed workers => exact absurd hrule id
    | selected worker =>
      have hidle : standing (labelsOf i tr) = .idle := hrule.1
      exact hsame (by rw [heffect]) fun w => by rw [hidle]; exact ⟨nofun, nofun⟩
    | acquire worker =>
      have hchosen : standing (labelsOf i tr) = .chosen worker := hrule
      have hnew : ∀ w, i ∉ holders tr w := by
        intro w hi
        have hholding : standing (labelsOf i tr) = .holding w := hi
        rw [hchosen] at hholding
        cases hholding
      have hinflight : p'.shared.inflight = q.shared.inflight.increment worker := by rw [heffect]
      rw [hinflight, InflightTracker.length_increment]
      refine ⟨hlength, fun w hw => ?_⟩
      rw [InflightTracker.count_increment, hcount w hw, hlength, holders_acquire]
      by_cases hworker : worker = w
      · subst hworker
        rw [if_pos ⟨rfl, hw⟩, if_pos rfl,
          Set.ncard_insert_of_notMem (hnew worker) (finite_holders tr worker), UInt64.ofNat_add]
        rfl
      · rw [if_neg fun h => hworker h.1, if_neg hworker, Set.sdiff_singleton_eq_self (hnew w)]
    | release worker =>
      have hholding : standing (labelsOf i tr) = .holding worker := hrule
      have hinflight : p'.shared.inflight = q.shared.inflight.decrement worker := by rw [heffect]
      rw [hinflight, InflightTracker.length_decrement]
      refine ⟨hlength, fun w hw => ?_⟩
      rw [InflightTracker.count_decrement, hcount w hw, hlength, holders_release]
      by_cases hworker : worker = w
      · subst hworker
        have hmem : i ∈ holders tr worker := hholding
        have hpos : 1 ≤ (holders tr worker).ncard :=
          (Set.ncard_pos (finite_holders tr worker)).mpr ⟨i, hmem⟩
        rw [if_pos ⟨rfl, hw⟩, Set.ncard_sdiff_singleton_of_mem hmem, UInt64.ofNat_sub hpos]
        rfl
      · have hnot : i ∉ holders tr w := by
          intro hi
          have hholding' : standing (labelsOf i tr) = .holding w := hi
          exact hworker (Stand.holding.inj (hholding.symm.trans hholding'))
        rw [if_neg fun h => hworker h.1, Set.sdiff_singleton_eq_self hnot]
    | _ => exact hsame (by rw [heffect]) fun w => Iff.rfl

/-- **What the load term counts.**  In every interleaving of any number of requests, the counter
of a tracked worker, which is what scoring reads, is the number of requests that hold a guard on
the worker.  These are given the worker and unfinished; a request that is given the worker,
unfinished and not counted has sent nothing since its selection, and has at most begun to move
blocks to the worker, which only requests in two phases do.

**Proof sketch.** The counters are `count_eq_ncard_holders`.  A finished request holds no guard, as
`ServeRequest.follows_program` says of the end of its program.  A request without a guard is
between its selection and its guard, where the rule lets it move blocks only. -/
theorem inflight_counts_guards (hidle : ∀ w, s.inflight.count w = 0)
    (h : (serving hasher fl showStatus router requests s).Exec tr p') :
    (∀ w < s.inflight.counts.length,
      p'.shared.inflight.count w = UInt64.ofNat (holders tr w).ncard) ∧
    (∀ w, holders tr w ⊆ assigned tr p' w) ∧
    ∀ w, ∀ i ∈ assigned tr p' w \ holders tr w, ∃ before after,
      labelsOf i tr = before ++ .selected w :: after ∧
        ∀ l ∈ after, l.MovesBlocks ∧ (requests i).TwoPhase := by
  refine ⟨(count_eq_ncard_holders hidle h).2, fun w i hholding => ⟨Or.inr hholding, ?_⟩, ?_⟩
  · intro served hdone
    have hend := h.follows (ServeRequest.follows_program (requests i))
    rw [hdone] at hend
    exact hend w hholding
  · rintro w i ⟨⟨hchosen | hholding, -⟩, hnot⟩
    · refine split_of_standing_chosen (fun before l after heq => ?_) hchosen
      obtain ⟨past, rest, rfl, rfl, -⟩ := exists_split_of_labelsOf heq
      exact h.rule_of_mem (ServeRequest.follows_program (requests i))
    · exact absurd hholding hnot

end Serving

/-! ## A request that waits for its blocks -/

/-- A disaggregated request in which everything succeeds. -/
def receivedCall : ServeCall :=
  { brokenCall with prefill := some (.ok ⟨200, none, none, []⟩) }

/-- Two such requests, with a worker of each pool up. -/
def waitingPool : ThreadPool Bool Shared ServerEvent Served :=
  serving defaultHasher .exact toString (.new bothPools) (fun _ => .disaggregated receivedCall)
    (upWorkers [0, 1])

/-- The first request gets its decode worker and waits for the KV transfer; the second one goes on
until it scores that worker. -/
def waitingRun : List (Bool × ServerEvent) × ThreadPool Bool Shared ServerEvent Served :=
  waitingPool.run (List.replicate 12 true ++ List.replicate 9 false)

theorem exec_waitingRun : waitingPool.Exec waitingRun.1 waitingRun.2 :=
  ThreadPool.exec_run _ _

theorem count_upWorkers (w : WorkerId) : (upWorkers [0, 1]).inflight.count w = 0 :=
  InflightTracker.count_withCapacity 2 w

/-- A worker is scored with the load 0 although it has been given to an unfinished request. -/
theorem assigned_waiting_uncounted :
    (∀ w, (upWorkers [0, 1]).inflight.count w = 0) ∧ waitingPool.Exec waitingRun.1 waitingRun.2 ∧
      waitingRun.1.getLast? = some (false, .access (.count 1)) ∧
      waitingRun.2.shared.inflight.counts.length = 2 ∧
      waitingRun.2.shared.inflight.count 1 = 0 ∧
      assigned waitingRun.1 waitingRun.2 1 = {true} ∧
      waitingRun.2.shared.inflight.count 1 ≠
        UInt64.ofNat (assigned waitingRun.1 waitingRun.2 1).ncard := by
  have hcount : waitingRun.2.shared.inflight.count 1 = 0 := rfl
  have hwaiting : standing (ThreadPool.labelsOf true waitingRun.1) = .chosen 1 := by decide +kernel
  have hscoring : standing (ThreadPool.labelsOf false waitingRun.1) = .idle := by decide +kernel
  have hunfinished : (waitingRun.2.step true).isSome = true := by decide +kernel
  have hassigned : assigned waitingRun.1 waitingRun.2 1 = {true} := by
    ext i
    cases i with
    | true =>
      refine iff_of_true ⟨Or.inl hwaiting, fun served hdone => ?_⟩ rfl
      rw [ThreadPool.step, hdone] at hunfinished
      cases hunfinished
    | false =>
      refine iff_of_false (fun h => ?_) nofun
      rcases h.1 with hchosen | hholding
      · exact absurd (hscoring.symm.trans hchosen) nofun
      · exact absurd (hscoring.symm.trans hholding) nofun
  refine ⟨count_upWorkers, exec_waitingRun, rfl, rfl, hcount, hassigned, ?_⟩
  rw [hcount, hassigned, Set.ncard_singleton]
  decide

/-- What the counters say in that run. -/
theorem inflight_counts_guards_waiting :
    waitingRun.2.shared.inflight.count 1 = UInt64.ofNat (holders waitingRun.1 1).ncard ∧
      holders waitingRun.1 1 ⊆ assigned waitingRun.1 waitingRun.2 1 := by
  obtain ⟨hcount, hsub, -⟩ := inflight_counts_guards count_upWorkers exec_waitingRun
  exact ⟨hcount 1 (by decide), hsub 1⟩

end KvRoute
