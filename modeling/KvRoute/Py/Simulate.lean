import KvRoute.Lib.Runs
import KvRoute.Py.Native
import KvRoute.Server.Dispatch

set_option relaxedAutoImplicit false
set_option autoImplicit false

/-!
# The simulation of a trace

The Python package predicts what a server would do with a list of prompts by routing them on an
in-process router (`python/kvrouters_sdk/simulate.py`).  A server handles the same requests in the
same order, and each of them holds its guard until it completes.  The in-process router acquires
no guards, so that it rates candidates as if nothing were in flight.

The shuffling of the standard library, the hasher and the rounding are parameters.

## Main definitions

* `KvRoute.SimulateArgs`, `KvRoute.simulate` — the simulation.
* `KvRoute.Serving`, `Serving.step`, `Serving.predictions` — a server with the guards of requests
  in flight, and what it decides along a schedule.
* `KvRoute.LoadNeutral` — the loads of the moment do not decide who is picked.
* `KvRoute.Aligned` — the simulation relation between the two states.

## Main results

* `KvRoute.simulate_predicts` — the predictions are the server's where the loads do not decide.
-/

namespace KvRoute

/-! ## The simulation -/

/-- The arguments of a simulation, with their defaults. -/
structure SimulateArgs where
  /-- The prompts. -/
  prompts : List String
  /-- The worker URLs; none, or an empty list, stands for three default ones. -/
  workers : Option (List String) := none
  /-- The policy. -/
  policy : String := "cache_aware"
  /-- How many times the prompts are repeated. -/
  repeats : ℤ := 1
  /-- Score multiplier for matched blocks. -/
  cacheWeight : F64 := .finite 1
  /-- Score penalty per request in flight. -/
  loadWeight : F64 := .finite (1 / 2)
  /-- Block size of the chains. -/
  blockSize : ℕ := 512
  /-- The seed of a shuffle, if there is to be one. -/
  seed : Option ℤ := none

/-- What a simulation returns. -/
structure SimulationReport where
  /-- The policy. -/
  policy : String
  /-- Matched blocks over prompt blocks. -/
  predictedHitRate : F64
  /-- The number of requests. -/
  requests : ℕ
  /-- The number of matched blocks. -/
  matchedBlocks : ℕ
  /-- The number of prompt blocks. -/
  promptBlocks : ℕ
  /-- The number of decisions for each worker URL. -/
  perWorker : List (String × ℕ)
  /-- The decisions. -/
  decisions : List PyRouteDecision
deriving DecidableEq, Repr

namespace SimulateArgs

/-- The worker URLs. -/
def urls (args : SimulateArgs) : List String :=
  match args.workers with
  | some (url :: urls) => url :: urls
  | some [] | none => ["worker-0", "worker-1", "worker-2"]

/-- The trace: the prompts, repeated, and shuffled if there is a seed. -/
def trace (shuffle : ℤ → List String → List String) (args : SimulateArgs) : List String :=
  let trace := (List.replicate args.repeats.toNat args.prompts).flatten
  match args.seed with
  | none => trace
  | some seed => shuffle seed trace

/-- The settings of a router with these arguments. -/
def settings (args : SimulateArgs) (policy : RoutingPolicy) : Router :=
  ⟨policy, args.blockSize, args.cacheWeight, args.loadWeight⟩

theorem urls_ne_nil (args : SimulateArgs) : args.urls ≠ [] := by
  rw [urls]
  split <;> exact List.cons_ne_nil _ _

end SimulateArgs

section Simulate

variable (hasher : Option UInt64 → List Char → UInt64) (fl : F64.Rounding)

/-- The decisions for a list of prompts, one call after the other. -/
def PyRouter.routeAll (policy : String) :
    PyRouter → (ℕ → ℕ → Instant) → List String → Native (List PyRouteDecision)
  | _, _, [] => pure []
  | router, clock, prompt :: prompts => do
    let (router, result) := router.route hasher fl (clock 0) prompt policy
    let decision ← result
    let rest ← routeAll policy router (fun n => clock (n + 1)) prompts
    pure (decision :: rest)

/-- `simulate`. -/
def simulate (shuffle : ℤ → List String → List String) (clock : ℕ → ℕ → Instant)
    (args : SimulateArgs) : Native SimulationReport := do
  let trace := args.trace shuffle
  let router ← PyRouter.new args.urls args.cacheWeight args.loadWeight args.blockSize
  let decisions ← router.routeAll hasher fl args.policy clock trace
  let matchedBlocks : ℕ := (decisions.map (·.matchedBlocks)).sum
  let promptBlocks : ℕ := (decisions.map (·.promptBlocks)).sum
  let urls := decisions.map (·.worker)
  pure
    { policy := args.policy
      predictedHitRate :=
        if promptBlocks = 0 then .finite 0 else fl.round ((matchedBlocks : ℚ) / promptBlocks)
      requests := trace.length
      matchedBlocks
      promptBlocks
      perWorker := urls.eraseDups.map fun url => (url, urls.count url)
      decisions }

end Simulate

/-! ## The server -/

/-- What is predicted of a request. -/
structure Prediction where
  /-- The worker's URL. -/
  worker : String
  /-- Matched prefix of the prompt's chain. -/
  matchedBlocks : ℕ
  /-- Number of blocks of the chain. -/
  promptBlocks : ℕ
deriving DecidableEq, Repr

/-- The prediction of an in-process decision. -/
def PyRouteDecision.prediction (d : PyRouteDecision) : Prediction :=
  ⟨d.worker, d.matchedBlocks, d.promptBlocks⟩

/-- What a decision of the server says. -/
def RouteDecision.prediction (d : RouteDecision) : Prediction :=
  ⟨d.worker.url, d.matchedPrefixLen, d.promptBlocks⟩

/-- A server while it handles a trace: its state, and the workers that requests in flight hold a
guard of. -/
structure Serving where
  /-- The state. -/
  shared : Shared
  /-- One worker for each request in flight. -/
  guards : List WorkerId

/-- What happens while a server handles a trace. -/
inductive ScheduleStep where
  /-- A request with a single user message is routed. -/
  | request (clock : ℕ → Instant) (prompt : String)
  /-- Some request in flight completes; nothing happens if there are not that many. -/
  | complete (guard : ℕ)

/-- The prompts of a schedule. -/
def promptsOf : List ScheduleStep → List String
  | [] => []
  | .request _ prompt :: steps => prompt :: promptsOf steps
  | .complete _ :: steps => promptsOf steps

/-- The step that routes a single user message. -/
def userChat (clock : ℕ → Instant) (prompt : String) : ServerOp := .chat clock ⟨[⟨"user", prompt⟩]⟩

namespace Serving

variable (hasher : Option UInt64 → List Char → UInt64) (fl : F64.Rounding) (router : Router)

/-- One step. -/
def step (s : Serving) : ScheduleStep → Serving
  | .request clock prompt =>
    { shared := (userChat clock prompt).hold hasher fl router s.shared
      guards :=
        match (userChat clock prompt).decision hasher fl router s.shared with
        | some d => d.worker.id :: s.guards
        | none => s.guards }
  | .complete guard =>
    match s.guards[guard]? with
    | some worker =>
      { shared := { s.shared with inflight := s.shared.inflight.decrement worker }
        guards := s.guards.eraseIdx guard }
    | none => s

/-- What the server decides for the requests of a schedule. -/
def predictions : Serving → List ScheduleStep → List (Option Prediction)
  | _, [] => []
  | s, .request clock prompt :: steps =>
    ((userChat clock prompt).decision hasher fl router s.shared).map (·.prediction) ::
      predictions (s.step hasher fl router (.request clock prompt)) steps
  | s, .complete guard :: steps => predictions (s.step hasher fl router (.complete guard)) steps

end Serving

/-- The loads of the moment do not decide who is picked: if a selection scores its candidates, one
of them leads, and would lead with nothing in flight. -/
def LoadNeutral (hasher : Option UInt64 → List Char → UInt64) (fl : F64.Rounding) (router : Router)
    (s : Serving) : ScheduleStep → Prop
  | .request clock prompt =>
    let op := userChat clock prompt
    router.policy = .cacheAware →
      ∃ w, router.Leads fl s.shared (op.chain hasher router) (op.candidates s.shared) w ∧
        router.Leads fl s.shared.idle (op.chain hasher router) (op.candidates s.shared) w
  | .complete _ => True

/-- A server that has routed nothing yet, whose candidates are the given workers. -/
structure Shared.Fresh (workers : List Worker) (s : Shared) : Prop where
  /-- The registry is in order. -/
  wellFormed : s.registry.WellFormed
  /-- These workers are up. -/
  healthy : s.registry.healthyWorkers = workers
  /-- They serve both phases. -/
  both : ∀ w ∈ workers, w.pool = .both
  /-- The first ticket is next. -/
  turn : s.nextWorker = 0
  /-- Nobody is listed on any block. -/
  empty : ∀ w hash, s.prefixIndex.lists w hash = false

/-! ## The workers of an in-process router -/

/-- A worker under the id of an in-process router: its position. -/
def numberedWorker (workers : List Worker) (i : Fin workers.length) : Worker :=
  ⟨i, workers[i].url, .both⟩

/-- The workers of an in-process router. -/
def numbered (workers : List Worker) : List Worker :=
  (List.finRange workers.length).map (numberedWorker workers)

theorem pairwise_numbered (workers : List Worker) :
    (numbered workers).Pairwise fun w v => w.id < v.id := by
  rw [numbered, List.pairwise_map]
  exact List.pairwise_lt_finRange _

theorem mem_numbered {workers : List Worker} {w : Worker} :
    w ∈ numbered workers ↔ workers[w.id]?.map (fun v => ⟨w.id, v.url, .both⟩) = some w := by
  rw [numbered, List.mem_map, Option.map_eq_some_iff]
  constructor
  · rintro ⟨i, -, rfl⟩
    exact ⟨workers[i], List.getElem?_eq_getElem i.isLt, rfl⟩
  · rintro ⟨v, hv, heq⟩
    obtain ⟨hlt, rfl⟩ := List.getElem?_eq_some_iff.mp hv
    exact ⟨⟨w.id, hlt⟩, List.mem_finRange _, heq⟩

namespace WorkerRegistry

/-- Marking the workers under the first ids healthy. -/
theorem get_foldl_setHealthy (r : WorkerRegistry) (n : ℕ) (id : WorkerId) :
    ((List.range n).foldl (fun r index => (r.setHealthy index true).1) r).workers.get id =
      (r.workers.get id).map fun state => ⟨state.worker, state.healthy || id < n⟩ := by
  induction n with
  | zero => simp
  | succ n ih =>
    rw [List.range_succ, List.foldl_append, List.foldl_cons, List.foldl_nil, get_setHealthy]
    by_cases hid : id = n
    · subst hid
      rw [if_pos rfl, ih, Option.map_map]
      congr 1
      funext state
      simp
    · have hiff : id < n + 1 ↔ id < n := by lia
      rw [if_neg hid, ih]
      simp only [hiff]

theorem WellFormed.foldl_setHealthy {r : WorkerRegistry} (h : r.WellFormed) (n : ℕ) :
    ((List.range n).foldl (fun r index => (r.setHealthy index true).1) r).WellFormed :=
  Runs.foldl_inv (I := WellFormed) (fun _ index h => h.setHealthy index true) h _

end WorkerRegistry

/-- All workers of an in-process router are up, under their positions. -/
theorem PyRouter.healthyWorkers_healthyRegistry (workers : List Worker) :
    (healthyRegistry ((workers.map (·.url)).map fun url => ⟨url, .both⟩)).healthyWorkers =
      numbered workers := by
  set configs : List WorkerConfig := (workers.map (·.url)).map fun url => ⟨url, .both⟩ with hconfigs
  have hwellFormed : (healthyRegistry configs).WellFormed :=
    (WorkerRegistry.wellFormed_fromConfig configs).foldl_setHealthy configs.length
  refine hwellFormed.healthyWorkers_eq (pairwise_numbered workers) fun w => ?_
  rw [mem_numbered, healthyRegistry, WorkerRegistry.get_foldl_setHealthy,
    WorkerRegistry.get_fromConfig, hconfigs, List.getElem?_map, List.getElem?_map]
  cases hv : workers[w.id]? with
  | none => simp
  | some v =>
    have hlt := (List.getElem?_eq_some_iff.mp hv).1
    simp [hlt]

/-! ## The simulation relation -/

/-- The in-process router and the server agree: they have the same workers, under ids in the same
order, they believe the same of each of them, and the same worker's turn is next.  In process
nothing is in flight. -/
structure Aligned (policy : RoutingPolicy) (workers : List Worker) (sim server : Shared) :
    Prop where
  /-- The candidates in process. -/
  sim_candidates : Router.chatCandidates sim.registry.healthyWorkers = numbered workers
  /-- The candidates on the server. -/
  server_candidates : Router.chatCandidates server.registry.healthyWorkers = workers
  /-- The server's ids are in order. -/
  sorted : workers.Pairwise fun w v => w.id < v.id
  /-- The next ticket is the same. -/
  turn : policy = .roundRobin → sim.nextWorker = server.nextWorker
  /-- Nothing is in flight in process. -/
  idle : ∀ w, sim.inflight.count w = 0
  /-- The beliefs are the same. -/
  lists : ∀ (i : Fin workers.length) hash,
    sim.prefixIndex.lists i hash = server.prefixIndex.lists workers[i].id hash

namespace Aligned

variable {hasher : Option UInt64 → List Char → UInt64} {fl : F64.Rounding} {router : Router}
  {workers : List Worker} {sim server : Shared} {chain : List UInt64}

section Ids

variable (hsorted : workers.Pairwise fun w v => w.id < v.id)

include hsorted

/-- Positions compare as ids do. -/
theorem compare_id (i j : Fin workers.length) :
    compare workers[i].id workers[j].id = compare i.val j.val := by
  rcases lt_trichotomy i.val j.val with hlt | heq | hgt
  · rw [compare_lt_iff_lt.mpr hlt, compare_lt_iff_lt]
    exact List.pairwise_iff_getElem.mp hsorted _ _ i.isLt j.isLt hlt
  · rw [Fin.ext heq]
    simp
  · rw [compare_gt_iff_gt.mpr hgt, compare_gt_iff_gt]
    exact List.pairwise_iff_getElem.mp hsorted _ _ j.isLt i.isLt hgt

theorem id_inj {i j : Fin workers.length} : workers[i].id = workers[j].id ↔ i = j := by
  rw [← compare_eq_iff_eq, compare_id hsorted, compare_eq_iff_eq, Fin.val_inj]

end Ids

theorem url_inj (hurls : (workers.map (·.url)).Nodup) {i j : Fin workers.length}
    (h : workers[i].url = workers[j].url) : i = j := by
  have hi : i.val < (workers.map (·.url)).length := by simp
  have hj : j.val < (workers.map (·.url)).length := by simp
  have heq : (workers.map (·.url))[i.val] = (workers.map (·.url))[j.val] := by
    rw [List.getElem_map, List.getElem_map]
    exact h
  exact Fin.ext ((List.Nodup.getElem_inj_iff hurls).mp heq)

section Picked

variable (h : Aligned router.policy workers sim server)

include h

theorem matched_eq (chain : List UInt64) (i : Fin workers.length) :
    server.matched chain workers[i].id = sim.matched chain i := by
  have hlists : sim.prefixIndex.lists i = server.prefixIndex.lists workers[i].id :=
    funext (h.lists i)
  rw [Shared.matched, Shared.matched, PrefixIndex.matchedHashes, PrefixIndex.matchedHashes,
    hlists]

/-- With nothing in flight, the server compares two workers as the in-process router does. -/
theorem cmp_eq (chain : List UInt64) (i j : Fin workers.length) :
    (router.rated fl server.idle chain workers[i]).candidate.cmp
        (router.rated fl server.idle chain workers[j]).candidate =
      (router.rated fl sim chain (numberedWorker workers i)).candidate.cmp
        (router.rated fl sim chain (numberedWorker workers j)).candidate := by
  have hmatched : ∀ i : Fin workers.length,
      server.idle.matched chain workers[i].id = sim.matched chain i := h.matched_eq chain
  have hcount : ∀ w, server.idle.inflight.count w = 0 := fun w => rfl
  simp only [Candidate.cmp, Router.rated, Shared.load, numberedWorker, hmatched, hcount, h.idle,
    compare_id h.sorted]

/-- With nothing in flight, the server picks the worker that the in-process router picks. -/
theorem exists_picked (hne : workers ≠ []) (chain : List UInt64) : ∃ i : Fin workers.length,
    router.picked fl sim chain (numbered workers) = some (numberedWorker workers i) ∧
      router.picked fl server.idle chain workers = some workers[i] := by
  obtain ⟨i, hi⟩ : ∃ i, Slices.maxBy (fun i j : Fin workers.length =>
      (router.rated fl sim chain (numberedWorker workers i)).candidate.cmp
        (router.rated fl sim chain (numberedWorker workers j)).candidate)
      (List.finRange workers.length) = some i := by
    rw [← Option.ne_none_iff_exists', Ne, Slices.maxBy_eq_none, List.finRange_eq_nil_iff,
      List.length_eq_zero_iff]
    exact hne
  refine ⟨i, ?_, ?_⟩
  · rw [Router.picked, numbered, Slices.maxBy_map fun _ _ _ _ => rfl, hi]
    rfl
  · have hmap : router.picked fl server.idle chain
        ((List.finRange workers.length).map fun i => workers[i]) = _ :=
      @Slices.maxBy_map _ _ _ _ (fun i : Fin workers.length => workers[i]) _
        fun i _ j _ => h.cmp_eq chain i j
    have hworkers : ((List.finRange workers.length).map fun i => workers[i]) = workers :=
      List.map_getElem_finRange workers
    rw [hworkers, hi] at hmap
    exact hmap

end Picked

end Aligned

/-! ## Decisions -/

section Decisions

variable {hasher : Option UInt64 → List Char → UInt64} {fl : F64.Rounding} {router : Router}
  {workers : List Worker} {sim server : Shared} {clock clock' : ℕ → Instant} {prompt : String}

/-- A decision for a worker, with what is believed of it. -/
def Shared.decisionFor (s : Shared) (chain : List UInt64) (w : Worker) (score : F64) :
    RouteDecision :=
  ⟨w, s.matched chain w.id, chain.length, score⟩

/-- Decisions for the same worker say the same. -/
theorem Aligned.prediction_decisionFor (h : Aligned router.policy workers sim server)
    (chain : List UInt64) (i : Fin workers.length) (score score' : F64) :
    (sim.decisionFor chain (numberedWorker workers i) score).prediction =
      (server.decisionFor chain workers[i] score').prediction := by
  rw [Shared.decisionFor, Shared.decisionFor, h.matched_eq]
  rfl

/-- A scored selection decides for the candidate that is picked. -/
theorem ServerOp.decision_of_picked {op : ServerOp} (h : op.Scores router) {s : Shared}
    {candidates : List Worker} (hcandidates : op.candidates s = candidates) {w : Worker}
    (hpicked : router.picked fl s (op.chain hasher router) candidates = some w) :
    ∃ score, op.decision hasher fl router s =
      some (s.decisionFor (op.chain hasher router) w score) := by
  rw [decision_of_scores h, hcandidates, hpicked]
  exact ⟨_, rfl⟩

/-- The two sides decide: in process for the `i`-th worker, on the server for the `j`-th. -/
structure Decided (hasher : Option UInt64 → List Char → UInt64) (fl : F64.Rounding)
    (router : Router) (workers : List Worker) (sim server : Shared) (clock clock' : ℕ → Instant)
    (prompt : String) (i j : Fin workers.length) : Prop where
  /-- The decision in process. -/
  sim_decides : ∃ score, (userChat clock prompt).decision hasher fl router sim = some
    (sim.decisionFor ((userChat clock prompt).chain hasher router) (numberedWorker workers i) score)
  /-- The decision of the server. -/
  server_decides : ∃ score, (userChat clock' prompt).decision hasher fl router server = some
    (server.decisionFor ((userChat clock' prompt).chain hasher router) workers[j] score)

/-- In turn, both decide for the same worker. -/
theorem Aligned.decided_in_turn (h : Aligned router.policy workers sim server)
    (hne : workers ≠ []) (hpolicy : router.policy = .roundRobin) : ∃ i,
      Decided hasher fl router workers sim server clock clock' prompt i i := by
  have hcandidates : (userChat clock prompt).candidates sim = numbered workers := h.sim_candidates
  have hcandidates' : (userChat clock' prompt).candidates server = workers := h.server_candidates
  have hlt := Nat.mod_lt server.nextWorker.toNat (List.length_pos_iff.mpr hne)
  refine ⟨⟨_, hlt⟩, ⟨.finite 0, ?_⟩, ⟨.finite 0, ?_⟩⟩
  · rw [userChat, ServerOp.decision_in_turn hpolicy, ← userChat, hcandidates, h.turn hpolicy]
    have hlength : (numbered workers).length = workers.length := by simp [numbered]
    simp only [hlength]
    simp [numbered, hlt, Shared.decisionFor]
  · rw [userChat, ServerOp.decision_in_turn hpolicy, ← userChat, hcandidates',
      List.getElem?_eq_getElem hlt]
    rfl

/-- With scores, each side decides for the worker that it picks. -/
theorem Aligned.decided_by_score (h : Aligned router.policy workers sim server)
    (hne : workers ≠ []) (hpolicy : router.policy = .cacheAware) : ∃ i j,
      Decided hasher fl router workers sim server clock clock' prompt i j ∧
        router.picked fl server.idle ((userChat clock' prompt).chain hasher router) workers =
          some workers[i] ∧
        router.picked fl server ((userChat clock' prompt).chain hasher router) workers =
          some workers[j] := by
  have hcandidates : (userChat clock prompt).candidates sim = numbered workers := h.sim_candidates
  have hcandidates' : (userChat clock' prompt).candidates server = workers := h.server_candidates
  obtain ⟨i, hsim, hidle⟩ := @exists_picked fl router workers sim server h hne
    ((userChat clock' prompt).chain hasher router)
  obtain ⟨w, hw⟩ := Option.ne_none_iff_exists'.mp (mt Router.picked_eq_none.mp hne :
    router.picked fl server ((userChat clock' prompt).chain hasher router) workers ≠ none)
  obtain ⟨j, hj, rfl⟩ := List.getElem_of_mem (Slices.mem_of_maxBy_eq_some hw)
  have hscores : ∀ clock, (userChat clock prompt).Scores router := fun _ => hpolicy
  refine ⟨i, ⟨j, hj⟩, ⟨?_, ?_⟩, hidle, hw⟩
  · exact ServerOp.decision_of_picked (hscores clock) hcandidates hsim
  · exact ServerOp.decision_of_picked (hscores clock') hcandidates' hw

theorem registry_serve_userChat (s : Shared) :
    ((userChat clock prompt).serve hasher fl router s).registry = s.registry := by
  obtain ⟨result, -, hrouted⟩ :=
    @ServerOp.routed_serve hasher fl router (userChat clock prompt) trivial s
  exact hrouted.registry_eq

/-- With candidates, a request is decided. -/
theorem ServerOp.exists_decision (hpolicy : router.policy ≠ .disaggregated) {s : Shared}
    (hne : Router.chatCandidates s.registry.healthyWorkers ≠ []) :
    ∃ d, (userChat clock prompt).decision hasher fl router s = some d := by
  have hcandidates : (userChat clock prompt).candidates s ≠ [] := hne
  cases hkind : router.policy with
  | disaggregated => exact absurd hkind hpolicy
  | roundRobin =>
    have hlt := Nat.mod_lt s.nextWorker.toNat (List.length_pos_iff.mpr hcandidates)
    rw [userChat, decision_in_turn hkind, ← userChat, List.getElem?_eq_getElem hlt]
    exact ⟨_, rfl⟩
  | cacheAware =>
    have hscores : (userChat clock prompt).Scores router := hkind
    obtain ⟨w, hw⟩ := Option.ne_none_iff_exists'.mp
      (mt Router.picked_eq_none.mp hcandidates : router.picked fl s
        ((userChat clock prompt).chain hasher router) _ ≠ none)
    obtain ⟨score, hd⟩ := decision_of_picked hscores rfl hw
    exact ⟨_, hd⟩

/-- **One request.**  Both sides decide, for the same worker where the loads do not decide, and
only there unless some score is NaN. -/
theorem Aligned.exists_decided (h : Aligned router.policy workers sim server)
    (hne : workers ≠ []) (hpolicy : router.policy ≠ .disaggregated) (guards : List WorkerId) :
    ∃ i j, Decided hasher fl router workers sim server clock clock' prompt i j ∧
      (LoadNeutral hasher fl router ⟨server, guards⟩ (.request clock' prompt) → j = i) ∧
      ((∀ matched load, router.score fl matched load ≠ .nan) → j = i →
        LoadNeutral hasher fl router ⟨server, guards⟩ (.request clock' prompt)) := by
  cases hkind : router.policy with
  | disaggregated => exact absurd hkind hpolicy
  | roundRobin =>
    obtain ⟨i, hdecided⟩ := h.decided_in_turn hne hkind
    refine ⟨i, i, hdecided, fun _ => rfl, fun _ _ hscored => ?_⟩
    rw [hkind] at hscored
    cases hscored
  | cacheAware =>
    obtain ⟨i, j, hdecided, hidle, hpicked⟩ := h.decided_by_score hne hkind
    have hcandidates : (userChat clock' prompt).candidates server = workers := h.server_candidates
    have hids : (workers.map (·.id)).Nodup :=
      List.pairwise_map.mpr (h.sorted.imp fun hlt => ne_of_lt hlt)
    refine ⟨i, j, hdecided, fun hneutral => ?_, fun hscore heq _ => ⟨workers[j], ?_, ?_⟩⟩
    · obtain ⟨u, hleads, hleads'⟩ := hneutral hkind
      simp only [hcandidates] at hleads hleads'
      have hj := Option.some.inj (hleads.picked.symm.trans hpicked)
      have hi := Option.some.inj (hleads'.picked.symm.trans hidle)
      exact (id_inj h.sorted).mp (congrArg Worker.id (hj.symm.trans hi))
    · rw [hcandidates]
      exact Router.leads_of_picked hscore hids hpicked
    · rw [hcandidates]
      exact Router.leads_of_picked hscore hids (heq ▸ hidle)

/-- After the decisions for the same worker, the two sides agree again: both have recorded the
chain for this worker, and both have taken a ticket if they decide in turn. -/
theorem Aligned.next (h : Aligned router.policy workers sim server) (hne : workers ≠ [])
    {i : Fin workers.length}
    (hdecided : Decided hasher fl router workers sim server clock clock' prompt i i) :
    Aligned router.policy workers ((userChat clock prompt).serve hasher fl router sim)
      ((userChat clock' prompt).hold hasher fl router server) := by
  obtain ⟨⟨score, hd⟩, ⟨score', hd'⟩⟩ := hdecided
  have hsim := ServerOp.hold_of_some hd
  have hcandidates : (userChat clock prompt).candidates sim = numbered workers := h.sim_candidates
  have hcandidates' : (userChat clock' prompt).candidates server = workers := h.server_candidates
  refine
    { sim_candidates := ?sim_candidates
      server_candidates := ?server_candidates
      sorted := h.sorted
      turn := ?turn
      idle := ?idle
      lists := ?lists }
  case sim_candidates =>
    have hregistry := @ServerOp.registry_hold hasher fl router (userChat clock prompt) trivial sim
    rw [hsim] at hregistry
    rw [← h.sim_candidates, ← hregistry]
  case server_candidates =>
    rw [@ServerOp.registry_hold hasher fl router (userChat clock' prompt) trivial server]
    exact h.server_candidates
  case turn =>
    intro hpolicy
    have hturn : ((userChat clock prompt).hold hasher fl router sim).nextWorker =
        sim.nextWorker + 1 := by
      refine ServerOp.nextWorker_hold_in_turn hpolicy clock _ ?_
      rw [← userChat, hcandidates, ← List.length_pos_iff]
      simpa [numbered] using List.length_pos_iff.mpr hne
    have hturn' : ((userChat clock' prompt).hold hasher fl router server).nextWorker =
        server.nextWorker + 1 := by
      refine ServerOp.nextWorker_hold_in_turn hpolicy clock' _ ?_
      rw [← userChat, hcandidates']
      exact hne
    rw [hsim] at hturn
    rw [hturn', ← h.turn hpolicy, ← hturn]
  case idle =>
    intro w
    rw [((userChat clock prompt).kept_serve hasher fl router sim).inflight_eq]
    exact h.idle w
  case lists =>
    intro k hash
    have hlists := @ServerOp.lists_hold hasher fl router (userChat clock prompt) trivial sim k hash
    have hlists' := @ServerOp.lists_hold hasher fl router (userChat clock' prompt) trivial server
      workers[k].id hash
    rw [hd, hsim] at hlists
    rw [hd'] at hlists'
    rw [Bool.eq_iff_iff, hlists', ← h.lists k hash]
    refine hlists.trans (or_congr_left ?_)
    simp only [Option.some.injEq, exists_eq_left']
    refine and_congr_left fun _ => ?_
    exact Fin.val_inj.trans (id_inj h.sorted).symm

/-- The server's guards and counts are nothing that the two sides have to agree on. -/
theorem Aligned.complete {policy : RoutingPolicy} {serving : Serving}
    (h : Aligned policy workers sim serving.shared) (guard : ℕ) :
    Aligned policy workers sim (serving.step hasher fl router (.complete guard)).shared := by
  rw [Serving.step]
  cases serving.guards[guard]? with
  | none => exact h
  | some worker =>
    exact ⟨h.sim_candidates, h.server_candidates, h.sorted, h.turn, h.idle, h.lists⟩

end Decisions

/-! ## Runs -/

namespace PyRouter

variable {hasher : Option UInt64 → List Char → UInt64} {fl : F64.Rounding} {name : String}
  {settings : Router} {sim : Shared} {router : PyRouter}

/-- A call in process, on a core router that decides. -/
theorem route_of_decision (hpolicy : parsePolicy name = .ok settings.policy)
    (hbuilt : router.built settings.policy = ⟨settings, sim⟩) {clock : ℕ → Instant}
    {prompt : String} {d : RouteDecision}
    (hd : (userChat clock prompt).decision hasher fl settings sim = some d) :
    (router.route hasher fl clock prompt name).2 =
        pure ⟨d.worker.url, d.matchedPrefixLen, d.promptBlocks, d.score⟩ ∧
      (router.route hasher fl clock prompt name).1.built settings.policy =
        ⟨settings, (userChat clock prompt).serve hasher fl settings sim⟩ := by
  have hselected : router.selected hasher fl clock prompt settings.policy =
      (settings.selectForChat hasher fl clock ⟨[⟨"user", prompt⟩]⟩).alone sim := by
    rw [selected, hbuilt]
  constructor
  · have hresult : (router.selected hasher fl clock prompt settings.policy).2 = .ok d := by
      rw [hselected]
      rw [userChat, ServerOp.decision] at hd
      cases hresult : ((settings.selectForChat hasher fl clock ⟨[⟨"user", prompt⟩]⟩).alone sim).2
      · rw [hresult] at hd
        cases hd
      · rw [hresult] at hd
        exact congrArg Except.ok (Option.some.inj hd)
    rw [route, decide_eq hpolicy, hresult]
    rfl
  · rw [route]
    dsimp only
    rw [built_decide hpolicy, hselected, hbuilt]
    rfl

/-- A first decision, and those after it. -/
theorem routeAll_cons {clock : ℕ → ℕ → Instant} {prompt : String} {prompts : List String}
    {d : PyRouteDecision} {rest : List PyRouteDecision}
    (hresult : (router.route hasher fl (clock 0) prompt name).2 = pure d)
    (hrest : (router.route hasher fl (clock 0) prompt name).1.routeAll hasher fl name
      (fun n => clock (n + 1)) prompts = pure rest) :
    router.routeAll hasher fl name clock (prompt :: prompts) = pure (d :: rest) := by
  rw [routeAll]
  dsimp only
  rw [hresult, pure_bind, hrest, pure_bind]

/-- With candidates, every call in process returns a decision. -/
theorem routeAll_eq_pure (hpolicy : parsePolicy name = .ok settings.policy)
    (hkind : settings.policy ≠ .disaggregated)
    (hbuilt : router.built settings.policy = ⟨settings, sim⟩)
    (hne : Router.chatCandidates sim.registry.healthyWorkers ≠ []) (clock : ℕ → ℕ → Instant)
    (prompts : List String) :
    ∃ decisions, router.routeAll hasher fl name clock prompts = pure decisions := by
  induction prompts generalizing router sim clock with
  | nil => exact ⟨[], rfl⟩
  | cons prompt prompts ih =>
    obtain ⟨d, hd⟩ := @ServerOp.exists_decision hasher fl settings (clock 0) prompt hkind sim hne
    obtain ⟨hresult, hbuilt'⟩ := route_of_decision hpolicy hbuilt hd
    obtain ⟨rest, hrest⟩ := ih hbuilt' (by rwa [registry_serve_userChat]) fun n => clock (n + 1)
    exact ⟨_, routeAll_cons hresult hrest⟩

end PyRouter

section Runs

variable {hasher : Option UInt64 → List Char → UInt64} {fl : F64.Rounding} {name : String}
  {settings : Router} {workers : List Worker}

/-- **Predictions along a run.**  From states that agree, a call in process for each request of a
schedule succeeds, and the predictions are the server's decisions where the loads do not decide;
for workers with distinct URLs, only there unless some score is NaN.

**Proof sketch.** Induction on the schedule.  A completion changes only what the two sides need not
agree on.  For a request, the two sides agree again if they decide for the same worker
(`Aligned.next`), and this they do exactly where the loads do not decide
(`Aligned.exists_decided`). -/
theorem Aligned.run (hpolicy : parsePolicy name = .ok settings.policy)
    (hkind : settings.policy ≠ .disaggregated) (hne : workers ≠ []) {router : PyRouter}
    {sim : Shared} (hbuilt : router.built settings.policy = ⟨settings, sim⟩) {serving : Serving}
    (h : Aligned settings.policy workers sim serving.shared) (clock : ℕ → ℕ → Instant)
    (schedule : List ScheduleStep) :
    ∃ decisions, router.routeAll hasher fl name clock (promptsOf schedule) = pure decisions ∧
      (Runs.Along (Serving.step hasher fl settings) (LoadNeutral hasher fl settings) serving
          schedule →
        decisions.map (fun d => some d.prediction) =
          serving.predictions hasher fl settings schedule) ∧
      ((∀ matched load, settings.score fl matched load ≠ .nan) → (workers.map (·.url)).Nodup →
        decisions.map (fun d => some d.prediction) =
          serving.predictions hasher fl settings schedule →
        Runs.Along (Serving.step hasher fl settings) (LoadNeutral hasher fl settings) serving
          schedule) := by
  induction schedule generalizing router sim serving clock with
  | nil => exact ⟨[], rfl, fun _ => rfl, fun _ _ _ => trivial⟩
  | cons step schedule ih =>
    cases step with
    | complete guard =>
      obtain ⟨decisions, hrouted, hsame, honly⟩ := ih hbuilt (h.complete guard) clock
      refine ⟨decisions, hrouted, fun halong => hsame halong.2, fun hscore hurls heq => ?_⟩
      exact ⟨trivial, honly hscore hurls heq⟩
    | request clock' prompt =>
      obtain ⟨i, j, hdecided, hneutral, honly⟩ :=
        @Aligned.exists_decided hasher fl settings workers sim serving.shared (clock 0) clock'
          prompt h hne hkind serving.guards
      obtain ⟨⟨score, hd⟩, ⟨score', hd'⟩⟩ := id hdecided
      obtain ⟨hresult, hbuilt'⟩ := PyRouter.route_of_decision hpolicy hbuilt hd
      rw [promptsOf, Runs.along_cons, Serving.predictions, hd']
      by_cases hsame : j = i
      · subst hsame
        have hnext := h.next hne hdecided
        obtain ⟨rest, hrest, hforward, hback⟩ := @ih _ _ hbuilt'
          (serving.step hasher fl settings (.request clock' prompt)) hnext fun n => clock (n + 1)
        refine ⟨_, PyRouter.routeAll_cons hresult hrest, fun halong => ?_,
          fun hscore hurls heq => ?_⟩
        · rw [List.map_cons, hforward halong.2, Option.map_some]
          exact congrArg (some · :: _) (h.prediction_decisionFor _ j score score')
        · exact ⟨honly hscore rfl, hback hscore hurls (List.cons.inj heq).2⟩
      · -- the first predictions differ
        have hcandidates : Router.chatCandidates ((userChat (clock 0) prompt).serve hasher fl
            settings sim).registry.healthyWorkers ≠ [] := by
          rw [registry_serve_userChat, h.sim_candidates, ← List.length_pos_iff]
          simpa [numbered] using List.length_pos_iff.mpr hne
        obtain ⟨rest, hrest⟩ := @PyRouter.routeAll_eq_pure hasher fl name settings _ _ hpolicy hkind
          hbuilt' hcandidates (fun n => clock (n + 1)) (promptsOf schedule)
        refine ⟨_, PyRouter.routeAll_cons hresult hrest, fun halong => ?_, fun _ hurls heq => ?_⟩
        · exact absurd (hneutral halong.1) hsame
        · have hurl : workers[i].url = workers[j].url :=
            congrArg Prediction.worker (Option.some.inj (List.cons.inj heq).1)
          exact absurd (url_inj hurls hurl).symm hsame

end Runs

/-- A policy that is served in process is not the two-phase one. -/
theorem ne_disaggregated_of_parsePolicy {name : String} {policy : RoutingPolicy}
    (h : parsePolicy name = .ok policy) : policy ≠ .disaggregated := by
  rw [parsePolicy] at h
  split_ifs at h
  · obtain rfl := Except.ok.inj h
    nofun
  · obtain rfl := Except.ok.inj h
    nofun

/-- The state of a core router when it is built. -/
def SimulateArgs.start (args : SimulateArgs) : Shared where
  registry := PyRouter.healthyRegistry (args.urls.map fun url => ⟨url, .both⟩)
  nextWorker := 0
  prefixIndex := .new
  inflight := .withCapacity args.urls.length

/-- A new router, and the core router that it builds first. -/
theorem PyRouter.exists_new (args : SimulateArgs) (policy : RoutingPolicy)
    (hblock : 0 < args.blockSize) : ∃ router : PyRouter,
      PyRouter.new args.urls args.cacheWeight args.loadWeight args.blockSize = pure router ∧
        router.built policy = ⟨args.settings policy, args.start⟩ := by
  have hne : ¬args.urls.isEmpty = true := by simpa using args.urls_ne_nil
  refine ⟨_, by rw [new, if_neg hne, if_neg hblock.ne'], ?_⟩
  rw [built, HashTable.get_empty, Option.getD_none, buildRouter]
  simp only [config, Router.new, max_eq_left (Nat.succ_le_of_lt hblock), List.length_map]
  rfl

/-- A new router and a fresh server agree. -/
theorem Aligned.fresh (args : SimulateArgs) (policy : RoutingPolicy) {workers : List Worker}
    (hurls : workers.map (·.url) = args.urls) {server : Shared} (hfresh : server.Fresh workers) :
    Aligned policy workers args.start server := by
  have hhealthy : args.start.registry.healthyWorkers = numbered workers := by
    rw [SimulateArgs.start, ← hurls]
    exact PyRouter.healthyWorkers_healthyRegistry workers
  refine
    { sim_candidates := ?sim_candidates
      server_candidates := ?server_candidates
      sorted := ?sorted
      turn := fun _ => hfresh.turn.symm
      idle := fun w => InflightTracker.count_withCapacity _ w
      lists := fun i hash => (hfresh.empty _ hash).symm }
  case sim_candidates =>
    rw [hhealthy]
    refine Router.chatCandidates_of_both fun w hw => ?_
    obtain ⟨i, -, rfl⟩ := List.mem_map.mp hw
    rfl
  case server_candidates =>
    rw [hfresh.healthy]
    exact Router.chatCandidates_of_both hfresh.both
  case sorted =>
    rw [← hfresh.healthy]
    exact hfresh.wellFormed.pairwise_healthyWorkers

/-- **When a simulation predicts the server.**  For every list of prompts, all weights and every
block size, for both policies that are served in process, every fresh server with the same workers
and every schedule of the same requests with completions in between: the simulation succeeds, and
its predictions are the server's decisions if the loads decide none of them.  In turn they never
do.  For distinct URLs the condition is exact, unless some score is NaN.

**Proof sketch.** A new router and a fresh server agree (`Aligned.fresh`), and this carries the
comparison along the schedule (`Aligned.run`). -/
theorem simulate_predicts (hasher : Option UInt64 → List Char → UInt64) (fl : F64.Rounding)
    (shuffle : ℤ → List String → List String) (args : SimulateArgs) (policy : RoutingPolicy)
    (hpolicy : parsePolicy args.policy = .ok policy) (hblock : 0 < args.blockSize)
    (workers : List Worker) (hurls : workers.map (·.url) = args.urls) (server : Shared)
    (hfresh : server.Fresh workers) (schedule : List ScheduleStep)
    (htrace : promptsOf schedule = args.trace shuffle) (clock : ℕ → ℕ → Instant) :
    ∃ report, simulate hasher fl shuffle clock args = pure report ∧
      (Runs.Along (Serving.step hasher fl (args.settings policy))
          (LoadNeutral hasher fl (args.settings policy)) ⟨server, []⟩ schedule →
        report.decisions.map (fun d => some d.prediction) =
          Serving.predictions hasher fl (args.settings policy) ⟨server, []⟩ schedule) ∧
      ((∀ matched load, (args.settings policy).score fl matched load ≠ .nan) → args.urls.Nodup →
        report.decisions.map (fun d => some d.prediction) =
          Serving.predictions hasher fl (args.settings policy) ⟨server, []⟩ schedule →
        Runs.Along (Serving.step hasher fl (args.settings policy))
          (LoadNeutral hasher fl (args.settings policy)) ⟨server, []⟩ schedule) := by
  obtain ⟨router, hnew, hbuilt⟩ := PyRouter.exists_new args policy hblock
  have haligned := Aligned.fresh args policy hurls hfresh
  have hne : workers ≠ [] := by
    rintro rfl
    exact args.urls_ne_nil hurls.symm
  obtain ⟨decisions, hrouted, hforward, hback⟩ := @Aligned.run hasher fl args.policy
    (args.settings policy) workers hpolicy (ne_disaggregated_of_parsePolicy hpolicy) hne router
    args.start hbuilt ⟨server, []⟩ haligned clock schedule
  rw [htrace] at hrouted
  rw [simulate]
  dsimp only
  rw [hnew, pure_bind, hrouted, pure_bind]
  exact ⟨_, rfl, hforward, hurls ▸ hback⟩

/-- Two replicas that are up, before any request. -/
def twoReplicas : Shared :=
  [ServerOp.probe 0 true, .probe 1 true].foldl
    (fun s op => op.serve defaultHasher .exact defaultWeights s)
    (.new { workers := [⟨"http://a", .both⟩, ⟨"http://b", .both⟩], routingPolicy := .cacheAware })

/-- A simulation for the two replicas, with the default weights. -/
def replicaArgs (prompts : List String) : SimulateArgs :=
  { prompts, workers := some ["http://a", "http://b"] }

theorem fresh_twoReplicas :
    twoReplicas.Fresh [⟨0, "http://a", .both⟩, ⟨1, "http://b", .both⟩] where
  wellFormed := ((WorkerRegistry.wellFormed_fromConfig _).setHealthy 0 true).setHealthy 1 true
  healthy := by decide +kernel
  both := by decide
  turn := rfl
  empty w hash := rfl

/-- Two equal prompts, the first of which completes before the second comes. -/
theorem simulate_predicts_twice :
    let steps := [ScheduleStep.request (fun _ => 0) "hi", .complete 0, .request (fun _ => 1) "hi"]
    ∃ report, simulate defaultHasher .exact (fun _ => id) (fun _ _ => 0)
        (replicaArgs ["hi", "hi"]) = pure report ∧
      report.decisions.map (fun d => some d.prediction) =
        Serving.predictions defaultHasher .exact defaultWeights ⟨twoReplicas, []⟩ steps := by
  intro steps
  obtain ⟨report, hreport, hforward, -⟩ := simulate_predicts defaultHasher .exact (fun _ => id)
    (replicaArgs ["hi", "hi"]) .cacheAware rfl (by decide) _ rfl twoReplicas fresh_twoReplicas steps
    rfl fun _ _ => 0
  refine ⟨report, hreport, hforward ⟨fun _ => ?_, trivial, fun _ => ?_, trivial⟩⟩
  · exact ⟨⟨0, "http://a", .both⟩, ⟨by decide +kernel, by decide +kernel⟩,
      ⟨by decide +kernel, by decide +kernel⟩⟩
  · exact ⟨⟨0, "http://a", .both⟩, ⟨by decide +kernel, by decide +kernel⟩,
      ⟨by decide +kernel, by decide +kernel⟩⟩

/-- Three equal prompts, all in flight together: in process all three go to the first replica, the
server sends the third one to the other. -/
theorem simulate_misses_load :
    let steps := [ScheduleStep.request (fun _ => 0) "hi", .request (fun _ => 1) "hi",
      .request (fun _ => 2) "hi"]
    twoReplicas.Fresh [⟨0, "http://a", .both⟩, ⟨1, "http://b", .both⟩] ∧
      (simulate defaultHasher .exact (fun _ => id) (fun _ _ => 0)
          (replicaArgs (promptsOf steps))).toOption.map (·.decisions.map (·.prediction)) =
        some [⟨"http://a", 0, 1⟩, ⟨"http://a", 1, 1⟩, ⟨"http://a", 1, 1⟩] ∧
      Serving.predictions defaultHasher .exact defaultWeights ⟨twoReplicas, []⟩ steps =
        [some ⟨"http://a", 0, 1⟩, some ⟨"http://a", 1, 1⟩, some ⟨"http://b", 0, 1⟩] := by
  exact ⟨fresh_twoReplicas, by decide +kernel, by decide +kernel⟩

end KvRoute
