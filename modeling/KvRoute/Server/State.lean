import KvRoute.Core.PrefixRuns
import KvRoute.Server.Discovery

set_option relaxedAutoImplicit false
set_option autoImplicit false

/-!
# The server's state

The state that request handlers and background tasks share (`crates/router-server/src/state.rs`)
together with the discovery task's table, and the steps that change it: routing calls, health
probes (`health.rs`), reconciliations and eviction sweeps, each run as one step.

## Main definitions

* `KvRoute.applyProbe` — what the health poller does with one probe.
* `KvRoute.ServerOp`, `ServerOp.serve` — the steps other than discovery's.
* `KvRoute.Server`, `KvRoute.ServerStep`, `Server.step` — the whole state and all steps.
* `Server.Sound` — whoever is listed in the index is registered and up.

## Main results

* `Server.Sound.step` — every step keeps the state sound.
* `KvRoute.listed_workers_up` — in every run, every listed worker is registered and up.
-/

namespace KvRoute

/-- The health poller mirrors one probe into the registry; a worker that goes down loses its
index entries. -/
def applyProbe (worker : WorkerId) (healthy : Bool) : Program Unit := do
  let changed ← Program.setHealthy worker healthy
  if changed then
    if !healthy then
      Program.removeWorker worker

/-- The steps of request handlers and of the background tasks other than discovery. -/
inductive ServerOp where
  /-- A chat request is routed. -/
  | chat (clock : ℕ → Instant) (request : ChatCompletionRequest)
  /-- One phase of a disaggregated request is routed. -/
  | phase (clock : ℕ → Instant) (pool : Pool) (chain : List UInt64)
  /-- A health probe of a worker returns. -/
  | probe (worker : WorkerId) (healthy : Bool)
  /-- The index is swept. -/
  | evict (order : IterOrder (UInt64 × IndexEntry)) (now : Instant) (ttl : Duration)
      (maxEntries : ℕ)

section Serve

variable (hasher : Option UInt64 → List Char → UInt64) (fl : F64.Rounding) (router : Router)

/-- One step on the shared state. -/
def ServerOp.serve (op : ServerOp) (s : Shared) : Shared :=
  match op with
  | .chat clock request => ((router.selectForChat hasher fl clock request).alone s).1
  | .phase clock pool chain => ((router.selectInPool fl clock pool chain).alone s).1
  | .probe worker healthy => ((applyProbe worker healthy).alone s).1
  | .evict order now ttl maxEntries =>
    { s with prefixIndex := (s.prefixIndex.evict order now ttl maxEntries).1 }

/-- A probe, run alone. -/
theorem alone_applyProbe (worker : WorkerId) (healthy : Bool) (s : Shared) :
    (applyProbe worker healthy).alone s =
      ({ s with
          registry := (s.registry.setHealthy worker healthy).1,
          prefixIndex := if (s.registry.setHealthy worker healthy).2 = true ∧ healthy = false
            then s.prefixIndex.removeWorker worker else s.prefixIndex }, ()) := by
  rw [applyProbe, Program.alone_setHealthy_bind]
  cases (s.registry.setHealthy worker healthy).2 with
  | false => simp
  | true =>
    cases healthy with
    | true => simp
    | false => simp [Program.alone_removeWorker]

/-! ## The whole server -/

/-- The shared state and the discovery task's table. -/
structure Server where
  /-- The shared state. -/
  shared : Shared
  /-- The registrations owned by discovery. -/
  discovered : DiscoveredWorkers

/-- A freshly built server. -/
def Server.new (config : RouterConfig) : Server := ⟨.new config, .default⟩

/-- A step of the server. -/
inductive ServerStep where
  /-- A step other than discovery's. -/
  | op (op : ServerOp)
  /-- Discovery reconciles with a wanted set. -/
  | reconcile (order : IterOrder String) (desired : UrlSet)

/-- One step. -/
def Server.step (server : Server) : ServerStep → Server
  | .op op => { server with shared := op.serve hasher fl router server.shared }
  | .reconcile order desired =>
    let result := (KvRoute.reconcile order server.discovered desired).alone server.shared
    ⟨result.1, result.2.discovered⟩

end Serve

/-- Updating a worker's health keeps the registrations in order. -/
theorem Registrations.setHealthy {registry : WorkerRegistry} {discovered : DiscoveredWorkers}
    (h : Registrations registry discovered) (worker : WorkerId) (healthy : Bool) :
    Registrations (registry.setHealthy worker healthy).1 discovered where
  wellFormed := h.wellFormed.setHealthy worker healthy
  registered url id hurl := by
    obtain ⟨old, hget⟩ := h.registered url id hurl
    rw [WorkerRegistry.get_setHealthy]
    split_ifs with hid
    · exact ⟨healthy, by rw [← hid, hget]; rfl⟩
    · exact ⟨old, hget⟩

theorem Registrations.new (config : RouterConfig) :
    Registrations (Shared.new config).registry .default :=
  ⟨WorkerRegistry.wellFormed_fromConfig config.workers, nofun⟩

/-- What every step other than discovery's leaves alone: who is registered, as which worker, and
what the tracker counts. -/
structure Shared.Kept (s s' : Shared) : Prop where
  /-- The same workers are registered. -/
  worker_eq : ∀ id, s'.registry.get id = s.registry.get id
  /-- No id is allocated. -/
  nextId_eq : s'.registry.nextId = s.registry.nextId
  /-- The counters are the same. -/
  inflight_eq : s'.inflight = s.inflight
  /-- Discovery's registrations stay in order. -/
  registrations : ∀ discovered, Registrations s.registry discovered →
    Registrations s'.registry discovered

theorem Shared.Routed.kept {s s' : Shared} {candidates : List Worker} {chain : List UInt64}
    {result : Except RouterError RouteDecision} (h : s.Routed candidates chain result s') :
    s.Kept s' := by
  refine ⟨fun id => ?_, ?_, h.inflight_eq, fun discovered hreg => ?_⟩
  · rw [h.registry_eq]
  · rw [h.registry_eq]
  · rw [h.registry_eq]
    exact hreg

/-- A probe changes a health flag, never a registration. -/
theorem kept_applyProbe (worker : WorkerId) (healthy : Bool) (s : Shared) :
    s.Kept ((applyProbe worker healthy).alone s).1 := by
  rw [alone_applyProbe]
  refine ⟨fun id => ?_, s.registry.nextId_setHealthy worker healthy, rfl,
    fun discovered hreg => hreg.setHealthy worker healthy⟩
  dsimp only
  rw [WorkerRegistry.get, WorkerRegistry.get, WorkerRegistry.get_setHealthy]
  split_ifs with hid
  · rw [hid, Option.map_map]
    rfl
  · rfl

theorem Shared.kept_setIndex (s : Shared) (idx : PrefixIndex) :
    s.Kept { s with prefixIndex := idx } := ⟨fun _ => rfl, rfl, rfl, fun _ hreg => hreg⟩

/-- Only discovery registers and unregisters workers. -/
theorem ServerOp.kept_serve (hasher : Option UInt64 → List Char → UInt64) (fl : F64.Rounding)
    (router : Router) (op : ServerOp) (s : Shared) : s.Kept (op.serve hasher fl router s) := by
  cases op with
  | chat clock request => exact (Router.routed_selectForChat s hasher clock request).kept
  | phase clock pool chain => exact (Router.routed_selectInPool s clock pool chain).kept
  | probe worker healthy => exact kept_applyProbe worker healthy s
  | evict order now ttl maxEntries => exact s.kept_setIndex _

namespace Server

/-- Every worker listed in the index is registered and up, and discovery's registrations are in
order. -/
structure Sound (server : Server) : Prop where
  /-- The registrations are in order. -/
  registrations : Registrations server.shared.registry server.discovered
  /-- Listed workers are registered and up. -/
  up : ∀ w h, server.shared.prefixIndex.lists w h = true →
    ∃ state, server.shared.registry.workers.get w = some state ∧ state.healthy = true

theorem Sound.new (config : RouterConfig) : (Server.new config).Sound :=
  ⟨.new config, nofun⟩

/-- A routing call enters only a worker of its health snapshot. -/
theorem Sound.routed {server : Server} (h : server.Sound) {s' : Shared}
    {candidates : List Worker} {chain : List UInt64}
    {result : Except RouterError RouteDecision}
    (hrouted : server.shared.Routed candidates chain result s')
    (hcandidates : ∀ w ∈ candidates, w ∈ server.shared.registry.healthyWorkers) :
    Sound ⟨s', server.discovered⟩ where
  registrations := hrouted.registry_eq ▸ h.registrations
  up w b hlists := by
    dsimp only at hlists ⊢
    rw [hrouted.registry_eq]
    rcases (hrouted.lists_iff w b).mp hlists with ⟨d, hd, rfl, -⟩ | hold
    · have hw := hcandidates d.worker (hrouted.chosen d hd)
      exact ⟨_, h.registrations.wellFormed.of_mem_healthyWorkers hw, rfl⟩
    · exact h.up w b hold

/-- A probe that takes a worker down purges it; any other probe leaves listed workers up. -/
theorem Sound.probe {server : Server} (h : server.Sound) (worker : WorkerId) (healthy : Bool) :
    Sound ⟨((applyProbe worker healthy).alone server.shared).1, server.discovered⟩ := by
  rw [alone_applyProbe]
  refine ⟨h.registrations.setHealthy worker healthy, fun w b hlists => ?_⟩
  dsimp only at hlists ⊢
  rw [WorkerRegistry.setHealthy_snd] at hlists
  rw [WorkerRegistry.get_setHealthy]
  split_ifs at hlists with hdown
  · obtain ⟨hne, hold⟩ := (PrefixIndex.lists_removeWorker _ _ _ _).mp hlists
    rw [if_neg hne]
    exact h.up w b hold
  · obtain ⟨state, hget, hup⟩ := h.up w b hlists
    by_cases hw : w = worker
    · subst hw
      rw [if_pos rfl, hget]
      refine ⟨_, rfl, ?_⟩
      -- the worker was up, so a probe that found it down would have purged it
      cases healthy with
      | true => rfl
      | false => exact absurd ⟨by rw [hget, Option.any_some, hup]; rfl, rfl⟩ hdown
    · exact ⟨state, by rw [if_neg hw, hget], hup⟩

/-- A reconciliation purges the workers it unregisters, and leaves the others alone. -/
theorem Sound.reconcile {server : Server} (h : server.Sound) (order : IterOrder String)
    (desired : UrlSet) :
    Sound ⟨((KvRoute.reconcile order server.discovered desired).alone server.shared).1,
      ((KvRoute.reconcile order server.discovered desired).alone server.shared).2.discovered⟩ := by
  have hr := reconciled_reconcile order server.discovered desired server.shared h.registrations
  refine ⟨hr.registrations, fun w b hlists => ?_⟩
  rw [PrefixIndex.lists_iff_belief] at hlists
  have hkeep : ∀ url, desired.containsKey url = false →
      server.discovered.byUrl.get url ≠ some w :=
    fun url hurl hw => hlists (hr.purged url w hurl hw b)
  rw [hr.belief_eq w hkeep, ← PrefixIndex.lists_iff_belief] at hlists
  obtain ⟨state, hget, hup⟩ := h.up w b hlists
  exact ⟨state, (hr.workers_eq w (h.registrations.wellFormed.id_lt hget) hkeep).trans hget, hup⟩

/-- Removing entries lists nobody. -/
theorem Sound.of_lists {server : Server} (h : server.Sound) (idx : PrefixIndex)
    (hidx : ∀ w b, idx.lists w b = true → server.shared.prefixIndex.lists w b = true) :
    Sound ⟨{ server.shared with prefixIndex := idx }, server.discovered⟩ :=
  ⟨h.registrations, fun w b hlists => h.up w b (hidx w b hlists)⟩

/-- Every step keeps the state sound. -/
theorem Sound.step {server : Server} (h : server.Sound)
    (hasher : Option UInt64 → List Char → UInt64) (fl : F64.Rounding) (router : Router)
    (step : ServerStep) : (server.step hasher fl router step).Sound := by
  cases step with
  | reconcile order desired => exact h.reconcile order desired
  | op op =>
    cases op with
    | chat clock request =>
      exact h.routed (Router.routed_selectForChat server.shared hasher clock request)
        fun w hw => Router.mem_of_mem_chatCandidates hw
    | phase clock pool chain =>
      exact h.routed (Router.routed_selectInPool server.shared clock pool chain)
        fun w hw => (List.mem_filter.mp hw).1
    | probe worker healthy => exact h.probe worker healthy
    | evict order now ttl maxEntries =>
      exact h.of_lists _ fun _ _ hlists => PrefixIndex.lists_of_lists_evict hlists

end Server

/-- **Listed workers are up.**  In every run of routing calls, health probes, reconciliations and
sweeps from a freshly built server, every worker that the index lists on any block is registered
and up.

**Proof sketch.** The invariant `Server.Sound` holds of a fresh server and is kept by every
step: routing calls enter only workers of the health snapshot, a worker is purged whenever it is
taken down or unregistered, and nothing else lists anybody. -/
theorem listed_workers_up (hasher : Option UInt64 → List Char → UInt64) (fl : F64.Rounding)
    (config : RouterConfig) (steps : List ServerStep) (w : WorkerId) (h : UInt64) :
    let server := steps.foldl (Server.step hasher fl (.new config)) (.new config)
    server.shared.prefixIndex.lists w h = true →
      ∃ state, server.shared.registry.workers.get w = some state ∧ state.worker.id = w ∧
        state.healthy = true := by
  intro server hlists
  have hsound : server.Sound :=
    Runs.foldl_inv (fun _ step h => h.step hasher fl (.new config) step) (.new config) steps
  obtain ⟨state, hget, hup⟩ := hsound.up w h hlists
  exact ⟨state, hget, hsound.registrations.wellFormed.id_eq hget, hup⟩

/-- One static worker, served in turn. -/
def oneWorker : RouterConfig :=
  { workers := [⟨"http://a:8001", .both⟩], routingPolicy := .roundRobin }

/-- A worker that comes up and is sent a request is listed on its only block, and up. -/
theorem listed_workers_up_one_worker :
    ∃ state, ([ServerStep.op (.probe 0 true), .op (.chat (fun _ => 0) ⟨[⟨"user", "hi"⟩]⟩)].foldl
      (Server.step defaultHasher .exact (.new oneWorker))
        (.new oneWorker)).shared.registry.workers.get 0 = some state ∧ state.worker.id = 0 ∧
          state.healthy = true :=
  listed_workers_up defaultHasher .exact oneWorker
    [.op (.probe 0 true), .op (.chat (fun _ => 0) ⟨[⟨"user", "hi"⟩]⟩)] 0
    (defaultHasher none "user: hi".toList) (by decide +kernel)

end KvRoute
