import KvRoute.Server.Requests
import KvRoute.Server.State

set_option relaxedAutoImplicit false
set_option autoImplicit false

/-!
# Requests and background tasks

The threads of the server, section by section: requests, the health poller
(`crates/router-server/src/health.rs`), the discovery loop
(`crates/router-server/src/discovery.rs`), and calls of the registry's own operations.  What the
probes answer and which events the watcher yields are arguments.

A registration takes its id in one section and enters the worker in another.  Labels do not carry
the id that is taken, so threads are observed together with the allocator.

## Main definitions

* `KvRoute.pollHealth`, `KvRoute.runDiscovery` — the loops of the background tasks.
* `KvRoute.Task`, `Task.program` — the threads of the server.
* `KvRoute.IdRule` — which worker ids a thread may use next, in view of its history.

## Main results

* `Task.registers` — every section of a task does what its label says, the task obeys the rule, and
  it has entered a worker under the id that it returns.
-/

namespace KvRoute

/-! ## Programs -/

/-- `registry.all_workers()`. -/
def Serve.allWorkers : Serve (List Worker) :=
  .critical (fun s => (s, s.registry.allWorkers)) .listed

/-- One round of the health poller over the workers that it listed. -/
def probeAll (probe : Worker → Bool) : List Worker → Serve Unit
  | [] => pure ()
  | worker :: workers => do
    (applyProbe worker.id (probe worker)).relabel .access
    probeAll probe workers

/-- The health poller, for some rounds. -/
def pollHealth : List (Worker → Bool) → Serve Unit
  | [] => pure ()
  | probe :: rounds => do
    let workers ← Serve.allWorkers
    probeAll probe workers
    pollHealth rounds

/-- `watch_once`, for some events. -/
def watchOnce : List (IterOrder String × WatchEvent) → SliceMap → DiscoveredWorkers →
    Program DiscoveredWorkers
  | [], _, discovered => pure discovered
  | (order, event) :: events, slices, discovered => do
    let state ← handleEvent order slices discovered event
    watchOnce events state.1 state.2

/-- `run_discovery`, for some sessions of the watch. -/
def runDiscovery : List (List (IterOrder String × WatchEvent)) → DiscoveredWorkers → Program Unit
  | [], _ => pure ()
  | session :: sessions, discovered => do
    let discovered ← watchOnce session .empty discovered
    runDiscovery sessions discovered

/-- A thread of the server. -/
inductive Task where
  /-- A request. -/
  | request (call : ServeRequest)
  /-- The health poller. -/
  | pollHealth (rounds : List (Worker → Bool))
  /-- The discovery loop. -/
  | runDiscovery (sessions : List (List (IterOrder String × WatchEvent)))
  /-- A reconciliation with any table. -/
  | reconcile (order : IterOrder String) (discovered : DiscoveredWorkers) (desired : UrlSet)
  /-- `registry.register_worker(url, pool)`. -/
  | registerWorker (url : String) (pool : Pool)
  /-- `registry.remove_worker(id)`. -/
  | removeWorker (id : WorkerId)
  /-- `prefix_index.remove_worker(id)`. -/
  | purge (id : WorkerId)
  /-- `registry.set_healthy(id, healthy)`. -/
  | setHealthy (id : WorkerId) (healthy : Bool)

/-- The program of a thread; a registration returns its id. -/
def Task.program (hasher : Option UInt64 → List Char → UInt64) (fl : F64.Rounding)
    (showStatus : ℕ → String) (router : Router) : Task → Serve (Option WorkerId)
  | request call => do
    let _ ← call.program hasher fl showStatus router
    pure none
  | pollHealth rounds => do
    KvRoute.pollHealth rounds
    pure none
  | runDiscovery sessions => do
    (KvRoute.runDiscovery sessions .default).relabel .access
    pure none
  | reconcile order discovered desired => do
    let _ ← (KvRoute.reconcile order discovered desired).relabel .access
    pure none
  | registerWorker url pool => do
    let id ← (Program.registerWorker url pool).relabel .access
    pure (some id)
  | removeWorker id => do
    (Program.unregister id).relabel .access
    pure none
  | purge id => do
    (Program.removeWorker id).relabel .access
    pure none
  | setHealthy id healthy => do
    let _ ← (Program.setHealthy id healthy).relabel .access
    pure none

/-! ## Which ids a thread uses -/

/-- The allocator, which threads are observed together with. -/
def allocator (s : Shared) : WorkerId := s.registry.nextId

/-- What a thread does next with worker ids, in view of its history: it enters a worker under the
id that it took right before, and records, selects and guards workers that it saw. -/
def IdRule (past : List (WorkerId × ServerEvent)) (event : WorkerId × ServerEvent) : Prop :=
  match event.2 with
  | .access (.register id _ _) => past.getLast? = some (id, .access .allocate)
  | .access (.write worker _) | .selected worker => Saw (past.map Prod.snd) worker
  | .acquire worker => .selected worker ∈ past.map Prod.snd
  | .release worker | .send _ worker _ => .acquire worker ∈ past.map Prod.snd
  | _ => True

/-- Every section of a part of a background task does what its label says, and obeys the rule
whatever the task did before. -/
structure Serve.Obeys {α : Type} (t : Serve α) : Prop where
  /-- Sections do what their labels say. -/
  acts : t.Acts
  /-- Labels obey the rule. -/
  follows : ∀ past, (t.observe allocator).Follows IdRule (fun _ _ => True) past

namespace Serve

variable {α β : Type}

theorem obeys_pure (a : α) : (pure a : Serve α).Obeys := ⟨acts_pure a, fun _ => trivial⟩

theorem Obeys.bind {t : Serve α} {f : α → Serve β} (ht : t.Obeys) (hf : ∀ a, (f a).Obeys) :
    (t >>= f).Obeys := by
  refine ⟨ht.acts.bind fun a => (hf a).acts, fun past => ?_⟩
  rw [Thread.observe_bind]
  exact (ht.follows past).bind fun a past _ => (hf a).follows past

/-- The sections of a background task about which the rule says nothing. -/
def Upkeep : Access → Prop
  | .purge .. | .setHealthy .. | .allocate | .unregister _ | .resize _ => True
  | _ => False

theorem obeys_of_traces {ψ : α → Prop} {t : Program α} (ht : t.Traces Upkeep ψ) :
    Serve.Obeys (t.relabel .access) := by
  refine ⟨acts_relabel ht, fun past => ?_⟩
  have hlabels : ((t.relabel ServerEvent.access).observe allocator).Each
      (fun _ l _ => ∃ a, l.2 = .access a ∧ Upkeep a) fun _ => True := by
    refine (Thread.Each.observe allocator (Thread.Each.relabel
      (Φ := fun _ l _ => ∃ a, l = .access a ∧ Upkeep a) ?_)).mono (fun _ _ _ h => h.2)
      fun _ h => h
    exact ht.mono (fun _ a _ h => ⟨a, rfl, h.2⟩) fun _ _ => trivial
  refine (hlabels.follows (K := fun _ => True) ?_ trivial).mono fun _ _ _ => trivial
  rintro past ⟨n, l⟩ - ⟨a, rfl, ha⟩
  refine ⟨?_, trivial⟩
  cases a <;> first | exact trivial | exact absurd ha id

theorem obeys_allWorkers : allWorkers.Obeys :=
  ⟨fun _ => ⟨⟨rfl, rfl⟩, trivial⟩, fun _ _ => ⟨trivial, trivial⟩⟩

end Serve

/-- The worker is entered under the id that the registration took. -/
theorem follows_registerWorker (url : String) (pool : Pool)
    (past : List (WorkerId × ServerEvent)) :
    (((Program.registerWorker url pool).relabel .access).observe allocator).Follows IdRule
      (fun id past => ∃ n, (n, .access (.register id url pool)) ∈ past) past := by
  refine fun s => ⟨trivial, fun s' => ⟨?_, s'.registry.nextId, ?_⟩⟩
  · exact List.getLast?_concat
  · exact List.mem_append_right _ List.mem_cons_self

theorem obeys_registerWorker (url : String) (pool : Pool) :
    Serve.Obeys ((Program.registerWorker url pool).relabel .access) where
  acts := fun _ => ⟨rfl, fun _ => ⟨rfl, trivial⟩⟩
  follows past := (follows_registerWorker url pool past).mono fun _ _ _ => trivial

/-! ## Background tasks -/

theorem traces_removeWorker_upkeep (id : WorkerId) :
    (Program.removeWorker id).Traces Serve.Upkeep fun _ => True :=
  Program.traces_removeWorker fun _ => trivial

theorem obeys_applyProbe (worker : WorkerId) (healthy : Bool) :
    Serve.Obeys ((applyProbe worker healthy).relabel .access) := by
  refine Serve.obeys_of_traces (ψ := fun _ => True) ?_
  refine (Program.traces_setHealthy trivial).bind fun changed _ => ?_
  split_ifs
  · exact traces_removeWorker_upkeep worker
  · exact Program.traces_pure trivial
  · exact Program.traces_pure trivial

theorem obeys_probeAll (probe : Worker → Bool) (workers : List Worker) :
    (probeAll probe workers).Obeys := by
  induction workers with
  | nil => exact Serve.obeys_pure ()
  | cons worker workers ih => exact (obeys_applyProbe worker.id _).bind fun _ => ih

theorem obeys_pollHealth (rounds : List (Worker → Bool)) : (pollHealth rounds).Obeys := by
  induction rounds with
  | nil => exact Serve.obeys_pure ()
  | cons probe rounds ih =>
    exact Serve.obeys_allWorkers.bind fun workers => (obeys_probeAll probe workers).bind fun _ => ih

theorem obeys_dropGone (gone : List String) (discovered : DiscoveredWorkers) :
    Serve.Obeys ((dropGone gone discovered).relabel .access) := by
  refine Serve.obeys_of_traces (ψ := fun _ => True) ?_
  induction gone generalizing discovered with
  | nil => exact Program.traces_pure trivial
  | cons url gone ih =>
    unfold dropGone
    cases discovered.byUrl.get url with
    | none => exact ih discovered
    | some id =>
      refine (traces_removeWorker_upkeep id).bind fun _ _ => ?_
      exact (Program.traces_unregister trivial).bind fun _ _ => ih _

theorem obeys_addNew (desired : List String) (discovered : DiscoveredWorkers) (added : ℕ) :
    Serve.Obeys ((addNew desired discovered added).relabel .access) := by
  induction desired generalizing discovered added with
  | nil => exact Serve.obeys_pure _
  | cons url desired ih =>
    unfold addNew
    split_ifs
    · exact ih discovered added
    · rw [Thread.relabel_bind]
      exact (obeys_registerWorker url .both).bind fun id => ih _ _

theorem obeys_reconcile (order : IterOrder String) (discovered : DiscoveredWorkers)
    (desired : UrlSet) : Serve.Obeys ((reconcile order discovered desired).relabel .access) := by
  unfold reconcile
  rw [Thread.relabel_bind]
  refine (obeys_dropGone _ _).bind fun kept => ?_
  rw [Thread.relabel_bind]
  exact (obeys_addNew _ _ _).bind fun result => Serve.obeys_pure _

theorem obeys_handleEvent (order : IterOrder String) (slices : SliceMap)
    (discovered : DiscoveredWorkers) (event : WatchEvent) :
    Serve.Obeys ((handleEvent order slices discovered event).relabel .access) := by
  unfold handleEvent
  rw [Thread.relabel_bind]
  refine (obeys_reconcile order discovered _).bind fun result => ?_
  refine Serve.obeys_of_traces (ψ := fun _ => True) ?_
  dsimp only
  split_ifs
  · exact (Program.traces_ensureCapacity trivial).bind fun _ _ => Program.traces_pure trivial
  · exact Program.traces_pure trivial

theorem obeys_watchOnce (events : List (IterOrder String × WatchEvent)) (slices : SliceMap)
    (discovered : DiscoveredWorkers) :
    Serve.Obeys ((watchOnce events slices discovered).relabel .access) := by
  induction events generalizing slices discovered with
  | nil => exact Serve.obeys_pure _
  | cons entry events ih =>
    obtain ⟨order, event⟩ := entry
    unfold watchOnce
    rw [Thread.relabel_bind]
    exact (obeys_handleEvent order slices discovered event).bind fun state => ih _ _

theorem obeys_runDiscovery (sessions : List (List (IterOrder String × WatchEvent)))
    (discovered : DiscoveredWorkers) :
    Serve.Obeys ((runDiscovery sessions discovered).relabel .access) := by
  induction sessions generalizing discovered with
  | nil => exact Serve.obeys_pure _
  | cons session sessions ih =>
    unfold runDiscovery
    rw [Thread.relabel_bind]
    exact (obeys_watchOnce session .empty discovered).bind fun discovered => ih discovered

/-! ## Requests, and all threads -/

/-- The rule of a request implies the rule about ids. -/
theorem ServeRequest.Rule.idRule {request : ServeRequest} {past : List (WorkerId × ServerEvent)}
    {event : WorkerId × ServerEvent} (h : request.Rule (past.map Prod.snd) event.2) :
    IdRule past event := by
  obtain ⟨n, event⟩ := event
  cases event with
  | access l =>
    cases l with
    | write worker hash => exact h.2.2 worker hash rfl
    | register w url pool => exact absurd h.2.1 id
    | _ => trivial
  | selected worker => exact h.2
  | acquire worker => exact mem_of_cause (congrArg Stand.cause h)
  | release worker => exact mem_of_cause (congrArg Stand.cause h)
  | send phase worker url => exact mem_of_cause (congrArg Stand.cause h)
  | _ => trivial

/-- Every section of the thread does what its label says, the thread obeys the rule from its start
on, and it has entered a worker under the id that it returns. -/
structure Serve.Registers (t : Serve (Option WorkerId)) : Prop where
  /-- Sections do what their labels say. -/
  acts : t.Acts
  /-- Labels obey the rule, and a returned id has been entered. -/
  follows : (t.observe allocator).Follows IdRule (fun result past => ∀ id, result = some id →
    ∃ n url pool, (n, .access (.register id url pool)) ∈ past) []

/-- A thread that returns no id. -/
theorem Serve.Obeys.registers {α : Type} {t : Serve α} (h : t.Obeys) :
    (do let _ ← t; pure none : Serve (Option WorkerId)).Registers := by
  refine ⟨h.acts.bind fun _ => acts_pure none, ?_⟩
  rw [Thread.observe_bind]
  exact (h.follows []).bind fun _ _ _ => nofun

/-- **What the threads of the server do.**  Every section of a task does what its label says, the
task obeys the rule about ids, and it has entered a worker under the id that it returns. -/
theorem Task.registers (task : Task) (hasher : Option UInt64 → List Char → UInt64)
    (fl : F64.Rounding) (showStatus : ℕ → String) (router : Router) :
    (task.program hasher fl showStatus router).Registers := by
  cases task with
  | request call =>
    refine ⟨(call.acts hasher fl showStatus router).bind fun _ => Serve.acts_pure none, ?_⟩
    have hcall : (call.program hasher fl showStatus router).Follows call.Rule
        (fun _ _ => True) ((List.nil : List (WorkerId × ServerEvent)).map Prod.snd) :=
      call.follows_program.mono fun _ _ _ => trivial
    rw [program, Thread.observe_bind]
    exact ((hcall.observe allocator).mono_rule fun _ _ h => h.idRule).bind fun _ _ _ => nofun
  | pollHealth rounds => exact (obeys_pollHealth rounds).registers
  | runDiscovery sessions => exact (obeys_runDiscovery sessions .default).registers
  | reconcile order discovered desired =>
    exact (obeys_reconcile order discovered desired).registers
  | registerWorker url pool =>
    refine ⟨(obeys_registerWorker url pool).acts.bind fun _ => Serve.acts_pure _, ?_⟩
    rw [program, Thread.observe_bind]
    refine (follows_registerWorker url pool []).bind fun id past h => ?_
    intro returned hreturned
    obtain rfl := Option.some.inj hreturned
    obtain ⟨n, hmem⟩ := h
    exact ⟨n, url, pool, hmem⟩
  | removeWorker id =>
    exact (Serve.obeys_of_traces (Program.traces_unregister trivial)).registers
  | purge id => exact (Serve.obeys_of_traces (traces_removeWorker_upkeep id)).registers
  | setHealthy id healthy =>
    exact (Serve.obeys_of_traces (Program.traces_setHealthy trivial)).registers

end KvRoute
