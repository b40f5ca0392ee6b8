import KvRoute.Server.DiscoveryRuns

set_option relaxedAutoImplicit false
set_option autoImplicit false

/-!
# The discovered set and the static list

Workers are registered in two places: `from_config` enters the declared workers under their
positions, and discovery enters URLs under allocated ids.  Discovery drops only what it entered
itself, so the registry holds the declared workers and the discovered ones side by side, in every
state of every run.

## Main definitions

* `WorkerRegistry.urls` — the URLs of `all_workers`.
* `KvRoute.Roster` — the invariant: who is registered, and by whom.
* `Watch.Heard` — the invariant: what the session knows of the live slices.
* `Watch.Replaced` — the registered URLs are the advertised ones, each registered once.
* `KvRoute.ReplacesStatic`, `KvRoute.OnlyDiscovered` — the property of a run, and the condition.

## Main results

* `KvRoute.discovery_replaces_static_iff` — the condition is exact, run by run.
-/

namespace KvRoute

/-! ## Registered URLs -/

namespace WorkerRegistry

/-- The URLs of the registered workers, one entry a worker. -/
def urls (r : WorkerRegistry) : List String := r.allWorkers.map (·.url)

variable {r : WorkerRegistry}

theorem mem_urls {url : String} :
    url ∈ r.urls ↔ ∃ id worker, r.get id = some worker ∧ worker.url = url := by
  simp only [urls, List.mem_map, mem_allWorkers, WorkerRegistry.get, Option.map_eq_some_iff]
  constructor
  · rintro ⟨w, ⟨id, state, hget, rfl⟩, rfl⟩
    exact ⟨id, state.worker, ⟨state, hget, rfl⟩, rfl⟩
  · rintro ⟨id, w, ⟨state, hget, rfl⟩, rfl⟩
    exact ⟨state.worker, ⟨id, state, hget, rfl⟩, rfl⟩

/-- No URL is registered twice exactly if no two ids have the same URL. -/
theorem nodup_urls_iff : r.urls.Nodup ↔ ∀ id id' worker worker', r.get id = some worker →
    r.get id' = some worker' → worker.url = worker'.url → id = id' := by
  have hperm : r.urls.Perm (r.workers.toList.map fun e => e.2.worker.url) := by
    have hsort : r.allWorkers.Perm (r.states.map (·.worker)) := List.perm_insertionSort _ _
    refine (hsort.map (·.url)).trans (List.Perm.of_eq ?_)
    rw [states, List.map_map, List.map_map]
    rfl
  have hnodup : r.workers.toList.Nodup := List.Nodup.of_map Prod.fst r.workers.nodup_keys
  rw [hperm.nodup_iff, List.nodup_map_iff_inj_on hnodup]
  constructor
  · intro h id id' worker worker' hid hid' hurl
    obtain ⟨state, hstate, rfl⟩ := Option.map_eq_some_iff.mp hid
    obtain ⟨state', hstate', rfl⟩ := Option.map_eq_some_iff.mp hid'
    have heq := h (id, state) ((HashTable.mem_toList _).mpr hstate) (id', state')
      ((HashTable.mem_toList _).mpr hstate') hurl
    exact congrArg Prod.fst heq
  · rintro h ⟨id, state⟩ he ⟨id', state'⟩ he' hurl
    have hget := (HashTable.mem_toList _).mp he
    have hget' := (HashTable.mem_toList _).mp he'
    have hid : id = id' := h id id' state.worker state'.worker
      (by rw [WorkerRegistry.get, hget]; rfl) (by rw [WorkerRegistry.get, hget']; rfl) hurl
    subst hid
    rw [Option.some.inj (hget.symm.trans hget')]

end WorkerRegistry

/-! ## Who registered whom -/

/-- The registered workers are the declared ones, under their positions, and the discovered ones,
under ids past all positions. -/
structure Roster (static : List WorkerConfig) (registry : WorkerRegistry)
    (discovered : DiscoveredWorkers) : Prop extends Registrations registry discovered where
  /-- The positions are not allocated again. -/
  length_le : static.length ≤ registry.nextId
  /-- Declared workers are registered under their positions. -/
  declared : ∀ i worker, static[i]? = some worker →
    registry.get i = some ⟨i, worker.url, worker.pool⟩
  /-- Discovered ids are past the positions. -/
  length_le_id : ∀ url id, discovered.byUrl.get url = some id → static.length ≤ id
  /-- A registered worker was declared or is discovered. -/
  cases : ∀ id worker, registry.get id = some worker →
    id < static.length ∨ discovered.byUrl.get worker.url = some id

namespace Roster

variable {static : List WorkerConfig} {registry : WorkerRegistry} {discovered : DiscoveredWorkers}

theorem new (config : RouterConfig) :
    Roster config.workers (Shared.new config).registry .default := by
  have hget : ∀ id, (Shared.new config).registry.get id =
      (config.workers[id]?.map fun declared => ⟨⟨id, declared.url, declared.pool⟩, false⟩).map
        WorkerState.worker :=
    fun id => congrArg (Option.map _) (WorkerRegistry.get_fromConfig config.workers id)
  refine
    { toRegistrations := .new config
      length_le := le_rfl
      declared := ?declared
      length_le_id := nofun
      cases := ?cases }
  case declared =>
    intro i worker hi
    rw [hget, hi]
    rfl
  case cases =>
    intro id worker hid
    left
    by_contra hlt
    rw [hget, List.getElem?_eq_none (not_lt.mp hlt)] at hid
    cases hid

/-- Dropping a discovered URL leaves the declared workers. -/
theorem drop (h : Roster static registry discovered) {url : String} {id : WorkerId}
    (hurl : discovered.byUrl.get url = some id) :
    Roster static (registry.removeWorker id).1 ⟨discovered.byUrl.remove url⟩ := by
  have hget : ∀ i, (registry.removeWorker id).1.get i =
      if i = id then none else registry.get i := by
    intro i
    rw [WorkerRegistry.get, WorkerRegistry.get_removeWorker]
    split_ifs <;> rfl
  refine
    { toRegistrations := h.toRegistrations.drop hurl
      length_le := h.length_le
      declared := ?declared
      length_le_id := ?length_le_id
      cases := ?cases }
  case declared =>
    intro i worker hi
    have hlt := (List.getElem?_eq_some_iff.mp hi).1
    have hle := h.length_le_id url id hurl
    rw [hget, if_neg (by lia), h.declared i worker hi]
  case length_le_id =>
    intro u i hu
    rw [HashTable.get_remove] at hu
    split_ifs at hu
    exact h.length_le_id u i hu
  case cases =>
    intro i worker hi
    rw [hget] at hi
    split_ifs at hi with hne
    refine (h.cases i worker hi).imp_right fun hold => ?_
    rw [HashTable.get_remove, if_neg, hold]
    rintro rfl
    exact hne (Option.some.inj (hold.symm.trans hurl))

/-- Registering a URL that is not discovered leaves everybody else. -/
theorem add (h : Roster static registry discovered) {url : String}
    (hurl : discovered.byUrl.get url = none) :
    Roster static (registry.registerWorker url .both).1
      ⟨discovered.byUrl.insert url registry.nextId⟩ := by
  have hget : ∀ i, (registry.registerWorker url .both).1.get i =
      if i = registry.nextId then some ⟨registry.nextId, url, .both⟩ else registry.get i := by
    intro i
    rw [WorkerRegistry.get, WorkerRegistry.get_registerWorker]
    split_ifs <;> rfl
  refine
    { toRegistrations := h.toRegistrations.add url
      length_le := ?length_le
      declared := ?declared
      length_le_id := ?length_le_id
      cases := ?cases }
  case length_le =>
    rw [WorkerRegistry.nextId_registerWorker]
    exact Nat.le_succ_of_le h.length_le
  case declared =>
    intro i worker hi
    have hlt := (List.getElem?_eq_some_iff.mp hi).1
    have hle := h.length_le
    rw [hget, if_neg (by lia), h.declared i worker hi]
  case length_le_id =>
    intro u i hu
    rw [HashTable.get_insert] at hu
    split_ifs at hu
    · rw [← Option.some.inj hu]
      exact h.length_le
    · exact h.length_le_id u i hu
  case cases =>
    intro i worker hi
    rw [hget] at hi
    split_ifs at hi with heq
    · obtain rfl := Option.some.inj hi
      right
      rw [HashTable.get_insert_self, heq]
    · refine (h.cases i worker hi).imp_right fun hold => ?_
      rw [HashTable.get_insert_of_ne _ _ _, hold]
      rintro rfl
      rw [hurl] at hold
      cases hold

theorem dropGone {s : Shared} (h : Roster static s.registry discovered) (gone : List String) :
    Roster static ((KvRoute.dropGone gone discovered).alone s).1.registry
      ((KvRoute.dropGone gone discovered).alone s).2 := by
  induction gone generalizing discovered s with
  | nil => exact h
  | cons url gone ih =>
    cases hurl : discovered.byUrl.get url with
    | none =>
      rw [alone_dropGone_of_none hurl]
      exact ih h
    | some id =>
      rw [alone_dropGone_of_some hurl]
      exact ih (h.drop hurl)

theorem addNew {s : Shared} (h : Roster static s.registry discovered) (desired : List String)
    (added : ℕ) :
    Roster static ((KvRoute.addNew desired discovered added).alone s).1.registry
      ((KvRoute.addNew desired discovered added).alone s).2.1 := by
  induction desired generalizing discovered s added with
  | nil => exact h
  | cons url desired ih =>
    by_cases hurl : discovered.byUrl.containsKey url = true
    · rw [alone_addNew_of_mem hurl]
      exact ih h added
    · rw [alone_addNew_of_not_mem hurl]
      rw [HashTable.containsKey, Option.not_isSome_iff_eq_none] at hurl
      exact ih (h.add hurl) (added + 1)

theorem reconcile {s : Shared} (h : Roster static s.registry discovered) (order : IterOrder String)
    (desired : UrlSet) :
    Roster static ((KvRoute.reconcile order discovered desired).alone s).1.registry
      ((KvRoute.reconcile order discovered desired).alone s).2.discovered := by
  rw [KvRoute.reconcile, Thread.alone_bind, Thread.alone_bind]
  exact (h.dropGone _).addNew _ 0

/-- The registered URLs are the declared ones and the discovered ones. -/
theorem mem_urls_iff (h : Roster static registry discovered) (url : String) :
    url ∈ registry.urls ↔ (∃ worker ∈ static, worker.url = url) ∨
      ∃ id, discovered.byUrl.get url = some id := by
  rw [WorkerRegistry.mem_urls]
  constructor
  · rintro ⟨id, worker, hid, rfl⟩
    refine (h.cases id worker hid).imp (fun hlt => ?_) fun hold => ⟨id, hold⟩
    have hdeclared := h.declared id static[id] (List.getElem?_eq_getElem hlt)
    exact ⟨static[id], List.getElem_mem hlt, by rw [Option.some.inj (hid.symm.trans hdeclared)]⟩
  · rintro (⟨worker, hmem, rfl⟩ | ⟨id, hid⟩)
    · obtain ⟨i, hi⟩ := List.getElem?_of_mem hmem
      exact ⟨i, _, h.declared i worker hi, rfl⟩
    · obtain ⟨healthy, hget⟩ := h.registered url id hid
      exact ⟨id, ⟨id, url, .both⟩, by rw [WorkerRegistry.get, hget]; rfl, rfl⟩

/-- Without declared workers every URL is registered once. -/
theorem nodup_urls (h : Roster [] registry discovered) : registry.urls.Nodup := by
  rw [WorkerRegistry.nodup_urls_iff]
  intro id id' worker worker' hid hid' hurl
  have hold := (h.cases id worker hid).resolve_left (Nat.not_lt_zero _)
  have hold' := (h.cases id' worker' hid').resolve_left (Nat.not_lt_zero _)
  rw [hurl, hold'] at hold
  exact (Option.some.inj hold).symm

/-- A declared URL that is also discovered is registered twice. -/
theorem not_nodup_urls (h : Roster static registry discovered) {worker : WorkerConfig}
    (hmem : worker ∈ static) {id : WorkerId}
    (hid : discovered.byUrl.get worker.url = some id) : ¬registry.urls.Nodup := by
  intro hnodup
  obtain ⟨i, hi⟩ := List.getElem?_of_mem hmem
  obtain ⟨healthy, hget⟩ := h.registered worker.url id hid
  have heq := WorkerRegistry.nodup_urls_iff.mp hnodup i id ⟨i, worker.url, worker.pool⟩
    ⟨id, worker.url, .both⟩ (h.declared i worker hi) (by rw [WorkerRegistry.get, hget]; rfl) rfl
  have hlt := (List.getElem?_eq_some_iff.mp hi).1
  have hle := h.length_le_id worker.url id hid
  lia

end Roster

/-! ## Runs -/

namespace Watch

/-- Whether a listing has been completed. -/
def Listed (past : List WatchStep) : Prop := ∃ order, WatchStep.event order .initDone ∈ past

/-- The registered URLs are exactly those that live slices list, each registered once. -/
structure Replaced (w : Watch) : Prop where
  /-- The same URLs. -/
  urls_iff : ∀ url, url ∈ w.server.shared.registry.urls ↔ ∃ name, w.view.live.Lists name url
  /-- Each of them once. -/
  nodup : w.server.shared.registry.urls.Nodup

/-- The invariant: discovery has registered exactly what the slices of the session list, and
those slices are, as far as the listing is, the live ones. -/
structure Heard (w : Watch) : Prop where
  /-- Before the listing the session knows no slice. -/
  idle : w.view.phase = .idle → ∀ name, w.slices.get name = none
  /-- From then on the discovered URLs are those of the session. -/
  discovered_iff : w.view.phase ≠ .idle → ∀ url,
    (∃ id, w.server.discovered.byUrl.get url = some id) ↔ ∃ name, w.slices.Lists name url
  /-- During the listing the session knows the live slices that have been relisted. -/
  listing : w.view.phase = .listing → ∀ name url,
    w.slices.Lists name url ↔ name ∈ w.view.relisted ∧ w.view.live.Lists name url
  /-- Afterwards it knows all of them. -/
  synced : w.view.phase = .synced → ∀ name url,
    w.slices.Lists name url ↔ w.view.live.Lists name url

variable {hasher : Option UInt64 → List Char → UInt64} {fl : F64.Rounding} {router : Router}
  {config : RouterConfig} {w : Watch}

theorem heard_new (config : RouterConfig) : (Watch.new config).Heard where
  idle _ _ := rfl
  discovered_iff h := absurd rfl h
  listing := nofun
  synced := nofun

/-- What the session knows after an event, slice by slice. -/
theorem Heard.lists_update (h : w.Heard) {event : WatchEvent} (hsend : w.view.CanSend event) :
    ((w.view.observe event).phase = .listing → ∀ name url, (w.slices.update event).Lists name url ↔
      name ∈ (w.view.observe event).relisted ∧ (w.view.observe event).live.Lists name url) ∧
    ((w.view.observe event).phase = .synced → ∀ name url,
      (w.slices.update event).Lists name url ↔ (w.view.observe event).live.Lists name url) := by
  cases event with
  | init =>
    refine ⟨fun _ name url => iff_of_false ?_ ?_, fun hphase => ?_⟩
    · rintro ⟨urls, hget, -⟩
      rw [SliceMap.update, h.idle hsend] at hget
      cases hget
    · exact fun hmem => List.not_mem_nil hmem.1
    · cases hphase
  | initApply slice =>
    refine ⟨fun _ name url => ?_, fun hsynced => ?_⟩
    · rw [SliceMap.update, WatchView.observe, SliceMap.lists_insert, SliceMap.lists_insert,
        List.mem_cons]
      split_ifs with hname
      · simp [hname]
      · rw [h.listing hsend.1, or_iff_right hname]
    · cases hsend.1.symm.trans hsynced
  | initDone =>
    refine ⟨fun hphase => ?_, fun _ name url => ?_⟩
    · cases hphase
    · rw [SliceMap.update, WatchView.observe, SliceMap.lists_retain, h.listing hsend]
  | apply slice =>
    refine ⟨fun hlisting => ?_, fun _ name url => ?_⟩
    · cases hsend.symm.trans hlisting
    rw [SliceMap.update, WatchView.observe, SliceMap.lists_insert, SliceMap.lists_insert,
      h.synced hsend]
  | delete slice =>
    refine ⟨fun hlisting => ?_, fun _ name url => ?_⟩
    · cases hsend.symm.trans hlisting
    rw [SliceMap.update, WatchView.observe, SliceMap.lists_remove, SliceMap.lists_remove,
      h.synced hsend]

/-- What a run keeps up from its start on: who is registered, and what the session knows. -/
structure Kept (config : RouterConfig) (w : Watch) : Prop where
  /-- Who is registered. -/
  roster : Roster config.workers w.server.shared.registry w.server.discovered
  /-- What the session knows. -/
  heard : w.Heard

theorem kept_new (config : RouterConfig) : (Watch.new config).Kept config :=
  ⟨.new config, heard_new config⟩

/-- Every admissible step keeps it up. -/
theorem Kept.step (h : w.Kept config) (a : WatchStep) (hadm : w.Admissible a) :
    (w.step hasher fl router a).Kept config := by
  cases a with
  | op op =>
    have hkept := op.kept_serve hasher fl router w.server.shared
    refine ⟨?_, h.heard.idle, h.heard.discovered_iff, h.heard.listing, h.heard.synced⟩
    refine
      { toRegistrations := hkept.registrations _ h.roster.toRegistrations
        length_le := h.roster.length_le.trans_eq hkept.nextId_eq.symm
        declared := ?declared
        length_le_id := h.roster.length_le_id
        cases := ?cases }
    case declared =>
      intro i declared hi
      exact (hkept.worker_eq i).trans (h.roster.declared i declared hi)
    case cases =>
      intro id worker hid
      exact h.roster.cases id worker ((hkept.worker_eq id).symm.trans hid)
  | session =>
    exact ⟨h.roster, fun _ _ => rfl, fun hne => absurd rfl hne, nofun, nofun⟩
  | event order event =>
    have hroster : Roster config.workers
        (w.step hasher fl router (.event order event)).server.shared.registry
        (w.step hasher fl router (.event order event)).server.discovered := by
      rw [Watch.step, alone_handleEvent]
      exact h.roster.reconcile order (w.slices.update event).desired
    obtain ⟨hlisting, hsynced⟩ := h.heard.lists_update hadm
    obtain ⟨result, s', hr, heq⟩ :=
      step_event hasher fl router h.roster.toRegistrations order event
    refine ⟨hroster, ?_⟩
    rw [heq]
    exact
      { idle := fun hidle => absurd hidle (phase_observe_ne_idle hadm)
        discovered_iff := fun _ url =>
          (hr.discovered_iff url).trans (SliceMap.containsKey_desired _ url)
        listing := hlisting
        synced := hsynced }

/-- Once a listing is complete, discovery is in step with the live slices. -/
theorem Kept.inStep (h : w.Kept config) (hsynced : w.view.phase = .synced) : w.InStep where
  registrations := h.roster.toRegistrations
  discovered_iff url := by
    have hlists := h.heard.discovered_iff (by rw [hsynced]; decide) url
    simpa only [h.heard.synced hsynced] using hlists
  idle hidle := nomatch hsynced.symm.trans hidle
  lists_iff _ := h.heard.synced hsynced
  relisted hlisting := nomatch hsynced.symm.trans hlisting

/-- Without declared workers, discovery in step with the live slices is all there is. -/
theorem InStep.replaced (h : w.InStep)
    (hroster : Roster [] w.server.shared.registry w.server.discovered) : w.Replaced where
  urls_iff url := by
    rw [hroster.mem_urls_iff, ← h.discovered_iff]
    simp
  nodup := hroster.nodup_urls

/-- With a complete listing, a declared worker is one too many, whether it is advertised or not. -/
theorem Replaced.eq_nil (h : w.Replaced) (hstep : w.InStep)
    (hroster : Roster config.workers w.server.shared.registry w.server.discovered) :
    config.workers = [] := by
  apply List.eq_nil_iff_forall_not_mem.mpr
  intro declared hmem
  have hurl := (hroster.mem_urls_iff declared.url).mpr (Or.inl ⟨declared, hmem, rfl⟩)
  obtain ⟨id, hid⟩ := (hstep.discovered_iff declared.url).mpr ((h.urls_iff _).mp hurl)
  exact hroster.not_nodup_urls hmem hid h.nodup

/-- The start of a listing leaves no discovered worker registered. -/
theorem Heard.get_init (h : w.Heard) (hroster : Registrations w.server.shared.registry
    w.server.discovered) (hsend : w.view.CanSend .init) (order : IterOrder String) (url : String) :
    (w.step hasher fl router (.event order .init)).server.discovered.byUrl.get url = none := by
  obtain ⟨result, s', hr, heq⟩ := step_event hasher fl router hroster order .init
  rw [heq]
  apply Option.eq_none_iff_forall_ne_some.mpr
  intro id hid
  obtain ⟨name, urls, hget, -⟩ :=
    (SliceMap.containsKey_desired _ _).mp ((hr.discovered_iff url).mp ⟨id, hid⟩)
  rw [SliceMap.update, h.idle hsend] at hget
  cases hget

end Watch

section Runs

variable (hasher : Option UInt64 → List Char → UInt64) (fl : F64.Rounding) (router : Router)
  (config : RouterConfig) (run : List WatchStep)

/-- From the first complete listing on, the registered URLs are at every point of the run exactly
those that live slices list, each registered once. -/
def ReplacesStatic : Prop :=
  ∀ past next, run = past ++ next → Watch.Listed past →
    (past.foldl (Watch.step hasher fl router) (.new config)).Replaced

/-- The condition: no worker is declared, and no listing after the first complete one starts
while a worker is discovered. -/
structure OnlyDiscovered : Prop where
  /-- The static list is empty, unless no listing is ever completed. -/
  static : Watch.Listed run → config.workers = []
  /-- Later listings start with nothing discovered. -/
  init : ∀ past order next, run = past ++ .event order .init :: next → Watch.Listed past → ∀ url,
    (past.foldl (Watch.step hasher fl router) (.new config)).server.discovered.byUrl.get url = none

variable {hasher fl router config run}

theorem Watch.listed_append_singleton {past : List WatchStep} {a : WatchStep} :
    Listed (past ++ [a]) ↔ Listed past ∨ ∃ order, a = .event order .initDone := by
  simp only [Listed, List.mem_append, List.mem_singleton, exists_or]
  exact or_congr_right (exists_congr fun order => eq_comm)

/-- At every point of an admissible run. -/
theorem Watch.kept_at (hrun : Runs.Along (Watch.step hasher fl router) Admissible (.new config) run)
    {past next : List WatchStep} (hsplit : run = past ++ next) :
    (past.foldl (Watch.step hasher fl router) (.new config)).Kept config := by
  subst hsplit
  have hpast := ((Runs.along_append _ past next).mp hrun).1
  exact hpast.foldl_inv (fun _ a h hadm => h.step a hadm) (kept_new config)

/-- Under the condition discovery stays in step with the live slices from the first complete
listing on: the listing puts it in step, and no later step takes it out of step. -/
theorem OnlyDiscovered.inStep (h : OnlyDiscovered hasher fl router config run)
    (hrun : Runs.Along (Watch.step hasher fl router) Watch.Admissible (.new config) run)
    (past next : List WatchStep) (hsplit : run = past ++ next) (hlisted : Watch.Listed past) :
    (past.foldl (Watch.step hasher fl router) (.new config)).InStep := by
  induction past using List.reverseRecOn generalizing next with
  | nil =>
    obtain ⟨order, hmem⟩ := hlisted
    exact absurd hmem List.not_mem_nil
  | append_singleton past a ih =>
    have hsplit' : run = past ++ a :: next := by rw [hsplit, List.append_assoc]; rfl
    have hrun' := hrun
    rw [hsplit'] at hrun'
    have hadm := hrun'.at_step
    rcases Watch.listed_append_singleton.mp hlisted with hbefore | ⟨order, rfl⟩
    · rw [List.foldl_append]
      refine (ih (a :: next) hsplit' hbefore).step a hadm ?_
      cases a with
      | op op => trivial
      | session => trivial
      | event order event =>
        cases event with
        | init => exact h.init past order next hsplit' hbefore
        | initApply slice => trivial
        | initDone => trivial
        | apply slice => trivial
        | delete slice => trivial
    · refine (Watch.kept_at hrun hsplit).inStep ?_
      rw [List.foldl_append]
      rfl

end Runs

/-- **When the discovered set replaces the static one.**  In every run of discovery from a freshly
built server, over any number of sessions, with any static list and with anything else going on
in between: from the first complete listing on, the URLs of all registered workers are exactly
the advertised ones, each registered once, exactly if no worker is declared and no later listing
starts while a worker is discovered.

**Proof sketch.** The registry always holds the declared workers next to the discovered ones
(`Roster`), and a complete listing puts the discovered URLs in step with the live slices
(`Watch.Kept.inStep`).  So a declared worker is either not advertised or registered twice.
Without one, the registered URLs are the discovered ones; they stay in step until a listing
starts, which drops them all while it says nothing about any slice. -/
theorem discovery_replaces_static_iff (hasher : Option UInt64 → List Char → UInt64)
    (fl : F64.Rounding) (router : Router) (config : RouterConfig) (run : List WatchStep)
    (hrun : Runs.Along (Watch.step hasher fl router) Watch.Admissible (.new config) run) :
    ReplacesStatic hasher fl router config run ↔ OnlyDiscovered hasher fl router config run := by
  constructor
  · intro h
    have hstatic : Watch.Listed run → config.workers = [] := by
      rintro ⟨order, hmem⟩
      obtain ⟨past, next, hsplit⟩ := List.append_of_mem hmem
      have hsplit' : run = (past ++ [.event order .initDone]) ++ next := by simp [hsplit]
      have hlisted : Watch.Listed (past ++ [.event order .initDone]) :=
        Watch.listed_append_singleton.mpr (.inr ⟨order, rfl⟩)
      have hkept := Watch.kept_at hrun hsplit'
      refine (h _ _ hsplit' hlisted).eq_nil (hkept.inStep ?_) hkept.roster
      rw [List.foldl_append]
      rfl
    refine { static := hstatic, init := ?init }
    case init =>
      intro past order next hsplit hlisted url
      have hnil : config.workers = [] := by
        obtain ⟨order', hmem⟩ := hlisted
        exact hstatic ⟨order', by rw [hsplit]; exact List.mem_append_left _ hmem⟩
      have hsplit' : run = (past ++ [.event order .init]) ++ next := by simp [hsplit]
      have hbefore := h past _ hsplit hlisted
      have hafter := h _ _ hsplit' (Watch.listed_append_singleton.mpr (.inl hlisted))
      have hkept := Watch.kept_at hrun hsplit
      have hkept' := Watch.kept_at hrun hsplit'
      have hsend : (past.foldl (Watch.step hasher fl router) (.new config)).view.CanSend .init := by
        have hrun' := hrun
        rw [hsplit] at hrun'
        exact hrun'.at_step
      rw [List.foldl_append] at hafter hkept'
      -- the listing leaves nothing registered, so nothing is live, so nothing was registered
      apply Option.eq_none_iff_forall_ne_some.mpr
      intro id hid
      have hlive := (hbefore.urls_iff url).mp ((hkept.roster.mem_urls_iff url).mpr (.inr ⟨id, hid⟩))
      rcases (hkept'.roster.mem_urls_iff url).mp ((hafter.urls_iff url).mpr hlive) with
        ⟨declared, hmem, -⟩ | ⟨id', hid'⟩
      · rw [hnil] at hmem
        exact List.not_mem_nil hmem
      · have hnone := @Watch.Heard.get_init hasher fl router _ hkept.heard
          hkept.roster.toRegistrations hsend order url
        exact nomatch hnone.symm.trans hid'
  · intro h past next hsplit hlisted
    have hnil : config.workers = [] := by
      obtain ⟨order, hmem⟩ := hlisted
      exact h.static ⟨order, by rw [hsplit]; exact List.mem_append_left _ hmem⟩
    have hroster := (Watch.kept_at hrun hsplit).roster
    rw [hnil] at hroster
    exact (h.inStep hrun past next hsplit hlisted).replaced hroster

/-- A later event: the slice is applied again as it was. -/
def listedAgain : List WatchStep := firstListing ++ [.event .held (.apply workersSlice)]

/-- Discovery without static workers. -/
def noStaticWorkers : RouterConfig :=
  { workers := [], routingPolicy := .roundRobin, discovery := ⟨true⟩ }

/-- Without static workers the one advertised URL is the one registered URL. -/
theorem discovery_replaces_static_iff_no_static_workers :
    ReplacesStatic defaultHasher .exact (.new noStaticWorkers) noStaticWorkers listedAgain := by
  refine (discovery_replaces_static_iff defaultHasher .exact (.new noStaticWorkers) noStaticWorkers
    listedAgain ⟨rfl, ⟨rfl, List.not_mem_nil⟩, rfl, rfl, trivial⟩).mpr
      { static := fun _ => rfl, init := ?init }
  case init =>
    rintro past order next hsplit ⟨order', hmem⟩
    cases past with
    | nil => exact absurd hmem List.not_mem_nil
    | cons a past =>
      -- only the first step starts a listing
      have htail : listedAgain.tail = past ++ .event order .init :: next :=
        congrArg List.tail hsplit
      have hinit : WatchStep.event order .init ∈ listedAgain.tail := by simp [htail]
      simp [listedAgain, firstListing] at hinit

/-- Discovery with two static workers, one of which is also advertised. -/
def twoStaticWorkers : RouterConfig :=
  { workers := [⟨"http://a:8001", .both⟩, ⟨"http://10.0.0.1:8001", .both⟩]
    routingPolicy := .roundRobin
    discovery := ⟨true⟩ }

/-- The listing is complete and the slice is applied again: the static worker that is not
advertised is still registered, and the other one is registered twice. -/
theorem discovery_keeps_static :
    let w := listedAgain.foldl (Watch.step defaultHasher .exact (.new twoStaticWorkers))
      (.new twoStaticWorkers)
    Runs.Along (Watch.step defaultHasher .exact (.new twoStaticWorkers)) Watch.Admissible
        (.new twoStaticWorkers) listedAgain ∧
      (∃ name, w.view.live.Lists name "http://10.0.0.1:8001") ∧
      (¬∃ name, w.view.live.Lists name "http://a:8001") ∧
      w.server.shared.registry.urls =
        ["http://a:8001", "http://10.0.0.1:8001", "http://10.0.0.1:8001"] ∧
      ¬ReplacesStatic defaultHasher .exact (.new twoStaticWorkers) twoStaticWorkers
        listedAgain := by
  intro w
  have hurls : w.server.shared.registry.urls =
      ["http://a:8001", "http://10.0.0.1:8001", "http://10.0.0.1:8001"] := by decide +kernel
  have hdesired : w.view.live.desired.containsKey "http://a:8001" = false := by decide +kernel
  refine ⟨⟨rfl, ⟨rfl, List.not_mem_nil⟩, rfl, rfl, trivial⟩,
    ⟨"workers-1", endpointUrls workersSlice, by rfl, by decide +kernel⟩, ?_, hurls, fun h => ?_⟩
  · rw [← SliceMap.containsKey_desired, hdesired]
    exact Bool.false_ne_true
  · have hnodup := (h listedAgain [] rfl ⟨.held, by simp [listedAgain, firstListing]⟩).nodup
    rw [show (listedAgain.foldl (Watch.step defaultHasher .exact (.new twoStaticWorkers))
      (.new twoStaticWorkers)).server.shared.registry.urls = _ from hurls] at hnodup
    exact absurd hnodup (by decide)

end KvRoute
