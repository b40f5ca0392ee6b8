import KvRoute.Core.Router

set_option relaxedAutoImplicit false
set_option autoImplicit false

/-!
# Worker discovery

Discovery (`crates/router-server/src/discovery.rs`) turns the EndpointSlices behind a service
into worker registrations: each watch event updates a map from slice names to the URLs they
advertise, and the registry and the prefix index are reconciled with the union of the map.

The task's own variables, the map of the session and the table of discovered workers, are
arguments and results of the programs; the registry, the index and the tracker are reached
through the accesses of `KvRoute.Program`.  Sets and maps are iterated in the order given by an
`IterOrder`.

## Main definitions

* `KvRoute.EndpointSlice`, `endpointUrls` — the URLs of a slice's ready endpoints.
* `KvRoute.DiscoveredWorkers`, `reconcile` — one reconciliation.
* `KvRoute.WatchEvent`, `handleEvent` — one turn of the loop of `watch_once`.
* `KvRoute.Registrations` — every discovered URL is registered under its id.
* `KvRoute.Reconciled` — what a reconciliation does.

## Main results

* `KvRoute.reconciled_reconcile` — `reconcile`, run alone, does it.
-/

namespace KvRoute

/-- A set of URLs. -/
abbrev UrlSet := HashTable String Unit

namespace UrlSet

/-- Collect URLs into a set. -/
def ofList (urls : List String) : UrlSet := urls.foldl (fun set url => set.insert url ()) .empty

private theorem get_foldl_insert (urls : List String) (set : UrlSet) (url : String) :
    (urls.foldl (fun set url => set.insert url ()) set).get url =
      if url ∈ urls then some () else set.get url := by
  induction urls generalizing set with
  | nil => simp
  | cons u urls ih =>
    rw [List.foldl_cons, ih, HashTable.get_insert]
    by_cases hmem : url ∈ urls
    · simp [hmem]
    · by_cases hu : url = u
      · simp [hu]
      · simp [hmem, hu]

theorem containsKey_ofList (urls : List String) (url : String) :
    (ofList urls).containsKey url = true ↔ url ∈ urls := by
  rw [HashTable.containsKey, ofList, get_foldl_insert]
  split_ifs with h <;> simp [h]

theorem mem_keys (set : UrlSet) (url : String) :
    url ∈ set.keys ↔ set.containsKey url = true := by
  rw [HashTable.mem_keys, HashTable.containsKey_iff]

end UrlSet

/-! ## Slices -/

/-- The readiness of an endpoint. -/
structure EndpointConditions where
  /-- Whether the endpoint is ready, if the slice says so. -/
  ready : Option Bool
deriving DecidableEq, Repr

/-- One endpoint of a slice. -/
structure Endpoint where
  /-- The endpoint's addresses. -/
  addresses : List String
  /-- The endpoint's conditions, if the slice has any. -/
  conditions : Option EndpointConditions
deriving DecidableEq, Repr

/-- An EndpointSlice, as far as discovery reads it. -/
structure EndpointSlice where
  /-- The slice's name. -/
  nameAny : String
  /-- The port numbers, if the slice has ports; an entry need not have a number. -/
  ports : Option (List (Option ℤ))
  /-- The endpoints. -/
  endpoints : List Endpoint
deriving DecidableEq, Repr

/-- Whether an endpoint is ready: endpoints without conditions are. -/
def endpointIsReady (endpoint : Endpoint) : Bool :=
  endpoint.conditions.all fun conditions => conditions.ready.getD false

/-- The port of a slice: that of the first entry, or the default. -/
def slicePort (slice : EndpointSlice) : ℤ :=
  ((slice.ports.bind List.head?).bind id).getD 8001

/-- Worker URLs advertised by one slice, ready addresses only. -/
def endpointUrls (slice : EndpointSlice) : UrlSet :=
  let port := slicePort slice
  .ofList ((slice.endpoints.filter endpointIsReady).flatMap fun endpoint =>
    endpoint.addresses.map fun address => s!"http://{address}:{port}")

/-! ## Reconciliation -/

/-- Worker registrations owned by discovery, keyed by URL. -/
structure DiscoveredWorkers where
  /-- The ids of the registered URLs. -/
  byUrl : HashTable String WorkerId

/-- No registrations. -/
def DiscoveredWorkers.default : DiscoveredWorkers := ⟨.empty⟩

/-- The first loop of `reconcile`: drop URLs that are no longer wanted. -/
def dropGone : List String → DiscoveredWorkers → Program DiscoveredWorkers
  | [], discovered => pure discovered
  | url :: gone, discovered =>
    match discovered.byUrl.get url with
    | some id => do
      Program.removeWorker id
      Program.unregister id
      dropGone gone ⟨discovered.byUrl.remove url⟩
    | none => dropGone gone discovered

/-- The second loop of `reconcile`: register URLs that are new, and count them. -/
def addNew : List String → DiscoveredWorkers → ℕ → Program (DiscoveredWorkers × ℕ)
  | [], discovered, added => pure (discovered, added)
  | url :: desired, discovered, added =>
    if discovered.byUrl.containsKey url then addNew desired discovered added
    else do
      let id ← Program.registerWorker url .both
      addNew desired ⟨discovered.byUrl.insert url id⟩ (added + 1)

/-- What a reconciliation returns. -/
structure ReconcileResult where
  /-- The registrations afterwards. -/
  discovered : DiscoveredWorkers
  /-- How many URLs were dropped. -/
  removed : ℕ
  /-- How many URLs were registered. -/
  added : ℕ

/-- The discovered URLs that are no longer wanted. -/
def goneUrls (discovered : DiscoveredWorkers) (desired : UrlSet) : List String :=
  discovered.byUrl.keys.filter fun url => !desired.containsKey url

/-- Reconcile the registry and prefix index against the desired worker set. -/
def reconcile (order : IterOrder String) (discovered : DiscoveredWorkers) (desired : UrlSet) :
    Program ReconcileResult := do
  let gone := order.arrange (goneUrls discovered desired)
  let kept ← dropGone gone discovered
  let result ← addNew (order.arrange desired.keys) kept 0
  pure ⟨result.1, gone.length, result.2⟩

/-! ## The watch -/

/-- An event of the watcher's stream. -/
inductive WatchEvent where
  /-- The stream starts a listing. -/
  | init
  /-- A slice of the listing. -/
  | initApply (slice : EndpointSlice)
  /-- The listing is complete. -/
  | initDone
  /-- A slice was created or changed. -/
  | apply (slice : EndpointSlice)
  /-- A slice was deleted. -/
  | delete (slice : EndpointSlice)
deriving DecidableEq, Repr

/-- The URLs of the slices known in a session, by slice name. -/
abbrev SliceMap := HashTable String UrlSet

/-- What an event does to the slices known in the session. -/
def SliceMap.update (slices : SliceMap) : WatchEvent → SliceMap
  | .initApply slice | .apply slice => slices.insert slice.nameAny (endpointUrls slice)
  | .delete slice => slices.remove slice.nameAny
  | .init | .initDone => slices

/-- The union of the known slices. -/
def SliceMap.desired (slices : SliceMap) : UrlSet :=
  .ofList (slices.toList.flatMap fun entry => entry.2.keys)

/-- The room for newly discovered ids that `watch_once` leaves in the in-flight tracker. -/
def trackerHeadroom : ℕ := 16

/-- One turn of the loop of `watch_once`. -/
def handleEvent (order : IterOrder String) (slices : SliceMap) (discovered : DiscoveredWorkers)
    (event : WatchEvent) : Program (SliceMap × DiscoveredWorkers) := do
  let slices := slices.update event
  let result ← reconcile order discovered slices.desired
  if result.removed + result.added > 0 then
    Program.ensureCapacity (result.discovered.byUrl.len + trackerHeadroom)
  pure (slices, result.discovered)

/-! ## Registrations -/

/-- The registry is well formed, and every discovered URL is registered under its id, as a
worker for both phases. -/
structure Registrations (registry : WorkerRegistry) (discovered : DiscoveredWorkers) : Prop where
  /-- The registry is well formed. -/
  wellFormed : registry.WellFormed
  /-- Discovered workers are registered. -/
  registered : ∀ url id, discovered.byUrl.get url = some id →
    ∃ healthy, registry.workers.get id = some ⟨⟨id, url, .both⟩, healthy⟩

/-- Different URLs have different ids. -/
theorem Registrations.injective {registry : WorkerRegistry} {discovered : DiscoveredWorkers}
    (h : Registrations registry discovered) {url url' : String} {id : WorkerId}
    (hurl : discovered.byUrl.get url = some id) (hurl' : discovered.byUrl.get url' = some id) :
    url = url' := by
  obtain ⟨healthy, hget⟩ := h.registered url id hurl
  obtain ⟨healthy', hget'⟩ := h.registered url' id hurl'
  have heq := Option.some.inj (hget.symm.trans hget')
  exact congrArg (fun state => state.worker.url) heq

/-- Discovered ids have been allocated. -/
theorem Registrations.id_lt {registry : WorkerRegistry} {discovered : DiscoveredWorkers}
    (h : Registrations registry discovered) {url : String} {id : WorkerId}
    (hurl : discovered.byUrl.get url = some id) : id < registry.nextId := by
  obtain ⟨healthy, hget⟩ := h.registered url id hurl
  exact h.wellFormed.id_lt hget

/-- Dropping one discovered URL, from the registrations and from the registry. -/
theorem Registrations.drop {registry : WorkerRegistry} {discovered : DiscoveredWorkers}
    (h : Registrations registry discovered) {url : String} {id : WorkerId}
    (hurl : discovered.byUrl.get url = some id) :
    Registrations (registry.removeWorker id).1 ⟨discovered.byUrl.remove url⟩ where
  wellFormed := h.wellFormed.removeWorker id
  registered u i hu := by
    rw [HashTable.get_remove] at hu
    split_ifs at hu with heq
    obtain ⟨healthy, hget⟩ := h.registered u i hu
    have hne : i ≠ id := fun hi => heq (h.injective hu (hi ▸ hurl))
    exact ⟨healthy, by rw [WorkerRegistry.get_removeWorker, if_neg hne, hget]⟩

/-- Registering one new URL. -/
theorem Registrations.add {registry : WorkerRegistry} {discovered : DiscoveredWorkers}
    (h : Registrations registry discovered) (url : String) :
    Registrations (registry.registerWorker url .both).1
      ⟨discovered.byUrl.insert url registry.nextId⟩ where
  wellFormed := h.wellFormed.registerWorker url .both
  registered u i hu := by
    rw [HashTable.get_insert] at hu
    rw [WorkerRegistry.get_registerWorker]
    split_ifs at hu with heq
    · obtain rfl := Option.some.inj hu
      exact ⟨false, by rw [if_pos rfl, heq]⟩
    · obtain ⟨healthy, hget⟩ := h.registered u i hu
      exact ⟨healthy, by rw [if_neg (h.id_lt hu).ne, hget]⟩

/-! ## Reconciliation, run alone -/

section Alone

theorem alone_dropGone_nil (discovered : DiscoveredWorkers) (s : Shared) :
    (dropGone [] discovered).alone s = (s, discovered) := rfl

theorem alone_dropGone_of_some {discovered : DiscoveredWorkers} {url : String} {id : WorkerId}
    (h : discovered.byUrl.get url = some id) (gone : List String) (s : Shared) :
    (dropGone (url :: gone) discovered).alone s =
      (dropGone gone ⟨discovered.byUrl.remove url⟩).alone
        { s with prefixIndex := s.prefixIndex.removeWorker id,
                 registry := (s.registry.removeWorker id).1 } := by
  rw [dropGone, h]
  dsimp only
  rw [Thread.alone_bind, Program.alone_removeWorker]
  rfl

theorem alone_dropGone_of_none {discovered : DiscoveredWorkers} {url : String}
    (h : discovered.byUrl.get url = none) (gone : List String) (s : Shared) :
    (dropGone (url :: gone) discovered).alone s = (dropGone gone discovered).alone s := by
  rw [dropGone, h]

theorem alone_addNew_nil (discovered : DiscoveredWorkers) (added : ℕ) (s : Shared) :
    (addNew [] discovered added).alone s = (s, discovered, added) := rfl

theorem alone_addNew_of_mem {discovered : DiscoveredWorkers} {url : String}
    (h : discovered.byUrl.containsKey url = true) (desired : List String) (added : ℕ)
    (s : Shared) :
    (addNew (url :: desired) discovered added).alone s =
      (addNew desired discovered added).alone s := by
  rw [addNew, if_pos h]

theorem alone_addNew_of_not_mem {discovered : DiscoveredWorkers} {url : String}
    (h : ¬discovered.byUrl.containsKey url = true) (desired : List String) (added : ℕ)
    (s : Shared) :
    (addNew (url :: desired) discovered added).alone s =
      (addNew desired ⟨discovered.byUrl.insert url s.registry.nextId⟩ (added + 1)).alone
        { s with registry := (s.registry.registerWorker url .both).1 } := by
  rw [addNew, if_neg h, Thread.alone_bind, Program.alone_registerWorker]
  rfl

/-- What dropping URLs does: the dropped workers are unregistered and purged, and everybody else
stays registered and listed as before. -/
structure Dropped (gone : List String) (discovered : DiscoveredWorkers) (s : Shared)
    (discovered' : DiscoveredWorkers) (s' : Shared) : Prop where
  /-- The dropped URLs are gone. -/
  get_eq : ∀ url, discovered'.byUrl.get url =
    if url ∈ gone then none else discovered.byUrl.get url
  /-- The remaining registrations are in order. -/
  registrations : Registrations s'.registry discovered'
  /-- Other workers stay registered as they were. -/
  workers_eq : ∀ i, (∀ url ∈ gone, discovered.byUrl.get url ≠ some i) →
    s'.registry.workers.get i = s.registry.workers.get i
  /-- Other workers stay listed as they were. -/
  belief_eq : ∀ i, (∀ url ∈ gone, discovered.byUrl.get url ≠ some i) →
    ∀ h, s'.prefixIndex.belief i h = s.prefixIndex.belief i h
  /-- Dropped workers are unregistered. -/
  unregistered : ∀ url ∈ gone, ∀ i, discovered.byUrl.get url = some i →
    s'.registry.workers.get i = none
  /-- Dropped workers are listed nowhere. -/
  purged : ∀ url ∈ gone, ∀ i, discovered.byUrl.get url = some i →
    ∀ h, s'.prefixIndex.belief i h = none
  /-- No id is allocated. -/
  nextId_eq : s'.registry.nextId = s.registry.nextId
  /-- The counters are the same. -/
  inflight_eq : s'.inflight = s.inflight

/-- A URL that is not discovered, or no longer, changes nothing. -/
theorem Dropped.cons_of_none {gone : List String} {discovered discovered' : DiscoveredWorkers}
    {s s' : Shared} {url : String} (hurl : discovered.byUrl.get url = none)
    (hd : Dropped gone discovered s discovered' s') :
    Dropped (url :: gone) discovered s discovered' s' := by
  have hgone : ∀ u ∈ url :: gone, ∀ i, discovered.byUrl.get u = some i → u ∈ gone := by
    intro u hu i hi
    rcases List.mem_cons.mp hu with rfl | hu
    · rw [hurl] at hi
      cases hi
    · exact hu
  refine
    { get_eq := ?get_eq
      registrations := hd.registrations
      workers_eq := ?workers_eq
      belief_eq := ?belief_eq
      unregistered := fun u hu i hi => hd.unregistered u (hgone u hu i hi) i hi
      purged := fun u hu i hi => hd.purged u (hgone u hu i hi) i hi
      nextId_eq := hd.nextId_eq
      inflight_eq := hd.inflight_eq }
  case get_eq =>
    intro u
    rw [hd.get_eq]
    by_cases hu : u = url
    · subst hu
      rw [hurl, ite_self, ite_self]
    · simp [hu]
  case workers_eq =>
    intro i hi
    apply hd.workers_eq
    intro u hu
    exact hi u (List.mem_cons_of_mem _ hu)
  case belief_eq =>
    intro i hi
    apply hd.belief_eq
    intro u hu
    exact hi u (List.mem_cons_of_mem _ hu)

/-- A discovered URL takes its id out of the index and the registry before the rest is dropped;
no other URL has that id. -/
theorem Dropped.cons_of_some {gone : List String} {discovered discovered' : DiscoveredWorkers}
    {s s' : Shared} {url : String} {id : WorkerId} (h : Registrations s.registry discovered)
    (hurl : discovered.byUrl.get url = some id)
    (hd : Dropped gone ⟨discovered.byUrl.remove url⟩
      { s with
        prefixIndex := s.prefixIndex.removeWorker id
        registry := (s.registry.removeWorker id).1 } discovered' s') :
    Dropped (url :: gone) discovered s discovered' s' := by
  have hget : ∀ u, (discovered.byUrl.remove url).get u =
      if u = url then none else discovered.byUrl.get u := HashTable.get_remove _ _
  have hother : ∀ u ∈ gone, (discovered.byUrl.remove url).get u ≠ some id := by
    intro u _ hu
    rw [hget] at hu
    split_ifs at hu with heq
    exact heq (h.injective hu hurl)
  have hrest : ∀ i, (∀ u ∈ url :: gone, discovered.byUrl.get u ≠ some i) →
      i ≠ id ∧ ∀ u ∈ gone, (discovered.byUrl.remove url).get u ≠ some i := by
    intro i hi
    constructor
    · intro heq
      exact hi url List.mem_cons_self (heq ▸ hurl)
    · intro u hu hui
      rw [hget] at hui
      split_ifs at hui
      exact hi u (List.mem_cons_of_mem _ hu) hui
  refine
    { get_eq := ?get_eq
      registrations := hd.registrations
      workers_eq := ?workers_eq
      belief_eq := ?belief_eq
      unregistered := ?unregistered
      purged := ?purged
      nextId_eq := hd.nextId_eq
      inflight_eq := hd.inflight_eq }
  case get_eq =>
    intro u
    rw [hd.get_eq, hget]
    by_cases hu : u = url
    · simp [hu]
    · simp [hu]
  case workers_eq =>
    intro i hi
    obtain ⟨hne, hi⟩ := hrest i hi
    rw [hd.workers_eq i hi, WorkerRegistry.get_removeWorker, if_neg hne]
  case belief_eq =>
    intro i hi b
    obtain ⟨hne, hi⟩ := hrest i hi
    rw [hd.belief_eq i hi, PrefixIndex.belief_removeWorker, if_neg hne]
  case unregistered =>
    intro u hu i hi
    by_cases heq : u = url
    · obtain rfl := Option.some.inj ((heq ▸ hi).symm.trans hurl)
      rw [hd.workers_eq i hother, WorkerRegistry.get_removeWorker, if_pos rfl]
    · refine hd.unregistered u ((List.mem_cons.mp hu).resolve_left heq) i ?_
      rw [hget, if_neg heq, hi]
  case purged =>
    intro u hu i hi b
    by_cases heq : u = url
    · obtain rfl := Option.some.inj ((heq ▸ hi).symm.trans hurl)
      rw [hd.belief_eq i hother, PrefixIndex.belief_removeWorker, if_pos rfl]
    · refine hd.purged u ((List.mem_cons.mp hu).resolve_left heq) i ?_ b
      rw [hget, if_neg heq, hi]

/-- **The first loop.** -/
theorem dropped_dropGone (gone : List String) (discovered : DiscoveredWorkers) (s : Shared)
    (h : Registrations s.registry discovered) :
    Dropped gone discovered s ((dropGone gone discovered).alone s).2
      ((dropGone gone discovered).alone s).1 := by
  induction gone generalizing discovered s with
  | nil =>
    rw [alone_dropGone_nil]
    exact ⟨by simp, h, fun _ _ => rfl, fun _ _ _ => rfl, by simp, by simp, rfl, rfl⟩
  | cons url gone ih =>
    cases hurl : discovered.byUrl.get url with
    | none =>
      rw [alone_dropGone_of_none hurl]
      exact (ih discovered s h).cons_of_none hurl
    | some id =>
      rw [alone_dropGone_of_some hurl]
      exact (ih _ _ (h.drop hurl)).cons_of_some h hurl

/-- What registering URLs does: the new ones get fresh ids and start down, and everything else
stays. -/
structure Added (desired : List String) (discovered : DiscoveredWorkers) (s : Shared)
    (discovered' : DiscoveredWorkers) (added : ℕ) (s' : Shared) : Prop where
  /-- Discovered URLs keep their ids. -/
  kept : ∀ url id, discovered.byUrl.get url = some id → discovered'.byUrl.get url = some id
  /-- Exactly the wanted URLs join them. -/
  discovered_iff : ∀ url, (∃ id, discovered'.byUrl.get url = some id) ↔
    (∃ id, discovered.byUrl.get url = some id) ∨ url ∈ desired
  /-- The registrations are in order. -/
  registrations : Registrations s'.registry discovered'
  /-- Ids allocated before stay registered as they were. -/
  workers_eq : ∀ i < s.registry.nextId, s'.registry.workers.get i = s.registry.workers.get i
  /-- Newly allocated ids are registered and down. -/
  fresh : ∀ i, s.registry.nextId ≤ i → i < s'.registry.nextId →
    ∃ url, s'.registry.workers.get i = some ⟨⟨i, url, .both⟩, false⟩
  /-- One id is allocated for each new URL. -/
  nextId_eq : s'.registry.nextId = s.registry.nextId + added
  /-- The new URLs are counted. -/
  added_eq : desired.Nodup →
    added = (desired.filter fun url => !discovered.byUrl.containsKey url).length
  /-- The index is the same. -/
  prefixIndex_eq : s'.prefixIndex = s.prefixIndex
  /-- The counters are the same. -/
  inflight_eq : s'.inflight = s.inflight

/-- The counter of the second loop only counts up. -/
theorem alone_addNew_added (desired : List String) (discovered : DiscoveredWorkers) (added : ℕ)
    (s : Shared) : (addNew desired discovered added).alone s =
      (((addNew desired discovered 0).alone s).1, ((addNew desired discovered 0).alone s).2.1,
        added + ((addNew desired discovered 0).alone s).2.2) := by
  induction desired generalizing discovered added s with
  | nil => rfl
  | cons url desired ih =>
    by_cases hurl : discovered.byUrl.containsKey url = true
    · rw [alone_addNew_of_mem hurl, alone_addNew_of_mem hurl, ih]
    · rw [alone_addNew_of_not_mem hurl, alone_addNew_of_not_mem hurl, ih, ih _ (0 + 1)]
      simp [Nat.add_assoc]

/-- A URL that is discovered already changes nothing. -/
theorem Added.cons_of_mem {desired : List String} {discovered discovered' : DiscoveredWorkers}
    {s s' : Shared} {added : ℕ} {url : String} (hurl : discovered.byUrl.containsKey url = true)
    (ha : Added desired discovered s discovered' added s') :
    Added (url :: desired) discovered s discovered' added s' := by
  refine
    { kept := ha.kept
      discovered_iff := ?discovered_iff
      registrations := ha.registrations
      workers_eq := ha.workers_eq
      fresh := ha.fresh
      nextId_eq := ha.nextId_eq
      added_eq := ?added_eq
      prefixIndex_eq := ha.prefixIndex_eq
      inflight_eq := ha.inflight_eq }
  case discovered_iff =>
    intro u
    rw [ha.discovered_iff, List.mem_cons]
    constructor
    · intro hor
      exact hor.imp_right Or.inr
    · rintro (hsome | rfl | hmem)
      · exact Or.inl hsome
      · exact Or.inl ((HashTable.containsKey_iff _ _).mp hurl)
      · exact Or.inr hmem
  case added_eq =>
    intro hnodup
    rw [ha.added_eq (List.nodup_cons.mp hnodup).2, List.filter_cons_of_neg (by simp [hurl])]

/-- A new URL is entered under the next id, which no URL has, before the rest is registered. -/
theorem Added.cons_of_not_mem {desired : List String}
    {discovered discovered' : DiscoveredWorkers} {s s' : Shared} {added : ℕ} {url : String}
    (hurl : ¬discovered.byUrl.containsKey url = true)
    (ha : Added desired ⟨discovered.byUrl.insert url s.registry.nextId⟩
      { s with registry := (s.registry.registerWorker url .both).1 } discovered' added s') :
    Added (url :: desired) discovered s discovered' (1 + added) s' := by
  have hnext : (s.registry.registerWorker url .both).1.nextId = s.registry.nextId + 1 := rfl
  have hget : ∀ u, (discovered.byUrl.insert url s.registry.nextId).get u =
      if u = url then some s.registry.nextId else discovered.byUrl.get u :=
    fun _ => HashTable.get_insert _ _ _ _
  have hnone : discovered.byUrl.get url = none := by
    rwa [HashTable.containsKey, Option.not_isSome_iff_eq_none] at hurl
  have hworkers := s.registry.get_registerWorker url .both
  refine
    { kept := ?kept
      discovered_iff := ?discovered_iff
      registrations := ha.registrations
      workers_eq := ?workers_eq
      fresh := ?fresh
      nextId_eq := by rw [ha.nextId_eq, hnext, Nat.add_assoc]
      added_eq := ?added_eq
      prefixIndex_eq := ha.prefixIndex_eq
      inflight_eq := ha.inflight_eq }
  case kept =>
    intro u i hu
    have hne : u ≠ url := by
      rintro rfl
      rw [hnone] at hu
      cases hu
    apply ha.kept
    rw [hget, if_neg hne, hu]
  case discovered_iff =>
    intro u
    rw [ha.discovered_iff, List.mem_cons, hget]
    by_cases hu : u = url
    · simp [hu]
    · simp [hu]
  case workers_eq =>
    intro i hi
    rw [ha.workers_eq i (hnext ▸ Nat.lt_succ_of_lt hi), hworkers, if_neg (ne_of_lt hi)]
  case fresh =>
    intro i hi hi'
    by_cases heq : i = s.registry.nextId
    · have hlt : i < (s.registry.registerWorker url .both).1.nextId := by
        rw [hnext, heq]
        exact Nat.lt_succ_self _
      exact ⟨url, by rw [ha.workers_eq i hlt, hworkers, if_pos heq, heq]⟩
    · have hle : (s.registry.registerWorker url .both).1.nextId ≤ i := by
        rw [hnext]
        exact Nat.lt_of_le_of_ne hi (Ne.symm heq)
      exact ha.fresh i hle hi'
  case added_eq =>
    intro hnodup
    obtain ⟨hnot, hnodup⟩ := List.nodup_cons.mp hnodup
    rw [ha.added_eq hnodup, List.filter_cons_of_pos (by simp [hurl]), List.length_cons,
      Nat.add_comm]
    refine congrArg (fun l => List.length l + 1) (List.filter_congr fun u hu => ?_)
    have hne : u ≠ url := fun heq => hnot (heq ▸ hu)
    rw [HashTable.containsKey, HashTable.containsKey, hget, if_neg hne]

/-- **The second loop.** -/
theorem added_addNew (desired : List String) (discovered : DiscoveredWorkers) (s : Shared)
    (h : Registrations s.registry discovered) :
    Added desired discovered s ((addNew desired discovered 0).alone s).2.1
      ((addNew desired discovered 0).alone s).2.2 ((addNew desired discovered 0).alone s).1 := by
  induction desired generalizing discovered s with
  | nil =>
    rw [alone_addNew_nil]
    exact ⟨fun _ _ h => h, by simp, h, fun _ _ => rfl, fun i hi hi' => absurd hi' (not_lt.mpr hi),
      rfl, fun _ => rfl, rfl, rfl⟩
  | cons url desired ih =>
    by_cases hurl : discovered.byUrl.containsKey url = true
    · rw [alone_addNew_of_mem hurl]
      exact (ih discovered s h).cons_of_mem hurl
    · rw [alone_addNew_of_not_mem hurl, alone_addNew_added]
      exact (ih _ _ (h.add url)).cons_of_not_mem hurl

/-- What a reconciliation with the wanted set `desired` does. -/
structure Reconciled (discovered : DiscoveredWorkers) (desired : UrlSet) (s : Shared)
    (result : ReconcileResult) (s' : Shared) : Prop where
  /-- The discovered URLs are the wanted ones. -/
  discovered_iff : ∀ url, (∃ id, result.discovered.byUrl.get url = some id) ↔
    desired.containsKey url = true
  /-- A wanted URL that was discovered keeps its id. -/
  kept : ∀ url id, desired.containsKey url = true → discovered.byUrl.get url = some id →
    result.discovered.byUrl.get url = some id
  /-- The registrations are in order. -/
  registrations : Registrations s'.registry result.discovered
  /-- Allocated ids that are not dropped stay registered as they were. -/
  workers_eq : ∀ i < s.registry.nextId, (∀ url, desired.containsKey url = false →
    discovered.byUrl.get url ≠ some i) →
      s'.registry.workers.get i = s.registry.workers.get i
  /-- Ids that are not dropped stay listed as they were. -/
  belief_eq : ∀ i, (∀ url, desired.containsKey url = false →
    discovered.byUrl.get url ≠ some i) →
      ∀ h, s'.prefixIndex.belief i h = s.prefixIndex.belief i h
  /-- Dropped workers are unregistered. -/
  unregistered : ∀ url i, desired.containsKey url = false →
    discovered.byUrl.get url = some i → s'.registry.workers.get i = none
  /-- Dropped workers are listed nowhere. -/
  purged : ∀ url i, desired.containsKey url = false → discovered.byUrl.get url = some i →
    ∀ h, s'.prefixIndex.belief i h = none
  /-- Newly allocated ids are registered and down. -/
  fresh : ∀ i, s.registry.nextId ≤ i → i < s'.registry.nextId →
    ∃ url, s'.registry.workers.get i = some ⟨⟨i, url, .both⟩, false⟩
  /-- One id is allocated for each new URL. -/
  nextId_eq : s'.registry.nextId = s.registry.nextId + result.added
  /-- The new URLs are counted. -/
  added_eq : result.added =
    (desired.keys.filter fun url => !discovered.byUrl.containsKey url).length
  /-- The dropped URLs are counted. -/
  removed_eq : result.removed = (goneUrls discovered desired).length
  /-- The counters are the same. -/
  inflight_eq : s'.inflight = s.inflight

theorem mem_goneUrls {discovered : DiscoveredWorkers} {desired : UrlSet} {url : String} :
    url ∈ goneUrls discovered desired ↔
      (∃ id, discovered.byUrl.get url = some id) ∧ desired.containsKey url = false := by
  rw [goneUrls, List.mem_filter, HashTable.mem_keys, Bool.not_eq_true']

/-- There are as many discovered URLs as wanted ones. -/
theorem Reconciled.len_eq {discovered : DiscoveredWorkers} {desired : UrlSet} {s s' : Shared}
    {result : ReconcileResult} (h : Reconciled discovered desired s result s') :
    result.discovered.byUrl.len = desired.len := by
  apply HashTable.len_eq_of_keys_iff
  intro url
  rw [h.discovered_iff, HashTable.containsKey_iff]

/-- The two loops of a reconciliation one after the other: first `gone`, the discovered URLs that
are no longer wanted, are dropped, then `wanted`, the wanted ones, are registered. -/
theorem Reconciled.of_loops {discovered kept discovered' : DiscoveredWorkers} {desired : UrlSet}
    {s s₁ s' : Shared} {gone wanted : List String} {added : ℕ}
    (h : Registrations s.registry discovered)
    (hgone : gone.Perm (goneUrls discovered desired)) (hwanted : wanted.Perm desired.keys)
    (hd : Dropped gone discovered s kept s₁) (ha : Added wanted kept s₁ discovered' added s') :
    Reconciled discovered desired s ⟨discovered', gone.length, added⟩ s' := by
  have hmem : ∀ url, url ∈ gone ↔
      (∃ id, discovered.byUrl.get url = some id) ∧ desired.containsKey url = false :=
    fun url => hgone.mem_iff.trans mem_goneUrls
  have hmem' : ∀ url, url ∈ wanted ↔ desired.containsKey url = true :=
    fun url => hwanted.mem_iff.trans (UrlSet.mem_keys _ _)
  -- what is wanted is not dropped
  have hget : ∀ url, desired.containsKey url = true →
      kept.byUrl.get url = discovered.byUrl.get url := by
    intro url hurl
    have hnotGone : url ∉ gone := fun hu => by
      rw [((hmem url).mp hu).2] at hurl
      cases hurl
    rw [hd.get_eq, if_neg hnotGone]
  have hnot : ∀ i, (∀ url, desired.containsKey url = false → discovered.byUrl.get url ≠ some i) →
      ∀ url ∈ gone, discovered.byUrl.get url ≠ some i :=
    fun i hi url hurl => hi url ((hmem url).mp hurl).2
  have hin : ∀ url i, desired.containsKey url = false → discovered.byUrl.get url = some i →
      url ∈ gone := fun url i hurl hi => (hmem url).mpr ⟨⟨i, hi⟩, hurl⟩
  refine
    { discovered_iff := ?discovered_iff
      kept := fun url id hurl hid => ha.kept url id (hget url hurl ▸ hid)
      registrations := ha.registrations
      workers_eq := ?workers_eq
      belief_eq := ?belief_eq
      unregistered := ?unregistered
      purged := ?purged
      fresh := fun i hi hi' => ha.fresh i (hd.nextId_eq ▸ hi) hi'
      nextId_eq := ha.nextId_eq.trans (by rw [hd.nextId_eq])
      added_eq := ?added_eq
      removed_eq := hgone.length_eq
      inflight_eq := ha.inflight_eq.trans hd.inflight_eq }
  case discovered_iff =>
    intro url
    rw [ha.discovered_iff, hmem']
    apply or_iff_right_of_imp
    rintro ⟨id, hid⟩
    rw [hd.get_eq] at hid
    split_ifs at hid with hu
    by_contra hurl
    exact hu (hin url id (by simpa using hurl) hid)
  case workers_eq =>
    intro i hi hkeep
    have hlt : i < s₁.registry.nextId := hd.nextId_eq ▸ hi
    exact (ha.workers_eq i hlt).trans (hd.workers_eq i (hnot i hkeep))
  case belief_eq =>
    intro i hkeep b
    rw [ha.prefixIndex_eq]
    exact hd.belief_eq i (hnot i hkeep) b
  case unregistered =>
    intro url i hurl hi
    have hlt : i < s₁.registry.nextId := hd.nextId_eq ▸ h.id_lt hi
    exact (ha.workers_eq i hlt).trans (hd.unregistered url (hin url i hurl hi) i hi)
  case purged =>
    intro url i hurl hi b
    rw [ha.prefixIndex_eq]
    exact hd.purged url (hin url i hurl hi) i hi b
  case added_eq =>
    have hnodup : wanted.Nodup := hwanted.nodup_iff.mpr desired.nodup_keys
    rw [ha.added_eq hnodup, (hwanted.filter _).length_eq]
    refine congrArg List.length (List.filter_congr fun url hurl => ?_)
    rw [HashTable.containsKey, HashTable.containsKey, hget url ((UrlSet.mem_keys _ _).mp hurl)]

/-- **Reconciliation, run alone**, does what it is for, whatever the iteration orders.

**Proof sketch.** The two loops one after the other: `dropped_dropGone` for the URLs that are no
longer wanted, then `added_addNew` for the wanted ones. -/
theorem reconciled_reconcile (order : IterOrder String) (discovered : DiscoveredWorkers)
    (desired : UrlSet) (s : Shared) (h : Registrations s.registry discovered) :
    Reconciled discovered desired s ((reconcile order discovered desired).alone s).2
      ((reconcile order discovered desired).alone s).1 := by
  rw [reconcile, Thread.alone_bind, Thread.alone_bind]
  have hd := dropped_dropGone (order.arrange (goneUrls discovered desired)) discovered s h
  have ha := added_addNew (order.arrange desired.keys) _ _ hd.registrations
  exact Reconciled.of_loops h (order.perm _) (order.perm _) hd ha

end Alone

end KvRoute
