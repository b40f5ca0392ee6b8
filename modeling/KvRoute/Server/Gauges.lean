import KvRoute.Server.Reuse

set_option relaxedAutoImplicit false
set_option autoImplicit false

/-!
# Gauges of the metrics endpoint

Before a scrape, `refresh_gauges` (`crates/router-server/src/metrics.rs`) goes through all
registered workers and sets two gauges for the URL of each: whether it is up, and its number of
requests in flight.  The exporter keeps what was set last under each URL, over all scrapes.  So the
gauges of a URL speak of the last worker that has it, and of a URL that nobody has any more they
say what they said before.

## Main definitions

* `KvRoute.Gauges`, `refreshGauges` — what the exporter holds, and how it is refreshed.
* `KvRoute.Monitor`, `Monitor.step` — the server with its exporter, and what happens to both.
* `Monitor.Tells` — the gauges of a URL say how its registered workers are.
* `Monitor.Settled` — the condition under which a scrape makes them do so.

## Main results

* `Monitor.tells_scrape_iff` — the condition is exact for one scrape.
* `KvRoute.gauges_right_iff` — and for all scrapes of a run.
* `KvRoute.gauges_right_static` — it is met as long as different workers have different URLs and
  nobody is discovered.
-/

namespace KvRoute

/-! ## The exporter -/

/-- The gauges that are derived before a scrape, as they were last set. -/
structure Gauges where
  /-- `kvrouter_worker_up`, by the URL in its label. -/
  workerUp : HashTable String F64
  /-- `kvrouter_inflight_requests`, by the URL in its label. -/
  inflightRequests : HashTable String F64
  /-- `kvrouter_prefix_index_entries`. -/
  prefixIndexEntries : Option F64

namespace Gauges

/-- Nothing has been set. -/
def new : Gauges := ⟨.empty, .empty, none⟩

/-- `set_worker_up`. -/
def setWorkerUp (gauges : Gauges) (worker : String) (up : Bool) : Gauges :=
  { gauges with workerUp := gauges.workerUp.insert worker (.finite (if up then 1 else 0)) }

/-- `set_inflight`. -/
def setInflight (fl : F64.Rounding) (gauges : Gauges) (worker : String) (count : UInt64) :
    Gauges :=
  { gauges with
    inflightRequests := gauges.inflightRequests.insert worker (F64.ofNat fl count.toNat) }

/-- `set_prefix_index_entries`. -/
def setPrefixIndexEntries (fl : F64.Rounding) (gauges : Gauges) (entries : ℕ) : Gauges :=
  { gauges with prefixIndexEntries := some (F64.ofNat fl entries) }

end Gauges

/-- The loop of `refresh_gauges`. -/
def refreshWorkers (fl : F64.Rounding) (s : Shared) (workers : List Worker) (gauges : Gauges) :
    Gauges :=
  workers.foldl (fun gauges worker =>
    (gauges.setWorkerUp worker.url (s.registry.isHealthy worker.id)).setInflight fl worker.url
      (s.inflight.count worker.id)) gauges

/-- Re-derive the gauges from their sources. -/
def refreshGauges (fl : F64.Rounding) (s : Shared) (gauges : Gauges) : Gauges :=
  (refreshWorkers fl s s.registry.allWorkers gauges).setPrefixIndexEntries fl s.prefixIndex.len

/-- The server and the exporter. -/
structure Monitor where
  /-- The server. -/
  server : Server
  /-- The gauges that the exporter holds. -/
  gauges : Gauges

/-- What happens to the server and the exporter. -/
inductive MonitorStep where
  /-- Something happens on the server. -/
  | traffic (traffic : Traffic)
  /-- The in-flight tracker grows. -/
  | ensureCapacity (workers : ℕ)
  /-- The metrics are scraped. -/
  | scrape

namespace Monitor

/-- A freshly built server, before the first scrape. -/
def new (config : RouterConfig) : Monitor := ⟨.new config, .new⟩

/-- One step. -/
def step (hasher : Option UInt64 → List Char → UInt64) (fl : F64.Rounding) (router : Router)
    (m : Monitor) : MonitorStep → Monitor
  | .traffic traffic => { m with server := m.server.handle hasher fl router traffic }
  | .ensureCapacity workers =>
    { m with server.shared.inflight := m.server.shared.inflight.ensureCapacity workers }
  | .scrape => { m with gauges := refreshGauges fl m.server.shared m.gauges }

end Monitor

/-! ## What the gauges should say -/

namespace Shared

/-- The registered workers with a URL, ordered by id. -/
def workersAt (s : Shared) (url : String) : List Worker :=
  s.registry.allWorkers.filter (·.url = url)

/-- Some registered worker with the URL is healthy. -/
def UpAt (s : Shared) (url : String) : Prop :=
  ∃ w ∈ s.workersAt url, s.registry.isHealthy w.id = true

/-- The requests in flight of all registered workers with a URL. -/
def inflightAt (s : Shared) (url : String) : ℕ :=
  ((s.workersAt url).map fun w => (s.inflight.count w.id).toNat).sum

end Shared

/-- The gauges of a URL say how its registered workers are.  A gauge that was never set counts as
zero. -/
structure Monitor.Tells (fl : F64.Rounding) (m : Monitor) (url : String) : Prop where
  /-- The URL is shown as up if some worker with it is. -/
  up_iff : m.gauges.workerUp.get url = some (.finite 1) ↔ m.server.shared.UpAt url
  /-- The requests shown are those of all workers with it. -/
  inflight_eq : (m.gauges.inflightRequests.get url).getD (F64.ofNat fl 0) =
    F64.ofNat fl (m.server.shared.inflightAt url)

/-- What a scrape needs to find for a URL. -/
structure Monitor.Settled (fl : F64.Rounding) (m : Monitor) (url : String) : Prop where
  /-- If nobody has the URL any more, it was last shown as down and idle, or was never shown. -/
  gone : m.server.shared.workersAt url = [] → m.gauges.workerUp.get url ≠ some (.finite 1) ∧
    (m.gauges.inflightRequests.get url).getD (F64.ofNat fl 0) = F64.ofNat fl 0
  /-- Otherwise, the worker with it that was registered last is up if any of them is, and serves
  as many requests as all of them. -/
  speaks : ∀ w ∈ m.server.shared.workersAt url,
    (∀ v ∈ m.server.shared.workersAt url, v.id ≤ w.id) →
      (m.server.shared.UpAt url → m.server.shared.registry.isHealthy w.id = true) ∧
        F64.ofNat fl (m.server.shared.inflight.count w.id).toNat =
          F64.ofNat fl (m.server.shared.inflightAt url)

/-! ## One scrape -/

section Refresh

variable {fl : F64.Rounding} {s : Shared} {url : String}

lemma workerUp_refreshWorkers (workers : List Worker) (gauges : Gauges) :
    (refreshWorkers fl s workers gauges).workerUp =
      workers.foldl (fun t w =>
        t.insert w.url (.finite (if s.registry.isHealthy w.id then 1 else 0))) gauges.workerUp := by
  unfold refreshWorkers
  induction workers generalizing gauges with
  | nil => rfl
  | cons w workers ih =>
    rw [List.foldl_cons, List.foldl_cons, ih]
    rfl

lemma inflightRequests_refreshWorkers (workers : List Worker) (gauges : Gauges) :
    (refreshWorkers fl s workers gauges).inflightRequests =
      workers.foldl (fun t w => t.insert w.url (F64.ofNat fl (s.inflight.count w.id).toNat))
        gauges.inflightRequests := by
  unfold refreshWorkers
  induction workers generalizing gauges with
  | nil => rfl
  | cons w workers ih =>
    rw [List.foldl_cons, List.foldl_cons, ih]
    rfl

/-- The gauge of a URL after a scrape is that of the last worker with it, or else stays. -/
lemma get_workerUp_refreshGauges (fl : F64.Rounding) (s : Shared) (gauges : Gauges) (url : String) :
    (refreshGauges fl s gauges).workerUp.get url =
      ((s.workersAt url).getLast?.map fun w =>
        F64.finite (if s.registry.isHealthy w.id then 1 else 0)).or (gauges.workerUp.get url) := by
  change (refreshWorkers fl s s.registry.allWorkers gauges).workerUp.get url = _
  rw [workerUp_refreshWorkers]
  exact HashTable.get_foldl_insert Worker.url _ _ _ url

lemma get_inflightRequests_refreshGauges (fl : F64.Rounding) (s : Shared) (gauges : Gauges)
    (url : String) :
    (refreshGauges fl s gauges).inflightRequests.get url =
      ((s.workersAt url).getLast?.map fun w =>
        F64.ofNat fl (s.inflight.count w.id).toNat).or (gauges.inflightRequests.get url) := by
  change (refreshWorkers fl s s.registry.allWorkers gauges).inflightRequests.get url = _
  rw [inflightRequests_refreshWorkers]
  exact HashTable.get_foldl_insert Worker.url _ _ _ url

/-- The last worker with a URL has the highest id of those with it. -/
lemma Shared.id_le_of_getLast? {w : Worker} (h : (s.workersAt url).getLast? = some w) :
    w ∈ s.workersAt url ∧ ∀ v ∈ s.workersAt url, v.id ≤ w.id := by
  have hsorted : (s.workersAt url).Pairwise fun v w => v.id ≤ w.id :=
    (List.pairwise_insertionSort _ _).filter _
  obtain ⟨workers, hworkers⟩ := List.getLast?_eq_some_iff.mp h
  rw [hworkers] at hsorted ⊢
  refine ⟨List.mem_concat_self, fun v hv => ?_⟩
  rcases List.mem_append.mp hv with hv | hv
  · exact (List.pairwise_append.mp hsorted).2.2 v hv w List.mem_cons_self
  · rw [List.mem_singleton.mp hv]

end Refresh

namespace Monitor

variable {hasher : Option UInt64 → List Char → UInt64} {fl : F64.Rounding} {router : Router}
  {m : Monitor} {url : String}

/-- Of a URL that nobody has, the gauges after a scrape are right if they were before. -/
lemma tells_scrape_iff_of_gone (hnone : m.server.shared.workersAt url = []) :
    (m.step hasher fl router .scrape).Tells fl url ↔
      m.gauges.workerUp.get url ≠ some (.finite 1) ∧
        (m.gauges.inflightRequests.get url).getD (F64.ofNat fl 0) = F64.ofNat fl 0 := by
  have hdown : ¬m.server.shared.UpAt url := by
    rintro ⟨w, hw, -⟩
    rw [hnone] at hw
    exact List.not_mem_nil hw
  have hup := get_workerUp_refreshGauges fl m.server.shared m.gauges url
  have hinflight := get_inflightRequests_refreshGauges fl m.server.shared m.gauges url
  have hzero : m.server.shared.inflightAt url = 0 := by
    unfold Shared.inflightAt
    rw [hnone]
    rfl
  rw [hnone] at hup hinflight
  constructor
  · intro h
    have hup_iff := h.up_iff
    have hinflight_eq := h.inflight_eq
    simp only [step, hup, hinflight, hzero] at hup_iff hinflight_eq
    exact ⟨fun hone => hdown (hup_iff.mp hone), hinflight_eq⟩
  · rintro ⟨hne, hidle⟩
    refine ⟨?_, ?_⟩
    · simp only [step, hup]
      exact iff_of_false hne hdown
    · simp only [step, hinflight, hzero]
      exact hidle

/-- Of a URL that somebody has, the gauges after a scrape are those of the last worker with it. -/
lemma tells_scrape_iff_of_last {w : Worker}
    (hlast : (m.server.shared.workersAt url).getLast? = some w) :
    (m.step hasher fl router .scrape).Tells fl url ↔
      (m.server.shared.UpAt url → m.server.shared.registry.isHealthy w.id = true) ∧
        F64.ofNat fl (m.server.shared.inflight.count w.id).toNat =
          F64.ofNat fl (m.server.shared.inflightAt url) := by
  have hmem := (Shared.id_le_of_getLast? hlast).1
  have hup := get_workerUp_refreshGauges fl m.server.shared m.gauges url
  have hinflight := get_inflightRequests_refreshGauges fl m.server.shared m.gauges url
  rw [hlast, Option.map_some, Option.some_or] at hup hinflight
  have hone : (m.step hasher fl router .scrape).gauges.workerUp.get url = some (.finite 1) ↔
      m.server.shared.registry.isHealthy w.id = true := by
    simp only [step, hup]
    cases m.server.shared.registry.isHealthy w.id <;> simp
  constructor
  · intro h
    have hinflight_eq := h.inflight_eq
    simp only [step, hinflight, Option.getD_some] at hinflight_eq
    exact ⟨fun hsome => hone.mp (h.up_iff.mpr hsome), hinflight_eq⟩
  · rintro ⟨hhealthy, hcount⟩
    refine ⟨hone.trans ⟨fun hw => ⟨w, hmem, hw⟩, hhealthy⟩, ?_⟩
    simp only [step, hinflight, Option.getD_some]
    exact hcount

/-- **One scrape.**  The gauges of a URL are right after a scrape exactly if the scrape finds it
settled. -/
theorem tells_scrape_iff (hasher : Option UInt64 → List Char → UInt64) (fl : F64.Rounding)
    (router : Router) (m : Monitor) (url : String) :
    (m.step hasher fl router .scrape).Tells fl url ↔ m.Settled fl url := by
  cases hlast : (m.server.shared.workersAt url).getLast? with
  | none =>
    have hnone := List.getLast?_eq_none_iff.mp hlast
    rw [tells_scrape_iff_of_gone hnone]
    refine ⟨fun h => ⟨fun _ => h, ?_⟩, fun h => h.gone hnone⟩
    intro w hw
    rw [hnone] at hw
    exact absurd hw List.not_mem_nil
  | some w =>
    obtain ⟨hmem, hle⟩ := Shared.id_le_of_getLast? hlast
    rw [tells_scrape_iff_of_last hlast]
    constructor
    · intro h
      refine ⟨fun hnone => ?_, fun v hv hmax => ?_⟩
      · rw [hnone] at hmem
        exact absurd hmem List.not_mem_nil
      · -- two workers with the highest id have the same state
        have hid : v.id = w.id := le_antisymm (hle v hv) (hmax w hmem)
        rw [hid]
        exact h
    · exact fun h => h.speaks w hmem hle

end Monitor

/-- **When the gauges are right.**  In every run of a freshly built server: the gauges of all URLs
are right after every scrape exactly if every scrape finds all URLs settled.

**Proof sketch.** A scrape leaves under a URL what it sets for the last worker with it, and what was
there if nobody has it (`HashTable.get_foldl_insert`).  The last one has the highest id, since all
workers are listed in the order of ids. -/
theorem gauges_right_iff (hasher : Option UInt64 → List Char → UInt64) (fl : F64.Rounding)
    (router : Router) (config : RouterConfig) (steps : List MonitorStep) :
    Runs.Along (Monitor.step hasher fl router)
        (fun m a => a = .scrape → ∀ url, (m.step hasher fl router a).Tells fl url)
        (.new config) steps ↔
      Runs.Along (Monitor.step hasher fl router)
        (fun m a => a = .scrape → ∀ url, m.Settled fl url) (.new config) steps := by
  refine Runs.along_congr (fun m a => ?_) _ _
  refine forall_congr' fun hscrape => ?_
  subst hscrape
  exact forall_congr' (m.tells_scrape_iff hasher fl router)

/-- A worker is discovered and comes up, the metrics are scraped, the worker's endpoint goes, and
the metrics are scraped again. -/
def droppedWhileUp : List MonitorStep :=
  [.traffic (.step (.reconcile .held (.ofList ["http://10.0.0.1:8001"]))),
    .traffic (.step (.op (.probe 1 true))), .scrape,
    .traffic (.step (.reconcile .held .empty)), .scrape]

/-- The dropped worker is still shown as up. -/
theorem gauges_wrong_after_drop :
    let m :=
      droppedWhileUp.foldl (Monitor.step defaultHasher .exact quartersRouter) (.new oneWorker)
    m.gauges.workerUp.get "http://10.0.0.1:8001" = some (.finite 1) ∧
      m.server.shared.workersAt "http://10.0.0.1:8001" = [] ∧
      ¬Runs.Along (Monitor.step defaultHasher .exact quartersRouter)
        (fun m a => a = .scrape →
          ∀ url, (m.step defaultHasher .exact quartersRouter a).Tells .exact url)
        (.new oneWorker) droppedWhileUp := by
  intro m
  have hup : m.gauges.workerUp.get "http://10.0.0.1:8001" = some (.finite 1) := by decide +kernel
  have hgone : m.server.shared.workersAt "http://10.0.0.1:8001" = [] := by decide +kernel
  refine ⟨hup, hgone, fun h => ?_⟩
  have hlast := @Runs.Along.at_step _ _ _ _ _ (droppedWhileUp.take 4) [] .scrape h
  obtain ⟨w, hw, -⟩ := (hlast rfl "http://10.0.0.1:8001").up_iff.mp hup
  change w ∈ m.server.shared.workersAt "http://10.0.0.1:8001" at hw
  rw [hgone] at hw
  exact List.not_mem_nil hw

/-- Two static workers with one URL. -/
def twins : RouterConfig :=
  { workers := [⟨"http://a:8001", .prefill⟩, ⟨"http://a:8001", .decode⟩],
    routingPolicy := .disaggregated }

/-- The first of them is up, and the second is not. -/
example :
    let m := [MonitorStep.traffic (.step (.op (.probe 0 true))), .scrape].foldl
      (Monitor.step defaultHasher .exact (.new twins)) (.new twins)
    m.gauges.workerUp.get "http://a:8001" = some (.finite 0) ∧
      m.server.shared.registry.isHealthy 0 = true := by
  decide +kernel

/-! ## Static workers with different URLs -/

section Static

variable {s s' : Shared} {url : String}

lemma Shared.mem_workersAt (hids : s.registry.OwnIds) {w : Worker} :
    w ∈ s.workersAt url ↔ s.registry.get w.id = some w ∧ w.url = url := by
  unfold Shared.workersAt
  rw [List.mem_filter, WorkerRegistry.mem_allWorkers, decide_eq_true_iff]
  refine and_congr_left fun _ => ?_
  unfold WorkerRegistry.get
  constructor
  · rintro ⟨id, state, hget, rfl⟩
    rw [hids id state hget, hget]
    rfl
  · intro hget
    obtain ⟨state, hstate, hworker⟩ := Option.map_eq_some_iff.mp hget
    exact ⟨w.id, state, hstate, hworker⟩

/-- Registries with the same workers list the same workers under a URL. -/
lemma Shared.workersAt_congr (hids : s.registry.OwnIds) (hids' : s'.registry.OwnIds)
    (h : ∀ id, s'.registry.get id = s.registry.get id) : s'.workersAt url = s.workersAt url := by
  refine WorkerRegistry.eq_of_pairwise_id_lt (hids'.pairwise_allWorkers.filter _)
    (hids.pairwise_allWorkers.filter _) fun w => ?_
  rw [mem_workersAt hids', mem_workersAt hids, h]

/-- If all workers with a URL are one, it speaks for all of them. -/
lemma Shared.workersAt_eq_singleton (hids : s.registry.OwnIds) {w : Worker}
    (hw : w ∈ s.workersAt url) (hone : ∀ v ∈ s.workersAt url, v = w) : s.workersAt url = [w] := by
  refine WorkerRegistry.eq_of_pairwise_id_lt (hids.pairwise_allWorkers.filter _)
    (List.pairwise_singleton _ w) fun v => ?_
  rw [List.mem_singleton]
  exact ⟨hone v, fun hv => hv ▸ hw⟩

end Static

/-- Discovery reconciles in a step. -/
def MonitorStep.Discovers : MonitorStep → Prop
  | .traffic (.step (.reconcile ..)) => True
  | _ => False

namespace Monitor

/-- The declared workers are registered, and only their gauges have been set. -/
structure Static (config : RouterConfig) (m : Monitor) : Prop where
  /-- The registered workers are those of the configuration. -/
  get_eq : ∀ id, m.server.shared.registry.get id =
    (WorkerRegistry.fromConfig config.workers).get id
  /-- Gauges that were set are those of registered workers. -/
  shown : ∀ url, m.server.shared.workersAt url = [] →
    m.gauges.workerUp.get url = none ∧ m.gauges.inflightRequests.get url = none

variable {hasher : Option UInt64 → List Char → UInt64} {fl : F64.Rounding} {router : Router}
  {config : RouterConfig} {m : Monitor}

/-- The declared workers have the ids they are stored under. -/
lemma ownIds_of_get_eq (h : ∀ id, m.server.shared.registry.get id =
    (WorkerRegistry.fromConfig config.workers).get id) : m.server.shared.registry.OwnIds := by
  intro id state hget
  have hworker : m.server.shared.registry.get id = some state.worker := by
    rw [WorkerRegistry.get, hget, Option.map_some]
  rw [h, WorkerRegistry.get, Option.map_eq_some_iff] at hworker
  obtain ⟨declared, hdeclared, hsame⟩ := hworker
  rw [← hsame]
  exact (WorkerRegistry.wellFormed_fromConfig config.workers).id_eq hdeclared

lemma static_new (config : RouterConfig) : (new config).Static config :=
  ⟨fun _ => rfl, fun _ _ => ⟨rfl, rfl⟩⟩

/-- Only discovery registers and unregisters. -/
lemma get_step {a : MonitorStep} (ha : ¬a.Discovers) (id : WorkerId) :
    (m.step hasher fl router a).server.shared.registry.get id =
      m.server.shared.registry.get id := by
  cases a with
  | ensureCapacity workers => rfl
  | scrape => rfl
  | traffic traffic =>
    cases traffic with
    | acquire worker => rfl
    | release worker => rfl
    | step step =>
      cases step with
      | op op => exact (op.kept_serve hasher fl router m.server.shared).worker_eq id
      | reconcile order desired => exact absurd trivial ha

/-- A step that is not discovery's keeps it so. -/
lemma Static.step (h : m.Static config) {a : MonitorStep} (ha : ¬a.Discovers) :
    (m.step hasher fl router a).Static config := by
  have hget : ∀ id, (m.step hasher fl router a).server.shared.registry.get id =
      (WorkerRegistry.fromConfig config.workers).get id :=
    fun id => (get_step ha id).trans (h.get_eq id)
  refine ⟨hget, fun url hnone => ?_⟩
  have hshown : m.gauges.workerUp.get url = none ∧ m.gauges.inflightRequests.get url = none := by
    apply h.shown
    rw [← hnone]
    exact (Shared.workersAt_congr (ownIds_of_get_eq h.get_eq) (ownIds_of_get_eq hget)
      (get_step ha)).symm
  cases a with
  | traffic traffic => exact hshown
  | ensureCapacity workers => exact hshown
  | scrape =>
    change m.server.shared.workersAt url = [] at hnone
    simp only [Monitor.step, get_workerUp_refreshGauges, get_inflightRequests_refreshGauges, hnone,
      List.getLast?_nil, Option.map_none, Option.none_or]
    exact hshown

/-- With different URLs, every worker speaks for itself. -/
lemma Static.settled (h : m.Static config) (hurls : (config.workers.map (·.url)).Nodup)
    (fl : F64.Rounding) (url : String) : m.Settled fl url := by
  have hids := ownIds_of_get_eq h.get_eq
  -- a worker is found in the configuration, at the position of its id
  have hdeclared : ∀ w ∈ m.server.shared.workersAt url,
      m.server.shared.registry.get w.id = some w ∧
        (config.workers.map (·.url))[w.id]? = some url := by
    intro w hw
    obtain ⟨hget, rfl⟩ := (Shared.mem_workersAt hids).mp hw
    refine ⟨hget, ?_⟩
    rw [h.get_eq, WorkerRegistry.get, WorkerRegistry.get_fromConfig, Option.map_map,
      Option.map_eq_some_iff] at hget
    obtain ⟨declared, hdeclared, hw⟩ := hget
    rw [List.getElem?_map, hdeclared, ← hw]
    rfl
  refine ⟨fun hnone => ?_, fun w hw _ => ?_⟩
  · obtain ⟨hup, hinflight⟩ := h.shown url hnone
    rw [hup, hinflight]
    refine ⟨fun hup => ?_, rfl⟩
    cases hup
  · have hone : ∀ v ∈ m.server.shared.workersAt url, v = w := by
      intro v hv
      have hid : v.id = w.id := (List.getElem?_inj (by
        obtain ⟨hlt, -⟩ := List.getElem?_eq_some_iff.mp (hdeclared v hv).2
        exact hlt) hurls).mp ((hdeclared v hv).2.trans (hdeclared w hw).2.symm)
      have hget := (hdeclared v hv).1
      rw [hid, (hdeclared w hw).1] at hget
      exact (Option.some.inj hget).symm
    have hlist := Shared.workersAt_eq_singleton hids hw hone
    constructor
    · rintro ⟨v, hv, hhealthy⟩
      rwa [hone v hv] at hhealthy
    · rw [Shared.inflightAt, hlist, List.map_singleton, List.sum_singleton]

end Monitor

/-- **Static workers with different URLs.**  In every run in which nobody is discovered, of a server
whose declared workers have different URLs, the gauges of all URLs are right after every scrape. -/
theorem gauges_right_static (hasher : Option UInt64 → List Char → UInt64) (fl : F64.Rounding)
    (router : Router) (config : RouterConfig) (hurls : (config.workers.map (·.url)).Nodup)
    (steps : List MonitorStep) (hsteps : ∀ a ∈ steps, ¬a.Discovers) :
    Runs.Along (Monitor.step hasher fl router)
      (fun m a => a = .scrape → ∀ url, (m.step hasher fl router a).Tells fl url)
      (.new config) steps := by
  refine Runs.along_of_forall fun before a after hsplit hscrape url => ?_
  subst hscrape
  rw [Monitor.tells_scrape_iff]
  refine Monitor.Static.settled ?_ hurls fl url
  have hbefore : Runs.Along (Monitor.step hasher fl router) (fun _ a => ¬a.Discovers)
      (.new config) before := by
    refine Runs.along_of_forall fun pre b post hpre => hsteps b ?_
    rw [hsplit, hpre]
    simp
  exact hbefore.foldl_inv (I := Monitor.Static config) (fun m a h ha => h.step ha)
    (Monitor.static_new config)

end KvRoute
