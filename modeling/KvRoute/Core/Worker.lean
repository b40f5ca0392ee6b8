import Mathlib.Data.List.Sort
import KvRoute.Core.Config
import KvRoute.Lib.HashTable

set_option relaxedAutoImplicit false
set_option autoImplicit false

/-!
# The worker registry

Worker identities and their health (`crates/router-core/src/worker.rs`): a table from worker
ids to workers, and a monotonic allocator for the ids of workers registered at runtime.

Ids and the allocator are natural numbers.  The code's are `u64`, which differ from them only
after `2 ^ 64` registrations.

## Main definitions

* `KvRoute.Worker`, `KvRoute.WorkerState`, `KvRoute.WorkerRegistry`.
* `WorkerRegistry.fromConfig`, `registerWorker`, `removeWorker`, `setHealthy`, `allWorkers`,
  `healthyWorkers` — the operations.
* `WorkerRegistry.WellFormed` — every worker is stored under its own id, below the allocator.

## Main results

* `WorkerRegistry.get_registerWorker`, `get_removeWorker`, `get_setHealthy` — what each
  operation does to a lookup.
* `WorkerRegistry.wellFormed_fromConfig`, `WellFormed.registerWorker`, … — well-formedness.
* `WorkerRegistry.mem_healthyWorkers` — what a health snapshot contains.
-/

namespace KvRoute

/-- Stable identifier for a worker. -/
abbrev WorkerId := ℕ

/-- Static description of a backend worker. -/
structure Worker where
  /-- Stable identity; never reused across replacements. -/
  id : WorkerId
  /-- Base URL. -/
  url : String
  /-- Which inference phase this worker is provisioned for. -/
  pool : Pool
deriving DecidableEq, Repr

/-- A worker plus its runtime health state. -/
structure WorkerState where
  /-- Static worker description. -/
  worker : Worker
  /-- Last health-probe outcome. -/
  healthy : Bool
deriving DecidableEq, Repr

/-- The health registry for all workers. -/
structure WorkerRegistry where
  /-- The registered workers. -/
  workers : HashTable WorkerId WorkerState
  /-- Id allocator for runtime-registered workers. -/
  nextId : WorkerId

namespace WorkerRegistry

/-- Build a registry from configuration: ids are positions, and everything starts down. -/
def fromConfig (workers : List WorkerConfig) : WorkerRegistry where
  workers := workers.zipIdx.foldl (fun entries (config, index) =>
    entries.insert index ⟨⟨index, config.url, config.pool⟩, false⟩) .empty
  nextId := workers.length

/-- Take the next id. -/
def allocateId (r : WorkerRegistry) : WorkerRegistry × WorkerId :=
  ({ r with nextId := r.nextId + 1 }, r.nextId)

/-- Enter a worker under an allocated id; it starts down. -/
def insertWorker (r : WorkerRegistry) (id : WorkerId) (url : String) (pool : Pool) :
    WorkerRegistry :=
  { r with workers := r.workers.insert id ⟨⟨id, url, pool⟩, false⟩ }

/-- Register a worker discovered at runtime and return its freshly allocated id. -/
def registerWorker (r : WorkerRegistry) (url : String) (pool : Pool) :
    WorkerRegistry × WorkerId :=
  let (r, id) := r.allocateId
  (r.insertWorker id url pool, id)

/-- Remove a worker entirely, returning it. -/
def removeWorker (r : WorkerRegistry) (id : WorkerId) : WorkerRegistry × Option Worker :=
  ({ r with workers := r.workers.remove id }, (r.workers.get id).map (·.worker))

/-- Update a worker's health state; the answer says whether it changed. -/
def setHealthy (r : WorkerRegistry) (id : WorkerId) (healthy : Bool) : WorkerRegistry × Bool :=
  match r.workers.get id with
  | some state =>
    ({ r with workers := r.workers.insert id { state with healthy } }, state.healthy != healthy)
  | none => (r, false)

/-- Look up a worker by id. -/
def get (r : WorkerRegistry) (id : WorkerId) : Option Worker :=
  (r.workers.get id).map (·.worker)

/-- Whether the worker is currently healthy. -/
def isHealthy (r : WorkerRegistry) (id : WorkerId) : Bool :=
  (r.workers.get id).any (·.healthy)

/-- The states of the registered workers. -/
def states (r : WorkerRegistry) : List WorkerState := r.workers.toList.map Prod.snd

/-- Sort workers by id. -/
def sortById (workers : List Worker) : List Worker :=
  workers.insertionSort fun a b => a.id ≤ b.id

/-- Snapshot of every registered worker, ordered by id. -/
def allWorkers (r : WorkerRegistry) : List Worker := sortById (r.states.map (·.worker))

/-- Snapshot of the workers currently marked healthy, ordered by id. -/
def healthyWorkers (r : WorkerRegistry) : List Worker :=
  sortById ((r.states.filter (·.healthy)).map (·.worker))

/-! ## Lookups -/

/-- Lookups in a registry that was built from a list of declared workers at positions `n` on. -/
private theorem get_foldl_insert (workers : List WorkerConfig) (n : ℕ)
    (t : HashTable WorkerId WorkerState) (id : WorkerId) :
    ((workers.zipIdx n).foldl (fun entries (config, index) =>
      entries.insert index ⟨⟨index, config.url, config.pool⟩, false⟩) t).get id =
      if n ≤ id ∧ id < n + workers.length then
        workers[id - n]?.map fun config => ⟨⟨id, config.url, config.pool⟩, false⟩
      else t.get id := by
  induction workers generalizing n t with
  | nil => rw [if_neg (by simp)]; rfl
  | cons config workers ih =>
    rw [List.zipIdx_cons, List.foldl_cons, ih, HashTable.get_insert]
    simp only [List.length_cons]
    by_cases hid : id = n
    · subst hid; simp
    · by_cases hin : n + 1 ≤ id ∧ id < n + 1 + workers.length
      · have hsub : id - n = (id - (n + 1)) + 1 := by lia
        rw [if_pos hin, if_pos (by lia), hsub, List.getElem?_cons_succ]
      · rw [if_neg hin, if_neg hid, if_neg (by lia)]

/-- A declared worker is registered under its position, and starts down. -/
theorem get_fromConfig (workers : List WorkerConfig) (id : WorkerId) :
    (fromConfig workers).workers.get id =
      workers[id]?.map fun config => ⟨⟨id, config.url, config.pool⟩, false⟩ := by
  unfold fromConfig
  rw [get_foldl_insert]
  split_ifs with h
  · simp
  · rw [List.getElem?_eq_none (by lia)]; rfl

@[simp] theorem nextId_fromConfig (workers : List WorkerConfig) :
    (fromConfig workers).nextId = workers.length := rfl

@[simp] theorem registerWorker_snd (r : WorkerRegistry) (url : String) (pool : Pool) :
    (r.registerWorker url pool).2 = r.nextId := rfl

@[simp] theorem nextId_registerWorker (r : WorkerRegistry) (url : String) (pool : Pool) :
    (r.registerWorker url pool).1.nextId = r.nextId + 1 := rfl

theorem get_registerWorker (r : WorkerRegistry) (url : String) (pool : Pool) (id : WorkerId) :
    (r.registerWorker url pool).1.workers.get id =
      if id = r.nextId then some ⟨⟨r.nextId, url, pool⟩, false⟩ else r.workers.get id :=
  HashTable.get_insert _ _ _ _

@[simp] theorem nextId_removeWorker (r : WorkerRegistry) (id : WorkerId) :
    (r.removeWorker id).1.nextId = r.nextId := rfl

theorem get_removeWorker (r : WorkerRegistry) (id id' : WorkerId) :
    (r.removeWorker id).1.workers.get id' = if id' = id then none else r.workers.get id' :=
  HashTable.get_remove _ _ _

@[simp] theorem nextId_setHealthy (r : WorkerRegistry) (id : WorkerId) (healthy : Bool) :
    (r.setHealthy id healthy).1.nextId = r.nextId := by
  unfold setHealthy; split <;> rfl

theorem get_setHealthy (r : WorkerRegistry) (id id' : WorkerId) (healthy : Bool) :
    (r.setHealthy id healthy).1.workers.get id' =
      if id' = id then (r.workers.get id).map fun state => { state with healthy }
      else r.workers.get id' := by
  unfold setHealthy
  cases h : r.workers.get id with
  | none => split_ifs with hid <;> simp [hid, h]
  | some state => simp [HashTable.get_insert]

/-- `set_healthy` reports exactly the transitions. -/
theorem setHealthy_snd (r : WorkerRegistry) (id : WorkerId) (healthy : Bool) :
    (r.setHealthy id healthy).2 =
      (r.workers.get id).any fun state => state.healthy != healthy := by
  unfold setHealthy
  cases r.workers.get id <;> rfl

theorem get_insertWorker (r : WorkerRegistry) (id id' : WorkerId) (url : String) (pool : Pool) :
    (r.insertWorker id url pool).workers.get id' =
      if id' = id then some ⟨⟨id, url, pool⟩, false⟩ else r.workers.get id' :=
  HashTable.get_insert _ _ _ _

/-- A probe of a worker that is not registered changes nothing, and says so. -/
theorem setHealthy_of_get_eq_none {r : WorkerRegistry} {id : WorkerId}
    (h : r.workers.get id = none) (healthy : Bool) : r.setHealthy id healthy = (r, false) := by
  rw [setHealthy, h]

/-! ## Well-formedness -/

/-- Every worker is stored under its own id. -/
def OwnIds (r : WorkerRegistry) : Prop :=
  ∀ id state, r.workers.get id = some state → state.worker.id = id

/-- Every worker is stored under its own id, and the allocator is past every registered id. -/
structure WellFormed (r : WorkerRegistry) : Prop where
  /-- A worker is stored under its own id. -/
  id_eq : ∀ {id state}, r.workers.get id = some state → state.worker.id = id
  /-- A registered id has been allocated. -/
  id_lt : ∀ {id state}, r.workers.get id = some state → id < r.nextId

theorem wellFormed_fromConfig (workers : List WorkerConfig) :
    (fromConfig workers).WellFormed where
  id_eq hget := by
    rw [get_fromConfig, Option.map_eq_some_iff] at hget
    obtain ⟨config, -, rfl⟩ := hget
    rfl
  id_lt hget := by
    rw [get_fromConfig, Option.map_eq_some_iff] at hget
    obtain ⟨config, hconfig, -⟩ := hget
    exact (List.getElem?_eq_some_iff.mp hconfig).1

variable {r : WorkerRegistry}

theorem WellFormed.registerWorker (h : r.WellFormed) (url : String) (pool : Pool) :
    (r.registerWorker url pool).1.WellFormed where
  id_eq hget := by
    rw [get_registerWorker] at hget
    split_ifs at hget with hid
    · cases hget
      exact hid.symm
    · exact h.id_eq hget
  id_lt hget := by
    rw [get_registerWorker] at hget
    rw [nextId_registerWorker]
    split_ifs at hget with hid
    · exact Nat.lt_succ_of_le hid.le
    · exact Nat.lt_succ_of_lt (h.id_lt hget)

theorem WellFormed.removeWorker (h : r.WellFormed) (id : WorkerId) :
    (r.removeWorker id).1.WellFormed where
  id_eq hget := by
    rw [get_removeWorker] at hget
    split_ifs at hget
    exact h.id_eq hget
  id_lt hget := by
    rw [get_removeWorker] at hget
    split_ifs at hget
    exact h.id_lt hget

theorem WellFormed.setHealthy (h : r.WellFormed) (id : WorkerId) (healthy : Bool) :
    (r.setHealthy id healthy).1.WellFormed where
  id_eq hget := by
    rw [get_setHealthy] at hget
    split_ifs at hget with hid
    · obtain ⟨old, hold, rfl⟩ := Option.map_eq_some_iff.mp hget
      exact (h.id_eq hold).trans hid.symm
    · exact h.id_eq hget
  id_lt hget := by
    rw [get_setHealthy] at hget
    rw [nextId_setHealthy]
    split_ifs at hget with hid
    · obtain ⟨old, hold, -⟩ := Option.map_eq_some_iff.mp hget
      exact hid ▸ h.id_lt hold
    · exact h.id_lt hget

/-! ## Snapshots -/

theorem mem_states {state : WorkerState} :
    state ∈ r.states ↔ ∃ id, r.workers.get id = some state := by
  simp [states, HashTable.mem_toList]

@[simp] theorem mem_sortById {workers : List Worker} {w : Worker} :
    w ∈ sortById workers ↔ w ∈ workers := List.mem_insertionSort _

/-- The list of all workers contains exactly the registered ones. -/
theorem mem_allWorkers {w : Worker} :
    w ∈ r.allWorkers ↔ ∃ id state, r.workers.get id = some state ∧ state.worker = w := by
  simp only [allWorkers, mem_sortById, List.mem_map, mem_states]
  constructor
  · rintro ⟨state, ⟨id, hget⟩, rfl⟩
    exact ⟨id, state, hget, rfl⟩
  · rintro ⟨id, state, hget, rfl⟩
    exact ⟨state, ⟨id, hget⟩, rfl⟩

/-- A health snapshot contains exactly the registered workers that are up. -/
theorem mem_healthyWorkers {w : Worker} :
    w ∈ r.healthyWorkers ↔ ∃ id state, r.workers.get id = some state ∧ state.healthy = true ∧
      state.worker = w := by
  simp only [healthyWorkers, mem_sortById, List.mem_map, List.mem_filter, mem_states]
  constructor
  · rintro ⟨state, ⟨⟨id, hget⟩, hup⟩, rfl⟩
    exact ⟨id, state, hget, hup, rfl⟩
  · rintro ⟨id, state, hget, hup, rfl⟩
    exact ⟨state, ⟨⟨id, hget⟩, hup⟩, rfl⟩

/-- A worker of a health snapshot is registered under its id, and up. -/
theorem WellFormed.of_mem_healthyWorkers (h : r.WellFormed) {w : Worker}
    (hw : w ∈ r.healthyWorkers) : r.workers.get w.id = some ⟨w, true⟩ := by
  obtain ⟨id, ⟨worker, healthy⟩, hget, hup, rfl⟩ := mem_healthyWorkers.mp hw
  have hid : worker.id = id := h.id_eq hget
  subst hid
  rw [hget, show healthy = true from hup]

/-- No id occurs twice as soon as every worker is stored under its own id. -/
theorem OwnIds.nodup_ids (h : r.OwnIds) :
    (r.states.map fun state => state.worker.id).Nodup := by
  have hkeys : (r.states.map fun state => state.worker.id) = r.workers.keys := by
    rw [states, List.map_map, HashTable.keys]
    apply List.map_congr_left
    rintro ⟨id, state⟩ hmem
    exact h id state ((HashTable.mem_toList _).mp hmem)
  rw [hkeys]
  exact r.workers.nodup_keys

/-- Workers with different ids are sorted strictly. -/
theorem pairwise_sortById {workers : List Worker} (h : (workers.map (·.id)).Nodup) :
    (sortById workers).Pairwise fun w v => w.id < v.id := by
  have hperm : (sortById workers).Perm workers := List.perm_insertionSort _ _
  have hsorted : (sortById workers).Pairwise fun w v => w.id ≤ v.id :=
    List.pairwise_insertionSort (fun w v : Worker => w.id ≤ v.id) _
  have hne : (sortById workers).Pairwise fun w v => w.id ≠ v.id :=
    List.pairwise_map.mp ((hperm.map _).nodup_iff.mpr h)
  exact hsorted.imp₂ (fun _ _ hle hne => lt_of_le_of_ne hle hne) hne

/-- The list of all workers is ordered by id, and no id occurs twice. -/
theorem OwnIds.pairwise_allWorkers (h : r.OwnIds) :
    r.allWorkers.Pairwise fun w v => w.id < v.id := by
  apply pairwise_sortById
  rw [List.map_map]
  exact h.nodup_ids

/-- So is a health snapshot. -/
theorem OwnIds.pairwise_healthyWorkers (h : r.OwnIds) :
    r.healthyWorkers.Pairwise fun w v => w.id < v.id := by
  apply pairwise_sortById
  rw [List.map_map]
  exact h.nodup_ids.sublist (List.filter_sublist.map _)

theorem WellFormed.pairwise_healthyWorkers (h : r.WellFormed) :
    r.healthyWorkers.Pairwise fun w v => w.id < v.id :=
  OwnIds.pairwise_healthyWorkers fun _ _ => h.id_eq

/-- Two lists of the same workers, both in the order of ids, are equal. -/
theorem eq_of_pairwise_id_lt {workers workers' : List Worker}
    (h : workers.Pairwise fun w v => w.id < v.id) (h' : workers'.Pairwise fun w v => w.id < v.id)
    (hmem : ∀ w, w ∈ workers ↔ w ∈ workers') : workers = workers' := by
  have hne : ∀ {w v : Worker}, w.id < v.id → w ≠ v := by
    rintro w _ hlt rfl
    exact lt_irrefl _ hlt
  refine List.Perm.eq_of_pairwise (fun w v _ _ hlt hgt => absurd hlt (lt_asymm hgt)) h h' ?_
  exact (List.perm_ext_iff_of_nodup (h.imp hne) (h'.imp hne)).mpr hmem

/-- A health snapshot is the list, in the order of ids, of the registered workers that are up. -/
theorem WellFormed.healthyWorkers_eq (h : r.WellFormed) {workers : List Worker}
    (hsorted : workers.Pairwise fun w v => w.id < v.id)
    (hmem : ∀ w, w ∈ workers ↔ r.workers.get w.id = some ⟨w, true⟩) :
    r.healthyWorkers = workers := by
  refine eq_of_pairwise_id_lt h.pairwise_healthyWorkers hsorted fun w => ?_
  rw [hmem]
  exact ⟨h.of_mem_healthyWorkers, fun hget => mem_healthyWorkers.mpr ⟨w.id, _, hget, rfl, rfl⟩⟩

end WorkerRegistry

end KvRoute
