import Mathlib.Data.Set.Card
import KvRoute.Core.Conservation
import KvRoute.Server.State

set_option relaxedAutoImplicit false
set_option autoImplicit false

/-!
# What a reconciliation leaves

A reconciliation updates the table of discovered workers, the registry and the index together.  Its
effect on each is determined by the table, the wanted set and the state before; in particular by
nothing that the iteration orders decide.  Reconciling again with the same set does nothing.

## Main definitions

* `KvRoute.withoutWorkers` — an index entry without some workers.
* `KvRoute.goneIds` — the ids that a reconciliation drops.
* `KvRoute.ReconcilesExactly` — all that a reconciliation does.

## Main results

* `Server.wellFormed_foldl_step` — the index of a server is well formed in every run.
* `KvRoute.reconcile_exact` — every reconciliation of a run does exactly this.
-/

namespace KvRoute

/-! ## Dropping several workers from the index -/

/-- What is left of an entry without the workers `ids`; an entry that has no other workers goes. -/
def withoutWorkers (ids : List WorkerId) (entry : IndexEntry) : Option IndexEntry :=
  let workers := entry.workers.filter (· ∉ ids)
  if workers.isEmpty then none else some { entry with workers }

/-- Dropping one worker and then others drops them all. -/
lemma dropWorker_bind_withoutWorkers (id : WorkerId) (ids : List WorkerId) (entry : IndexEntry) :
    (PrefixIndex.dropWorker id entry).bind (withoutWorkers ids) =
      withoutWorkers (id :: ids) entry := by
  have hfilter : (entry.workers.filter (· ≠ id)).filter (· ∉ ids) =
      entry.workers.filter (· ∉ id :: ids) := by
    rw [List.filter_filter]
    apply List.filter_congr
    intro w _
    by_cases hid : w = id <;> simp [hid]
  rw [PrefixIndex.dropWorker, withoutWorkers]
  by_cases hempty : entry.workers.filter (· ≠ id) = []
  · rw [hempty, List.filter_nil] at hfilter
    rw [hempty, ← hfilter]
    rfl
  · rw [if_neg (by simpa using hempty), Option.bind_some, withoutWorkers, hfilter]

/-- What dropping workers one after the other does to the entry of every block. -/
theorem get_foldl_removeWorker (ids : List WorkerId) {idx : PrefixIndex} (hwf : idx.WellFormed)
    (hash : UInt64) :
    (ids.foldl PrefixIndex.removeWorker idx).get hash =
      (idx.get hash).bind (withoutWorkers ids) := by
  induction ids generalizing idx with
  | nil =>
    cases hget : idx.get hash with
    | none => simp [hget]
    | some entry =>
      have hne : entry.workers ≠ [] := hwf.nonempty hash entry hget
      simp [hget, withoutWorkers, hne]
  | cons id ids ih =>
    rw [List.foldl_cons, ih (hwf.removeWorker id), PrefixIndex.get_removeWorker, Option.bind_assoc]
    exact congrArg _ (funext fun entry => dropWorker_bind_withoutWorkers id ids entry)

/-- The first loop drops from the index the workers of the URLs that it goes through. -/
lemma prefixIndex_dropGone (gone : List String) (discovered : DiscoveredWorkers) (s : Shared) :
    ∃ ids : List WorkerId,
      (∀ id ∈ ids, ∃ url ∈ gone, discovered.byUrl.get url = some id) ∧
      (∀ url ∈ gone, ∀ id, discovered.byUrl.get url = some id → id ∈ ids) ∧
      ((dropGone gone discovered).alone s).1.prefixIndex =
        ids.foldl PrefixIndex.removeWorker s.prefixIndex := by
  induction gone generalizing discovered s with
  | nil => exact ⟨[], by simp, by simp, rfl⟩
  | cons url gone ih =>
    cases hurl : discovered.byUrl.get url with
    | none =>
      obtain ⟨ids, hsub, hsup, hindex⟩ := ih discovered s
      rw [alone_dropGone_of_none hurl]
      refine ⟨ids, fun id hid => ?_, fun u hu id hid => ?_, hindex⟩
      · obtain ⟨u, hu, hget⟩ := hsub id hid
        exact ⟨u, List.mem_cons_of_mem _ hu, hget⟩
      · rcases List.mem_cons.mp hu with rfl | hu
        · rw [hurl] at hid
          cases hid
        · exact hsup u hu id hid
    | some id =>
      rw [alone_dropGone_of_some hurl]
      obtain ⟨ids, hsub, hsup, hindex⟩ := ih ⟨discovered.byUrl.remove url⟩
        { s with
          prefixIndex := s.prefixIndex.removeWorker id
          registry := (s.registry.removeWorker id).1 }
      have hget : ∀ u, (discovered.byUrl.remove url).get u =
          if u = url then none else discovered.byUrl.get u := HashTable.get_remove _ _
      refine ⟨id :: ids, fun i hi => ?_, fun u hu i hi => ?_, hindex⟩
      · rcases List.mem_cons.mp hi with rfl | hi
        · exact ⟨url, List.mem_cons_self, hurl⟩
        · obtain ⟨u, hu, hi⟩ := hsub i hi
          rw [hget] at hi
          split_ifs at hi
          exact ⟨u, List.mem_cons_of_mem _ hu, hi⟩
      · by_cases heq : u = url
        · subst heq
          obtain rfl := Option.some.inj (hurl.symm.trans hi)
          exact List.mem_cons_self
        · refine List.mem_cons_of_mem _ (hsup u ((List.mem_cons.mp hu).resolve_left heq) i ?_)
          rw [hget, if_neg heq, hi]

/-- The second loop leaves the index alone. -/
lemma prefixIndex_addNew (desired : List String) (discovered : DiscoveredWorkers) (added : ℕ)
    (s : Shared) :
    ((addNew desired discovered added).alone s).1.prefixIndex = s.prefixIndex := by
  induction desired generalizing discovered added s with
  | nil => rfl
  | cons url desired ih =>
    by_cases hurl : discovered.byUrl.containsKey url = true
    · rw [alone_addNew_of_mem hurl, ih]
    · rw [alone_addNew_of_not_mem hurl, ih]

/-! ## The whole reconciliation -/

/-- The ids that a reconciliation with a wanted set drops. -/
def goneIds (discovered : DiscoveredWorkers) (desired : UrlSet) : List WorkerId :=
  (goneUrls discovered desired).filterMap discovered.byUrl.get

lemma mem_goneIds {discovered : DiscoveredWorkers} {desired : UrlSet} {id : WorkerId} :
    id ∈ goneIds discovered desired ↔
      ∃ url, discovered.byUrl.get url = some id ∧ desired.containsKey url = false := by
  rw [goneIds, List.mem_filterMap]
  constructor
  · rintro ⟨url, hurl, hget⟩
    exact ⟨url, hget, (mem_goneUrls.mp hurl).2⟩
  · rintro ⟨url, hget, hgone⟩
    exact ⟨url, mem_goneUrls.mpr ⟨⟨id, hget⟩, hgone⟩, hget⟩

/-- An entry loses the same workers whatever list names them. -/
lemma withoutWorkers_congr {ids ids' : List WorkerId} (h : ∀ id, id ∈ ids ↔ id ∈ ids') :
    withoutWorkers ids = withoutWorkers ids' := by
  funext entry
  simp only [withoutWorkers, h]

/-- What a reconciliation does to the index: a purge of dropped workers, one after the other. -/
lemma prefixIndex_reconcile (order : IterOrder String) (discovered : DiscoveredWorkers)
    (desired : UrlSet) (s : Shared) :
    ∃ ids : List WorkerId, (∀ id, id ∈ ids ↔ id ∈ goneIds discovered desired) ∧
      ((reconcile order discovered desired).alone s).1.prefixIndex =
        ids.foldl PrefixIndex.removeWorker s.prefixIndex := by
  obtain ⟨ids, hsub, hsup, hindex⟩ :=
    prefixIndex_dropGone (order.arrange (goneUrls discovered desired)) discovered s
  refine ⟨ids, fun id => ?_, ?_⟩
  · rw [mem_goneIds]
    constructor
    · intro hid
      obtain ⟨url, hurl, hget⟩ := hsub id hid
      rw [IterOrder.mem_arrange, mem_goneUrls] at hurl
      exact ⟨url, hget, hurl.2⟩
    · rintro ⟨url, hget, hgone⟩
      refine hsup url ?_ id hget
      rw [IterOrder.mem_arrange, mem_goneUrls]
      exact ⟨⟨id, hget⟩, hgone⟩
  · rw [reconcile, Thread.alone_bind, Thread.alone_bind]
    exact (prefixIndex_addNew _ _ _ _).trans hindex

/-- The second loop does nothing if all its URLs are discovered. -/
lemma alone_addNew_of_forall_mem {desired : List String} {discovered : DiscoveredWorkers}
    (h : ∀ url ∈ desired, discovered.byUrl.containsKey url = true) (added : ℕ) (s : Shared) :
    (addNew desired discovered added).alone s = (s, discovered, added) := by
  induction desired with
  | nil => rfl
  | cons url desired ih =>
    rw [alone_addNew_of_mem (h url List.mem_cons_self)]
    exact ih fun u hu => h u (List.mem_cons_of_mem _ hu)

/-- **Reconciling again.**  If the discovered URLs are the wanted ones there is nothing to do. -/
theorem alone_reconcile_of_discovered (order : IterOrder String) {discovered : DiscoveredWorkers}
    {desired : UrlSet}
    (h : ∀ url, (∃ id, discovered.byUrl.get url = some id) ↔ desired.containsKey url = true)
    (s : Shared) : (reconcile order discovered desired).alone s = (s, ⟨discovered, 0, 0⟩) := by
  have hgone : order.arrange (goneUrls discovered desired) = [] := by
    refine List.eq_nil_iff_forall_not_mem.mpr fun url hurl => ?_
    rw [IterOrder.mem_arrange, mem_goneUrls, h] at hurl
    simp [hurl.1] at hurl
  have hnew : ∀ url ∈ order.arrange desired.keys, discovered.byUrl.containsKey url = true := by
    intro url hurl
    rw [IterOrder.mem_arrange, UrlSet.mem_keys] at hurl
    rw [HashTable.containsKey_iff]
    exact (h url).mpr hurl
  rw [reconcile, hgone, Thread.alone_bind, alone_dropGone_nil]
  dsimp only
  rw [Thread.alone_bind, alone_addNew_of_forall_mem hnew]
  rfl

/-- Elements listed once each are counted by the length of the list. -/
lemma length_eq_ncard {α : Type*} {l : List α} (hl : l.Nodup) {p : α → Prop}
    (h : ∀ a, a ∈ l ↔ p a) : l.length = {a | p a}.ncard := by
  classical
  rw [← List.toFinset_card_of_nodup hl, ← Set.ncard_coe_finset]
  congr 1
  ext a
  simp [h]

/-- All that a reconciliation of `server` with the wanted set `desired` does, if it returns
`(removed, added)` and leaves `server'`. -/
structure ReconcilesExactly (server : Server) (desired : UrlSet) (removed added : ℕ)
    (server' : Server) : Prop where
  /-- The discovered URLs are the wanted ones. -/
  discovered_iff : ∀ url, (∃ id, server'.discovered.byUrl.get url = some id) ↔
    desired.containsKey url = true
  /-- Different URLs have different ids. -/
  injective : ∀ url url' id, server'.discovered.byUrl.get url = some id →
    server'.discovered.byUrl.get url' = some id → url = url'
  /-- Every discovered id is registered under its URL. -/
  registered : ∀ url id, server'.discovered.byUrl.get url = some id →
    ∃ healthy, server'.shared.registry.workers.get id = some ⟨⟨id, url, .both⟩, healthy⟩
  /-- A URL that was discovered and still is keeps its id, with its health and its index entries
  and their times. -/
  kept : ∀ url id, server.discovered.byUrl.get url = some id → desired.containsKey url = true →
    server'.discovered.byUrl.get url = some id ∧
      server'.shared.registry.workers.get id = server.shared.registry.workers.get id ∧
      ∀ hash, server'.shared.prefixIndex.belief id hash = server.shared.prefixIndex.belief id hash
  /-- A dropped id is unregistered, and listed in no entry. -/
  dropped : ∀ url id, server.discovered.byUrl.get url = some id →
    desired.containsKey url = false →
      server'.shared.registry.workers.get id = none ∧
        ∀ hash, server'.shared.prefixIndex.lists id hash = false
  /-- Every entry loses the dropped ids, and nothing else; it goes if it listed no one else. -/
  entries : ∀ hash, server'.shared.prefixIndex.get hash =
    (server.shared.prefixIndex.get hash).bind
      (withoutWorkers (goneIds server.discovered desired))
  /-- The first count is that of the dropped URLs. -/
  removed_eq : removed = {url | (∃ id, server.discovered.byUrl.get url = some id) ∧
    desired.containsKey url = false}.ncard
  /-- The second count is that of the new URLs. -/
  added_eq : added = {url | desired.containsKey url = true ∧
    server.discovered.byUrl.get url = none}.ncard
  /-- Reconciling again with the same set returns `(0, 0)` and changes nothing. -/
  again : ∀ order : IterOrder String,
    (reconcile order server'.discovered desired).alone server'.shared =
      (server'.shared, ⟨server'.discovered, 0, 0⟩)

/-- A reconciliation does all that in every state with registrations in order and a well-formed
index. -/
theorem reconcilesExactly_reconcile (order : IterOrder String) (server : Server)
    (desired : UrlSet) (h : Registrations server.shared.registry server.discovered)
    (hwf : server.shared.prefixIndex.WellFormed) :
    ReconcilesExactly server desired
      ((reconcile order server.discovered desired).alone server.shared).2.removed
      ((reconcile order server.discovered desired).alone server.shared).2.added
      ⟨((reconcile order server.discovered desired).alone server.shared).1,
        ((reconcile order server.discovered desired).alone server.shared).2.discovered⟩ := by
  have hr := reconciled_reconcile order server.discovered desired server.shared h
  -- no other URL has the id of one that is kept
  have hstays : ∀ url id, server.discovered.byUrl.get url = some id →
      desired.containsKey url = true → ∀ url', desired.containsKey url' = false →
        server.discovered.byUrl.get url' ≠ some id := by
    intro url id hget hwanted url' hgone hget'
    rw [h.injective hget hget', hgone] at hwanted
    cases hwanted
  refine
    { discovered_iff := hr.discovered_iff
      injective := fun _ _ _ hurl hurl' => hr.registrations.injective hurl hurl'
      registered := hr.registrations.registered
      kept := ?kept
      dropped := ?dropped
      entries := ?entries
      removed_eq := ?removed_eq
      added_eq := ?added_eq
      again := fun order' => alone_reconcile_of_discovered order' hr.discovered_iff _ }
  case kept =>
    intro url id hget hwanted
    have hstays' := hstays url id hget hwanted
    exact ⟨hr.kept url id hwanted hget, hr.workers_eq id (h.id_lt hget) hstays',
      hr.belief_eq id hstays'⟩
  case dropped =>
    intro url id hget hgone
    refine ⟨hr.unregistered url id hgone hget, fun hash => ?_⟩
    rw [← Bool.not_eq_true, PrefixIndex.lists_iff_belief, not_not]
    exact hr.purged url id hgone hget hash
  case entries =>
    intro hash
    obtain ⟨ids, hids, hindex⟩ :=
      prefixIndex_reconcile order server.discovered desired server.shared
    dsimp only
    rw [hindex, get_foldl_removeWorker ids hwf, withoutWorkers_congr hids]
  case removed_eq =>
    rw [hr.removed_eq]
    exact length_eq_ncard ((server.discovered.byUrl.nodup_keys).filter _) fun url => mem_goneUrls
  case added_eq =>
    rw [hr.added_eq]
    refine length_eq_ncard ((desired.nodup_keys).filter _) fun url => ?_
    rw [List.mem_filter, UrlSet.mem_keys, HashTable.containsKey, HashTable.containsKey,
      Bool.not_eq_true', Option.isSome_eq_false_iff, Option.isNone_iff_eq_none]

/-! ## Runs -/

/-- A step other than discovery's keeps the index well formed. -/
lemma ServerOp.wellFormed_serve (hasher : Option UInt64 → List Char → UInt64) (fl : F64.Rounding)
    (router : Router) (op : ServerOp) {s : Shared} (hwf : s.prefixIndex.WellFormed) :
    (op.serve hasher fl router s).prefixIndex.WellFormed := by
  cases op with
  | chat clock request =>
    exact (RoutingCall.chat clock request).wellFormed_program hasher fl router hwf
  | phase clock pool chain =>
    exact (RoutingCall.phase clock pool chain).wellFormed_program hasher fl router hwf
  | probe worker healthy =>
    rw [ServerOp.serve, alone_applyProbe]
    dsimp only
    split_ifs
    · exact hwf.removeWorker worker
    · exact hwf
  | evict order now ttl maxEntries =>
    have hevict := hwf.evict order now ttl maxEntries
    rw [ServerOp.serve]
    dsimp only
    exact hevict

namespace Server

variable (hasher : Option UInt64 → List Char → UInt64) (fl : F64.Rounding) (router : Router)

/-- Every step keeps the index well formed. -/
lemma wellFormed_step (server : Server) (step : ServerStep)
    (hwf : server.shared.prefixIndex.WellFormed) :
    (server.step hasher fl router step).shared.prefixIndex.WellFormed := by
  cases step with
  | op op => exact op.wellFormed_serve hasher fl router hwf
  | reconcile order desired =>
    obtain ⟨ids, -, hindex⟩ := prefixIndex_reconcile order server.discovered desired server.shared
    rw [step, hindex]
    exact Runs.foldl_inv (fun _ id h => h.removeWorker id) hwf ids

/-- The index of a server is well formed in every run. -/
theorem wellFormed_foldl_step (config : RouterConfig) (steps : List ServerStep) :
    (steps.foldl (Server.step hasher fl router) (.new config)).shared.prefixIndex.WellFormed :=
  Runs.foldl_inv (I := fun server => server.shared.prefixIndex.WellFormed)
    (fun server step => wellFormed_step hasher fl router server step) .new steps

end Server

/-- **The exact effect of a reconciliation.**  In every state that reconciliations, routing calls,
health probes and sweeps can reach from a freshly built server, for every wanted set and whatever
the iteration orders: a reconciliation does `ReconcilesExactly`.

**Proof sketch.** Registrations are in order in every run (`Server.Sound`), and the index is well
formed, so the two loops do what `reconciled_reconcile` says of the table and the registry, and
what `prefixIndex_reconcile` says of the index; a second reconciliation finds nothing to do. -/
theorem reconcile_exact (hasher : Option UInt64 → List Char → UInt64) (fl : F64.Rounding)
    (config : RouterConfig) (steps : List ServerStep) (order : IterOrder String)
    (desired : UrlSet) :
    let server := steps.foldl (Server.step hasher fl (.new config)) (.new config)
    let result := (reconcile order server.discovered desired).alone server.shared
    ReconcilesExactly server desired result.2.removed result.2.added
      ⟨result.1, result.2.discovered⟩ := by
  intro server result
  have hsound : server.Sound :=
    Runs.foldl_inv (fun _ step h => h.step hasher fl (.new config) step) (.new config) steps
  exact reconcilesExactly_reconcile order server desired hsound.registrations
    (Server.wellFormed_foldl_step hasher fl (.new config) config steps)

end KvRoute
