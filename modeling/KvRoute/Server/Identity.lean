import KvRoute.Server.Tasks

set_option relaxedAutoImplicit false
set_option autoImplicit false

/-!
# Worker ids are never reused

"A replacement worker must never inherit the cache affinity (or in-flight accounting) keyed to a
removed one."  Ids come from the allocator, reach the index and the counters through snapshots that
requests keep, and come back to the registry through health probes that may outlive the worker.

## Main definitions

* `KvRoute.running` — requests and background tasks over one shared state.
* `ServerEvent.Uses` — a label uses a worker id.
* `KvRoute.Entered`, `KvRoute.Removed` — an id has belonged to a worker, and has been taken from it.
* `KvRoute.Identity` — what the trace says about the ids in the shared state.

## Main results

* `Identity.step` — every section keeps it.
* `KvRoute.replacement_never_inherits` — a registered id is new, unlisted and uncounted until a
  request is routed to it, and never registered again once it has been removed.
-/

namespace KvRoute

open ThreadPool

/-! ## What sections do to ids -/

namespace Access

variable {l : Access} {r : WorkerRegistry} {id : WorkerId}

/-- Where a registered worker comes from. -/
theorem get_onRegistry_eq_some {state : WorkerState}
    (h : (l.onRegistry r).workers.get id = some state) :
    (∃ old, r.workers.get id = some old ∧ state.worker = old.worker) ∨
      ∃ url pool, l = .register id url pool ∧ state.worker.id = id := by
  cases l with
  | setHealthy worker healthy =>
    change (r.setHealthy worker healthy).1.workers.get id = some state at h
    rw [WorkerRegistry.get_setHealthy] at h
    split_ifs at h with hid
    · obtain ⟨old, hold, rfl⟩ := Option.map_eq_some_iff.mp h
      exact Or.inl ⟨old, hid ▸ hold, rfl⟩
    · exact Or.inl ⟨state, h, rfl⟩
  | register worker url pool =>
    change (r.insertWorker worker url pool).workers.get id = some state at h
    rw [WorkerRegistry.get_insertWorker] at h
    split_ifs at h with hid
    · cases h
      exact Or.inr ⟨url, pool, by rw [hid], hid.symm⟩
    · exact Or.inl ⟨state, h, rfl⟩
  | unregister worker =>
    change (r.removeWorker worker).1.workers.get id = some state at h
    rw [WorkerRegistry.get_removeWorker] at h
    split_ifs at h
    exact Or.inl ⟨state, h, rfl⟩
  | _ => exact Or.inl ⟨state, h, rfl⟩

theorem nextId_onRegistry (l : Access) (r : WorkerRegistry) :
    (l.onRegistry r).nextId = if l = .allocate then r.nextId + 1 else r.nextId := by
  cases l with
  | setHealthy worker healthy => exact r.nextId_setHealthy worker healthy
  | _ => rfl

/-- Sections of the router count nobody. -/
theorem Effect.count_eq {s s' : Shared} (h : l.Effect s s') (id : WorkerId) :
    s'.inflight.count id = s.inflight.count id := by
  cases l with
  | resize workers =>
    obtain rfl := h
    exact InflightTracker.count_ensureCapacity _ workers id
  | snapshot healthy => rw [h.1]
  | touch hash =>
    obtain ⟨now, rfl⟩ := h
    rfl
  | write worker hash =>
    obtain ⟨now, rfl⟩ := h
    rfl
  | _ =>
    obtain rfl := h
    rfl

end Access

namespace ServerEvent

variable {s s' : Shared} {event : ServerEvent} {id : WorkerId}

theorem Effect.registry_eq {l : Access} (h : (access l).Effect s s') :
    s'.registry = l.onRegistry s.registry :=
  (Access.Effect.acts (show l.Effect s s' from h)).registry_eq

/-- Where a registered worker comes from. -/
theorem Effect.get_eq_some (h : event.Effect s s') {state : WorkerState}
    (hget : s'.registry.workers.get id = some state) :
    (∃ old, s.registry.workers.get id = some old ∧ state.worker = old.worker) ∨
      ∃ url pool, event = .access (.register id url pool) ∧ state.worker.id = id := by
  rcases h.cases with ⟨l, rfl, hl⟩ | ⟨worker, -, rfl⟩ | ⟨worker, -, rfl⟩ | rfl
  · rw [h.registry_eq] at hget
    refine (Access.get_onRegistry_eq_some hget).imp_right ?_
    rintro ⟨url, pool, rfl, hid⟩
    exact ⟨url, pool, rfl, hid⟩
  · exact Or.inl ⟨state, hget, rfl⟩
  · exact Or.inl ⟨state, hget, rfl⟩
  · exact Or.inl ⟨state, hget, rfl⟩

theorem Effect.nextId_le (h : event.Effect s s') : s.registry.nextId ≤ s'.registry.nextId := by
  rcases h.cases with ⟨l, rfl, hl⟩ | ⟨worker, -, rfl⟩ | ⟨worker, -, rfl⟩ | rfl
  · rw [h.registry_eq, Access.nextId_onRegistry]
    split_ifs
    · lia
    · exact le_rfl
  · exact le_rfl
  · exact le_rfl
  · exact le_rfl

/-- Where an index entry comes from. -/
theorem Effect.lists (h : event.Effect s s') {hash : UInt64}
    (hlists : s'.prefixIndex.lists id hash = true) :
    s.prefixIndex.lists id hash = true ∨ event = .access (.write id hash) := by
  rcases h.cases with ⟨l, rfl, hl⟩ | ⟨worker, -, rfl⟩ | ⟨worker, -, rfl⟩ | rfl
  · rw [hl.acts.lists_eq, Bool.or_eq_true, Bool.and_eq_true] at hlists
    rcases hlists with henters | ⟨hold, -⟩
    · exact Or.inr (congrArg access (Access.enters_iff.mp henters))
    · exact Or.inl hold
  · exact Or.inl hlists
  · exact Or.inl hlists
  · exact Or.inl hlists

/-- Where a count comes from. -/
theorem Effect.count (h : event.Effect s s') (hcount : s'.inflight.count id ≠ 0) :
    s.inflight.count id ≠ 0 ∨ event = .acquire id ∨ event = .release id := by
  rcases h.cases with ⟨l, rfl, hl⟩ | ⟨worker, rfl, rfl⟩ | ⟨worker, rfl, rfl⟩ | rfl
  · rw [hl.count_eq] at hcount
    exact Or.inl hcount
  · rw [InflightTracker.count_increment] at hcount
    split_ifs at hcount with hworker
    · exact Or.inr (Or.inl (by rw [hworker.1]))
    · exact Or.inl hcount
  · rw [InflightTracker.count_decrement] at hcount
    split_ifs at hcount with hworker
    · exact Or.inr (Or.inr (by rw [hworker.1]))
    · exact Or.inl hcount
  · exact Or.inl hcount

/-- The label of a thread that uses a worker: it finds the worker registered, selects it, enters it
in the registry or on a block, guards it, or sends to it. -/
def Uses (id : WorkerId) : ServerEvent → Prop
  | .access (.snapshot workers) | .listed workers => ∃ w ∈ workers, w.id = id
  | .access (.register worker _ _) | .access (.write worker _) => worker = id
  | .selected worker | .acquire worker | .release worker | .send _ worker _ => worker = id
  | _ => False

end ServerEvent

/-! ## Ids and the trace -/

/-- The id has belonged to a worker: it is one of the `n` static ids, or has been registered. -/
def Entered (n : ℕ) (events : List ServerEvent) (id : WorkerId) : Prop :=
  id < n ∨ ∃ url pool, .access (.register id url pool) ∈ events

/-- The id has been taken from the worker that it belonged to. -/
def Removed (n : ℕ) (events : List ServerEvent) (id : WorkerId) : Prop :=
  ∃ before after, events = before ++ .access (.unregister id) :: after ∧ Entered n before id

/-- The thread is about to enter a worker under the id, which it took from the allocator. -/
def Took (past : List (WorkerId × ServerEvent)) (id : WorkerId) : Prop :=
  past.getLast? = some (id, .access .allocate)

section Concat

variable {n : ℕ} {events : List ServerEvent} {event : ServerEvent} {id : WorkerId}

theorem entered_concat : Entered n (events ++ [event]) id ↔
    Entered n events id ∨ ∃ url pool, event = .access (.register id url pool) := by
  constructor
  · rintro (hstatic | ⟨url, pool, hmem⟩)
    · exact Or.inl (Or.inl hstatic)
    · rcases List.mem_append.mp hmem with hmem | hmem
      · exact Or.inl (Or.inr ⟨url, pool, hmem⟩)
      · exact Or.inr ⟨url, pool, (List.mem_singleton.mp hmem).symm⟩
  · rintro ((hstatic | ⟨url, pool, hmem⟩) | ⟨url, pool, rfl⟩)
    · exact Or.inl hstatic
    · exact Or.inr ⟨url, pool, by simp [hmem]⟩
    · exact Or.inr ⟨url, pool, by simp⟩

theorem Removed.entered (h : Removed n events id) : Entered n events id := by
  obtain ⟨before, after, rfl, hentered⟩ := h
  refine hentered.imp_right ?_
  rintro ⟨url, pool, hmem⟩
  exact ⟨url, pool, List.mem_append_left _ hmem⟩

theorem Removed.of_concat (h : Removed n (events ++ [event]) id) :
    Removed n events id ∨ event = .access (.unregister id) ∧ Entered n events id := by
  obtain ⟨before, after, heq, hentered⟩ := h
  rcases List.eq_nil_or_concat after with rfl | ⟨after, last, rfl⟩
  · obtain ⟨rfl, hlast⟩ := List.append_inj' heq rfl
    exact Or.inr ⟨(List.cons.inj hlast).1, hentered⟩
  · rw [List.concat_eq_append, ← List.cons_append, ← List.append_assoc] at heq
    obtain ⟨rfl, -⟩ := List.append_inj' heq rfl
    exact Or.inl ⟨before, after, rfl, hentered⟩

@[simp] theorem took_concat {past : List (WorkerId × ServerEvent)} {n : WorkerId} :
    Took (past ++ [(n, event)]) id ↔ n = id ∧ event = .access .allocate := by
  rw [Took, List.getLast?_concat, Option.some.injEq, Prod.mk.injEq]

end Concat

section Running

variable {ι : Type}

/-- The labels of an observed trace. -/
abbrev eventsOf (tr : List (ι × WorkerId × ServerEvent)) : List ServerEvent := tr.map fun e => e.2.2

variable [DecidableEq ι]

/-- What an observed trace says about the ids in the shared state, in a server that had `n` static
workers. -/
structure Identity (n : ℕ) (tr : List (ι × WorkerId × ServerEvent)) (s : Shared) : Prop where
  /-- An id that has belonged to a worker is allocated. -/
  entered_lt : ∀ id, Entered n (eventsOf tr) id → id < s.registry.nextId
  /-- An id that a thread is about to enter is allocated, and has belonged to nobody. -/
  took : ∀ i id, Took (labelsOf i tr) id → id < s.registry.nextId ∧ ¬Entered n (eventsOf tr) id
  /-- No two threads are about to enter the same id. -/
  took_inj : ∀ i j id, Took (labelsOf i tr) id → Took (labelsOf j tr) id → i = j
  /-- Registered workers have their own ids. -/
  registered : ∀ id state, s.registry.workers.get id = some state →
    state.worker.id = id ∧ Entered n (eventsOf tr) id
  /-- An id that has been used has belonged to a worker. -/
  used : ∀ event ∈ eventsOf tr, ∀ id, event.Uses id → Entered n (eventsOf tr) id
  /-- An id that is listed in the index has been recorded. -/
  listed : ∀ id hash, s.prefixIndex.lists id hash = true →
    .access (.write id hash) ∈ eventsOf tr
  /-- An id with a count has been guarded. -/
  counted : ∀ id, s.inflight.count id ≠ 0 → .acquire id ∈ eventsOf tr
  /-- A removed id is not registered. -/
  removed : ∀ id, Removed n (eventsOf tr) id → s.registry.workers.get id = none

theorem Identity.new (config : RouterConfig) :
    Identity config.workers.length ([] : List (ι × WorkerId × ServerEvent)) (.new config) where
  entered_lt id h := by
    rcases h with hstatic | ⟨url, pool, hmem⟩
    · exact hstatic
    · cases hmem
  took i id h := by cases h
  took_inj i j id h := by cases h
  registered id state hget := by
    have hwf := WorkerRegistry.wellFormed_fromConfig config.workers
    exact ⟨hwf.id_eq hget, Or.inl (hwf.id_lt hget)⟩
  used event hmem := by cases hmem
  listed id hash hlists := by cases hlists
  counted id hcount := absurd (InflightTracker.count_withCapacity _ id) hcount
  removed id h := by
    obtain ⟨before, after, heq, -⟩ := h
    cases before <;> cases heq

variable {n : ℕ} {tr : List (ι × WorkerId × ServerEvent)} {s s' : Shared} {i : ι} {id k : WorkerId}
  {event : ServerEvent}

theorem mem_eventsOf (h : event ∈ (labelsOf i tr).map Prod.snd) : event ∈ eventsOf tr := by
  obtain ⟨label, hlabel, rfl⟩ := List.mem_map.mp h
  exact List.mem_map.mpr ⟨_, mem_labelsOf.mp hlabel, rfl⟩

/-- A worker that a thread saw has been used. -/
theorem Identity.entered_of_saw (h : Identity n tr s)
    (hsaw : Saw ((labelsOf i tr).map Prod.snd) id) : Entered n (eventsOf tr) id := by
  obtain ⟨healthy, hmem, hworker⟩ := hsaw
  exact h.used _ (mem_eventsOf hmem) id hworker

/-- **Who is used has been entered.**  The registry has only workers that have been entered, and
threads use workers that they found there. -/
theorem Identity.entered_of_uses (h : Identity n tr s) (hrule : IdRule (labelsOf i tr) (k, event))
    (heffect : event.Effect s s') (huses : event.Uses id) :
    Entered n (eventsOf tr ++ [event]) id := by
  have hold : Entered n (eventsOf tr) id → Entered n (eventsOf tr ++ [event]) id := fun hentered =>
    entered_concat.mpr (Or.inl hentered)
  have hregistered : ∀ {id' state}, s.registry.workers.get id' = some state →
      state.worker.id = id → Entered n (eventsOf tr) id := by
    rintro id' state hget rfl
    obtain ⟨hid, hentered⟩ := h.registered id' state hget
    rw [hid]
    exact hentered
  cases event with
  | access l =>
    cases l with
    | snapshot healthy =>
      obtain ⟨-, rfl⟩ := heffect
      obtain ⟨w, hw, hid⟩ := huses
      obtain ⟨id', state, hget, -, rfl⟩ := WorkerRegistry.mem_healthyWorkers.mp hw
      exact hold (hregistered hget hid)
    | write worker hash =>
      obtain rfl : worker = id := huses
      exact hold (h.entered_of_saw hrule)
    | register worker url pool =>
      obtain rfl : worker = id := huses
      exact entered_concat.mpr (Or.inr ⟨url, pool, rfl⟩)
    | _ => exact absurd huses fun h => h
  | listed workers =>
    obtain ⟨-, rfl⟩ := heffect
    obtain ⟨w, hw, hid⟩ := huses
    obtain ⟨id', state, hget, rfl⟩ := WorkerRegistry.mem_allWorkers.mp hw
    exact hold (hregistered hget hid)
  | selected worker =>
    obtain rfl : worker = id := huses
    exact hold (h.entered_of_saw hrule)
  | acquire worker =>
    obtain rfl : worker = id := huses
    exact hold (h.used _ (mem_eventsOf hrule) worker rfl)
  | release worker =>
    obtain rfl : worker = id := huses
    exact hold (h.used _ (mem_eventsOf hrule) worker rfl)
  | send phase worker url =>
    obtain rfl : worker = id := huses
    exact hold (h.used _ (mem_eventsOf hrule) worker rfl)
  | _ => exact absurd huses fun h => h

/-- An id that is entered had belonged to nobody. -/
theorem Identity.not_entered (h : Identity n tr s) {url : String} {pool : Pool}
    (hrule : IdRule (labelsOf i tr) (k, .access (.register id url pool))) :
    ¬Entered n (eventsOf tr) id := (h.took i id hrule).2

/-- Who is about to enter an id after one more section: the thread that took it just now, or another
one that had taken it before. -/
theorem took_cases {j : ι} (h : Took (labelsOf j (tr ++ [(i, k, event)])) id) :
    j = i ∧ k = id ∧ event = .access .allocate ∨ j ≠ i ∧ Took (labelsOf j tr) id := by
  by_cases hj : j = i
  · subst hj
    rw [labelsOf_append, labelsOf_cons_self, labelsOf_nil, took_concat] at h
    exact Or.inl ⟨rfl, h⟩
  · rw [labelsOf_append, labelsOf_cons_of_ne (Ne.symm hj), labelsOf_nil, List.append_nil] at h
    exact Or.inr ⟨hj, h⟩

/-- Who is entered after one more section had been entered, or its thread had taken the id. -/
theorem entered_cases (hrule : IdRule (labelsOf i tr) (k, event))
    (h : Entered n (eventsOf tr ++ [event]) id) :
    Entered n (eventsOf tr) id ∨ Took (labelsOf i tr) id := by
  refine (entered_concat.mp h).imp_right ?_
  rintro ⟨url, pool, rfl⟩
  exact hrule

/-- An id that is taken now is past every id that was taken before. -/
theorem Identity.ne_nextId (h : Identity n tr s) (htook : Took (labelsOf i tr) id) :
    s.registry.nextId ≠ id := by
  have hlt := (h.took i id htook).1
  lia

/-- After one more section, ids that are about to be entered are allocated and have belonged to
nobody: the allocator is past everything that has been entered, and nobody else enters an id that a
thread has taken. -/
theorem Identity.took_step (h : Identity n tr s) (hrule : IdRule (labelsOf i tr) (k, event))
    (hk : k = s.registry.nextId) (heffect : event.Effect s s') {j : ι}
    (htook : Took (labelsOf j (tr ++ [(i, k, event)])) id) :
    id < s'.registry.nextId ∧ ¬Entered n (eventsOf tr ++ [event]) id := by
  rcases took_cases htook with ⟨rfl, rfl, rfl⟩ | ⟨hj, hold⟩
  · have hnext : s'.registry.nextId = s.registry.nextId + 1 := by
      rw [heffect.registry_eq, Access.nextId_onRegistry, if_pos rfl]
    refine ⟨by lia, fun hentered => ?_⟩
    rcases entered_concat.mp hentered with hold | ⟨url, pool, hregister⟩
    · have hlt := h.entered_lt k hold
      lia
    · cases hregister
  · obtain ⟨hlt, hnot⟩ := h.took j id hold
    have hle := heffect.nextId_le
    refine ⟨by lia, fun hentered => ?_⟩
    rcases entered_cases hrule hentered with hentered | htook'
    · exact hnot hentered
    · exact hj (h.took_inj j i id hold htook')

/-- After one more section, no two threads are about to enter the same id. -/
theorem Identity.took_inj_step (h : Identity n tr s) (hk : k = s.registry.nextId) {j j' : ι}
    (htook : Took (labelsOf j (tr ++ [(i, k, event)])) id)
    (htook' : Took (labelsOf j' (tr ++ [(i, k, event)])) id) : j = j' := by
  rcases took_cases htook with ⟨rfl, rfl, -⟩ | ⟨-, hold⟩
  · rcases took_cases htook' with ⟨rfl, -, -⟩ | ⟨-, hold'⟩
    · rfl
    · exact absurd hk.symm (h.ne_nextId hold')
  · rcases took_cases htook' with ⟨-, rfl, -⟩ | ⟨-, hold'⟩
    · exact absurd hk.symm (h.ne_nextId hold)
    · exact h.took_inj j j' id hold hold'

/-- A removed id stays unregistered: whoever is entered had belonged to nobody. -/
theorem Identity.removed_step (h : Identity n tr s) (hrule : IdRule (labelsOf i tr) (k, event))
    (heffect : event.Effect s s') (hremoved : Removed n (eventsOf tr ++ [event]) id) :
    s'.registry.workers.get id = none := by
  rcases hremoved.of_concat with hold | ⟨rfl, -⟩
  · by_contra hget
    obtain ⟨state, hstate⟩ := Option.ne_none_iff_exists'.mp hget
    rcases heffect.get_eq_some hstate with ⟨old, hgetold, -⟩ | ⟨url, pool, rfl, -⟩
    · exact nomatch (h.removed id hold).symm.trans hgetold
    · exact h.not_entered hrule hold.entered
  · rw [heffect.registry_eq]
    show (s.registry.removeWorker id).1.workers.get id = none
    rw [WorkerRegistry.get_removeWorker, if_pos rfl]

/-- **One section.**  What the trace says about ids it goes on saying.

**Proof sketch.** An id is taken from the allocator, which is past everything that has been
entered, and entered by the thread that took it, so it is entered once.  Whoever uses a worker
found it in the registry before, and the index and the counters only have workers that were
used. -/
theorem Identity.step (h : Identity n tr s) (hrule : IdRule (labelsOf i tr) (k, event))
    (hk : k = s.registry.nextId) (heffect : event.Effect s s') :
    Identity n (tr ++ [(i, k, event)]) s' := by
  have hevents : eventsOf (tr ++ [(i, k, event)]) = eventsOf tr ++ [event] := List.map_append
  have hmem : ∀ {event'}, event' ∈ eventsOf tr → event' ∈ eventsOf tr ++ [event] :=
    fun hmem => List.mem_append_left _ hmem
  have hlast : event ∈ eventsOf tr ++ [event] := by simp
  constructor
  case entered_lt =>
    intro id hid
    rw [hevents] at hid
    have hle := heffect.nextId_le
    rcases entered_cases hrule hid with hold | htook
    · have hlt := h.entered_lt id hold
      lia
    · have hlt := (h.took i id htook).1
      lia
  case took =>
    intro j id htook
    rw [hevents]
    exact h.took_step hrule hk heffect htook
  case took_inj =>
    intro j j' id htook htook'
    exact h.took_inj_step hk htook htook'
  case registered =>
    intro id state hget
    rw [hevents, entered_concat]
    rcases heffect.get_eq_some hget with ⟨old, hold, hworker⟩ | ⟨url, pool, hregister, hid⟩
    · obtain ⟨hid, hentered⟩ := h.registered id old hold
      exact ⟨by rw [hworker, hid], Or.inl hentered⟩
    · exact ⟨hid, Or.inr ⟨url, pool, hregister⟩⟩
  case used =>
    intro event' hevent' id huses
    rw [hevents] at hevent' ⊢
    rcases List.mem_append.mp hevent' with hold | hnew
    · exact entered_concat.mpr (Or.inl (h.used event' hold id huses))
    · obtain rfl := List.mem_singleton.mp hnew
      exact h.entered_of_uses hrule heffect huses
  case listed =>
    intro id hash hlists
    rw [hevents]
    rcases heffect.lists hlists with hold | rfl
    · exact hmem (h.listed id hash hold)
    · exact hlast
  case counted =>
    intro id hcount
    rw [hevents]
    rcases heffect.count hcount with hold | rfl | rfl
    · exact hmem (h.counted id hold)
    · exact hlast
    · exact hmem (mem_eventsOf hrule)
  case removed =>
    intro id hremoved
    rw [hevents] at hremoved
    exact h.removed_step hrule heffect hremoved

end Running

/-! ## Requests and background tasks among each other -/

section Server

variable {ι : Type} (hasher : Option UInt64 → List Char → UInt64) (fl : F64.Rounding)
  (showStatus : ℕ → String) (router : Router)

/-- Requests and background tasks over one shared state. -/
def running (tasks : ι → Task) (s : Shared) : ThreadPool ι Shared ServerEvent (Option WorkerId) :=
  ⟨s, fun i => (tasks i).program hasher fl showStatus router⟩

variable {hasher fl showStatus router} [DecidableEq ι] {config : RouterConfig} {tasks : ι → Task}

/-- What the trace says about the ids, after any execution. -/
theorem identity_run {tr : List (ι × WorkerId × ServerEvent)}
    {p' : ThreadPool ι Shared (WorkerId × ServerEvent) (Option WorkerId)}
    (h : ((running hasher fl showStatus router tasks (.new config)).observe allocator).Exec tr p') :
    Identity config.workers.length tr p'.shared := by
  induction tr using List.reverseRecOn generalizing p' with
  | nil =>
    cases h
    exact Identity.new config
  | append_singleton tr e ih =>
    obtain ⟨i, k, event⟩ := e
    have hrule : IdRule (labelsOf i tr) (k, event) :=
      h.rule_of_mem ((tasks i).registers hasher fl showStatus router).follows
    obtain ⟨q, q', hq, ⟨hk, heffect⟩, hrest, -⟩ :=
      h.at_label fun j => ((tasks j).registers hasher fl showStatus router).acts.observe allocator
    cases hrest
    exact (ih hq).step hrule hk heffect

variable {tr : List (ι × ServerEvent)} {p' : ThreadPool ι Shared ServerEvent (Option WorkerId)}

/-- The same, without the observations. -/
theorem exists_identity
    (h : (running hasher fl showStatus router tasks (.new config)).Exec tr p') :
    ∃ tr' : List (ι × WorkerId × ServerEvent), Identity config.workers.length tr' p'.shared ∧
      tr.map Prod.snd = eventsOf tr' := by
  obtain ⟨tr', hexec, rfl⟩ := h.observe allocator
  exact ⟨tr', identity_run hexec, List.map_map⟩

/-- When a worker is entered, its id has belonged to nobody. -/
theorem not_entered_of_register {before after : List (ι × ServerEvent)} {i : ι} {id : WorkerId}
    {url : String} {pool : Pool}
    (h : (running hasher fl showStatus router tasks (.new config)).Exec
      (before ++ (i, .access (.register id url pool)) :: after) p') :
    ¬Entered config.workers.length (before.map Prod.snd) id ∧
      ∀ e ∈ before, ¬e.2.Uses id := by
  obtain ⟨tr', hexec, htr⟩ := h.observe allocator
  obtain ⟨before', rest, rfl, rfl, hrest⟩ := List.map_eq_append_iff.mp htr.symm
  obtain ⟨⟨j, k, event⟩, after', rfl, heq, rfl⟩ := List.map_eq_cons_iff.mp hrest
  obtain ⟨rfl, rfl⟩ := Prod.mk.inj heq
  have hrule : IdRule (labelsOf _ before') (k, .access (.register id url pool)) :=
    hexec.rule_of_mem ((tasks _).registers hasher fl showStatus router).follows
  obtain ⟨q, hbefore, -⟩ := hexec.split
  have hidentity := identity_run hbefore
  have hnot := hidentity.not_entered hrule
  rw [List.map_map]
  refine ⟨hnot, fun e he huses => hnot ?_⟩
  obtain ⟨e', he', rfl⟩ := List.mem_map.mp he
  exact hidentity.used _ (List.mem_map_of_mem he') id huses

/-- A registration has entered a worker under the id that it returns. -/
theorem register_mem_of_done
    (h : (running hasher fl showStatus router tasks (.new config)).Exec tr p') {i : ι}
    {id : WorkerId} (hdone : p'.threads i = .done (some id)) :
    ∃ url pool, (i, .access (.register id url pool)) ∈ tr := by
  obtain ⟨tr', hexec, rfl⟩ := h.observe allocator
  have hend := hexec.follows ((tasks i).registers hasher fl showStatus router).follows
  have hobserved : (p'.observe allocator).threads i = .done (some id) := by
    show (p'.threads i).observe allocator = _
    rw [hdone]
    rfl
  rw [hobserved] at hend
  obtain ⟨k, url, pool, hmem⟩ := hend id rfl
  exact ⟨url, pool, List.mem_map.mpr ⟨_, mem_labelsOf.mp hmem, rfl⟩⟩

/-- A label that uses a registered id comes after the registration. -/
theorem mem_after_of_uses {before after : List (ι × ServerEvent)} {i : ι} {id : WorkerId}
    {url : String} {pool : Pool}
    (h : (running hasher fl showStatus router tasks (.new config)).Exec
      (before ++ (i, .access (.register id url pool)) :: after) p') (event : ServerEvent)
    (huses : event.Uses id) (hne : event ≠ .access (.register id url pool))
    (hmem : event ∈ (before ++ (i, .access (.register id url pool)) :: after).map Prod.snd) :
    ∃ e ∈ after, e.2 = event := by
  obtain ⟨e, he, rfl⟩ := List.mem_map.mp hmem
  rcases List.mem_append.mp he with hbefore | hrest
  · exact absurd huses ((not_entered_of_register h).2 e hbefore)
  · rcases List.mem_cons.mp hrest with rfl | hafter
    · exact absurd rfl hne
    · exact ⟨e, hafter, rfl⟩

/-- **A replacement never inherits.**  Let any number of requests, health polls, discovery loops,
reconciliations and calls of the registry's operations run over a fresh server, in any order.

* A registration has entered a worker under the id that it returns.
* The id of a worker that is entered is no static id, and nobody has used it before: it was not in
  a snapshot or a list of workers, nobody selected it, recorded it or held a guard on it, and no
  worker had been entered under it.  From then on it is listed nowhere until a request records it,
  and counted nowhere until a request acquires a guard on it.
* Once it is removed, an id that has belonged to a worker stays unregistered, and a late
  `set_healthy` returns `false` and changes nothing.

**Proof sketch.** `Identity.step` says of one section, and `identity_run` of a whole run, that ids
are entered once and that only entered ids are used; the index and the counters have only ids
that were recorded or guarded. -/
theorem replacement_never_inherits
    (h : (running hasher fl showStatus router tasks (.new config)).Exec tr p') :
    (∀ i id, p'.threads i = .done (some id) →
      ∃ url pool, (i, .access (.register id url pool)) ∈ tr) ∧
    (∀ before i id url pool after, tr = before ++ (i, .access (.register id url pool)) :: after →
      config.workers.length ≤ id ∧ (∀ e ∈ before, ¬e.2.Uses id) ∧
      ((∀ e ∈ after, ∀ hash, e.2 ≠ .access (.write id hash)) →
        ∀ hash, p'.shared.prefixIndex.lists id hash = false) ∧
      ((∀ e ∈ after, e.2 ≠ .acquire id) → p'.shared.inflight.count id = 0)) ∧
    ∀ before i id after, tr = before ++ (i, .access (.unregister id)) :: after →
      Entered config.workers.length (before.map Prod.snd) id →
      p'.shared.registry.get id = none ∧
        ∀ healthy, p'.shared.registry.setHealthy id healthy = (p'.shared.registry, false) := by
  refine ⟨fun i id hdone => register_mem_of_done h hdone, ?fresh, ?removed⟩
  case fresh =>
    rintro before i id url pool after rfl
    obtain ⟨hnot, hunused⟩ := not_entered_of_register h
    obtain ⟨tr', hidentity, htr⟩ := exists_identity h
    refine ⟨not_lt.mp fun hstatic => hnot (Or.inl hstatic), hunused, fun hwrite hash => ?_,
      fun hacquire => ?_⟩
    · by_contra hlists
      have hmem := hidentity.listed id hash (by simpa using hlists)
      rw [← htr] at hmem
      obtain ⟨e, he, heq⟩ := mem_after_of_uses h (.access (.write id hash)) rfl nofun hmem
      exact hwrite e he hash heq
    · by_contra hcount
      have hmem := hidentity.counted id hcount
      rw [← htr] at hmem
      obtain ⟨e, he, heq⟩ := mem_after_of_uses h (.acquire id) rfl nofun hmem
      exact hacquire e he heq
  case removed =>
    rintro before i id after rfl hentered
    obtain ⟨tr', hidentity, htr⟩ := exists_identity h
    have hremoved : Removed config.workers.length (eventsOf tr') id :=
      ⟨before.map Prod.snd, after.map Prod.snd, by rw [← htr, List.map_append, List.map_cons],
        hentered⟩
    have hget := hidentity.removed id hremoved
    exact ⟨by rw [WorkerRegistry.get, hget]; rfl, WorkerRegistry.setHealthy_of_get_eq_none hget⟩

end Server

/-! ## A poll that outlives its worker -/

/-- A registration, a health poll and a removal of the registered worker. -/
def lateTasks : Fin 3 → Task
  | 0 => .registerWorker "http://b:8001" .both
  | 1 => .pollHealth [fun _ => true]
  | 2 => .removeWorker 1

/-- The server of these tasks. -/
def latePool : ThreadPool (Fin 3) Shared ServerEvent (Option WorkerId) :=
  running defaultHasher .exact toString (.new oneWorker) lateTasks (.new oneWorker)

/-- The poll lists both workers, the second one is removed, and the poll goes on. -/
def lateRun : List (Fin 3 × ServerEvent) ×
    ThreadPool (Fin 3) Shared ServerEvent (Option WorkerId) :=
  latePool.run [0, 0, 1, 2, 1, 1]

theorem lateRun_trace : lateRun.1 =
    [(0, .access .allocate), (0, .access (.register 1 "http://b:8001" .both)),
      (1, .listed [⟨0, "http://a:8001", .both⟩, ⟨1, "http://b:8001", .both⟩]),
      (2, .access (.unregister 1)), (1, .access (.setHealthy 0 true)),
      (1, .access (.setHealthy 1 true))] := rfl

/-- The poll has found the registered worker up, and changes nothing. -/
theorem replacement_never_inherits_late_probe :
    (∀ hash, lateRun.2.shared.prefixIndex.lists 1 hash = false) ∧
      lateRun.2.shared.inflight.count 1 = 0 ∧ lateRun.2.shared.registry.get 1 = none ∧
      lateRun.2.shared.registry.setHealthy 1 true = (lateRun.2.shared.registry, false) := by
  have hexec : latePool.Exec lateRun.1 lateRun.2 := ThreadPool.exec_run _ _
  obtain ⟨-, hfresh, hremoved⟩ := replacement_never_inherits hexec
  rw [lateRun_trace] at hfresh hremoved
  obtain ⟨-, -, hlists, hcount⟩ := hfresh [(0, .access .allocate)] 0 1 "http://b:8001" .both _ rfl
  obtain ⟨hget, hprobe⟩ := hremoved [(0, .access .allocate), _, _] 2 1 _ rfl
    (Or.inr ⟨"http://b:8001", .both, List.mem_of_getElem? (i := 1) rfl⟩)
  exact ⟨hlists (by simp), hcount (by simp), hget, hprobe true⟩

end KvRoute
