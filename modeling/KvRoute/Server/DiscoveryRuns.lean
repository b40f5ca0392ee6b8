import KvRoute.Server.State

set_option relaxedAutoImplicit false
set_option autoImplicit false

/-!
# Runs of worker discovery

Discovery over any number of watch sessions: `run_discovery` calls `watch_once` again and again
with the same table of discovered workers, each session keeps its own map of slices, and the
rest of the server goes on in between.

Next to the code's state a run carries what the watcher has told so far (`WatchView`): the
slices that are live, across sessions, and how far the listing of the session is.  The view
decides which events the watcher can send, and what a slice still advertises.

## Main definitions

* `KvRoute.WatchView` — the live slices and the phase of the stream.
* `KvRoute.Watch`, `Watch.step` — the server, the session's slices and the view.
* `Watch.Admissible` — the order of events within a session.
* `Watch.NeverDropped` — a step keeps every discovered worker that is still advertised.
* `Watch.InitEmpty`, `Watch.FitsTracker` — the conditions under which steps do what they should.

## Main results

* `KvRoute.discovery_keeps_advertised_iff` — advertised workers are kept exactly as long as no
  listing starts while a worker is discovered.
* `KvRoute.discovery_tracks_ids_iff` — registered ids stay within the tracker exactly as long as
  the room that is left for new ones suffices.
-/

namespace KvRoute

/-- How far a session's stream is. -/
inductive WatchPhase where
  /-- Nothing has been received. -/
  | idle
  /-- The listing has started. -/
  | listing
  /-- The listing is complete. -/
  | synced
deriving DecidableEq, Repr

/-- What the watcher has told. -/
structure WatchView where
  /-- The phase of the session's stream. -/
  phase : WatchPhase
  /-- The live slices and the URLs they advertise, as last told in any session. -/
  live : SliceMap
  /-- The slices of the session's listing so far. -/
  relisted : List String

namespace WatchView

/-- Before the first session. -/
def new : WatchView := ⟨.idle, .empty, []⟩

/-- A new session starts; what is live is not affected. -/
def restart (view : WatchView) : WatchView := { view with phase := .idle, relisted := [] }

/-- An event arrives.  A complete listing shows that the slices it did not contain are gone. -/
def observe (view : WatchView) : WatchEvent → WatchView
  | .init => { view with phase := .listing, relisted := [] }
  | .initApply slice =>
    { view with live := view.live.insert slice.nameAny (endpointUrls slice),
                relisted := slice.nameAny :: view.relisted }
  | .initDone =>
    { view with phase := .synced,
                live := view.live.retain fun name urls =>
                  if name ∈ view.relisted then some urls else none }
  | .apply slice => { view with live := view.live.insert slice.nameAny (endpointUrls slice) }
  | .delete slice => { view with live := view.live.remove slice.nameAny }

/-- The events that can come next: a listing with every slice once, then changes. -/
def CanSend (view : WatchView) : WatchEvent → Prop
  | .init => view.phase = .idle
  | .initApply slice => view.phase = .listing ∧ slice.nameAny ∉ view.relisted
  | .initDone => view.phase = .listing
  | .apply _ | .delete _ => view.phase = .synced

end WatchView

/-- A map of slices has a slice of this name that lists the URL. -/
def SliceMap.Lists (slices : SliceMap) (name url : String) : Prop :=
  ∃ urls : UrlSet, slices.get name = some urls ∧ urls.containsKey url = true

/-- The wanted set of a map is what its slices list. -/
theorem SliceMap.containsKey_desired (slices : SliceMap) (url : String) :
    slices.desired.containsKey url = true ↔ ∃ name, slices.Lists name url := by
  rw [desired, UrlSet.containsKey_ofList, List.mem_flatMap]
  constructor
  · rintro ⟨⟨name, urls⟩, hmem, hurl⟩
    exact ⟨name, urls, (HashTable.mem_toList _).mp hmem, (UrlSet.mem_keys _ _).mp hurl⟩
  · rintro ⟨name, urls, hget, hurl⟩
    exact ⟨(name, urls), (HashTable.mem_toList _).mpr hget, (UrlSet.mem_keys _ _).mpr hurl⟩

/-- The server, the slices of the session, and what the watcher has told. -/
structure Watch where
  /-- The server. -/
  server : Server
  /-- The slices known in the session. -/
  slices : SliceMap
  /-- What the watcher has told. -/
  view : WatchView

/-- A step of a run of discovery. -/
inductive WatchStep where
  /-- The rest of the server does something. -/
  | op (op : ServerOp)
  /-- The session has ended or failed, and `watch_once` is called again. -/
  | session
  /-- An event arrives and is processed. -/
  | event (order : IterOrder String) (event : WatchEvent)

namespace Watch

/-- A freshly built server, before the first session. -/
def new (config : RouterConfig) : Watch := ⟨.new config, .empty, .new⟩

section Step

variable (hasher : Option UInt64 → List Char → UInt64) (fl : F64.Rounding) (router : Router)

/-- One step. -/
def step (w : Watch) : WatchStep → Watch
  | .op op => { w with server.shared := op.serve hasher fl router w.server.shared }
  | .session => { w with slices := .empty, view := w.view.restart }
  | .event order event =>
    let result := (handleEvent order w.slices w.server.discovered event).alone w.server.shared
    ⟨⟨result.1, result.2.2⟩, result.2.1, w.view.observe event⟩

end Step

/-- The steps that can come next. -/
def Admissible (w : Watch) : WatchStep → Prop
  | .event _ event => w.view.CanSend event
  | _ => True

end Watch

/-- One turn of the loop of `watch_once`, run alone. -/
theorem alone_handleEvent (order : IterOrder String) (slices : SliceMap)
    (discovered : DiscoveredWorkers) (event : WatchEvent) (s : Shared) :
    (handleEvent order slices discovered event).alone s =
      let result := (reconcile order discovered (slices.update event).desired).alone s
      ({ result.1 with
          inflight :=
            if result.2.removed + result.2.added > 0 then
              result.1.inflight.ensureCapacity (result.2.discovered.byUrl.len + trackerHeadroom)
            else result.1.inflight },
        slices.update event, result.2.discovered) := by
  rw [handleEvent, Thread.alone_bind]
  dsimp only
  split_ifs with h
  · rfl
  · rfl

/-! ## What slices list -/

theorem SliceMap.lists_insert {slices : SliceMap} {slice name url : String} {urls : UrlSet} :
    SliceMap.Lists (slices.insert slice urls) name url ↔
      if name = slice then urls.containsKey url = true else slices.Lists name url := by
  rw [Lists, HashTable.get_insert]
  split_ifs with h
  · simp
  · rfl

theorem SliceMap.lists_remove {slices : SliceMap} {slice name url : String} :
    SliceMap.Lists (slices.remove slice) name url ↔ name ≠ slice ∧ slices.Lists name url := by
  rw [Lists, HashTable.get_remove]
  split_ifs with h
  · simp [h]
  · simp [h, Lists]

theorem SliceMap.lists_retain {slices : SliceMap} {names : List String} {name url : String} :
    SliceMap.Lists (slices.retain fun name urls => if name ∈ names then some urls else none) name
      url ↔ name ∈ names ∧ slices.Lists name url := by
  rw [Lists, HashTable.get_retain, Lists]
  by_cases h : name ∈ names
  · cases slices.get name <;> simp [h]
  · cases slices.get name <;> simp [h]

/-- The slices that an event can stop listing URLs: the one it is about, or those that a
complete listing did not contain.  The start of a listing says nothing about any slice. -/
def WatchView.MayStop (view : WatchView) (name : String) : WatchEvent → Prop
  | .apply slice | .initApply slice | .delete slice => name = slice.nameAny
  | .initDone => name ∉ view.relisted
  | .init => False

/-- An event withdraws a URL: it stops a live slice from listing the URL, and no live slice lists
it any more. -/
def WatchView.Withdraws (view : WatchView) (event : WatchEvent) (url : String) : Prop :=
  (∃ name, view.live.Lists name url ∧ view.MayStop name event) ∧
    ¬∃ name, (view.observe event).live.Lists name url

/-- Only the slices that an event may stop are stopped. -/
theorem WatchView.mayStop_of_lists {view : WatchView} {event : WatchEvent} {name url : String}
    (h : view.live.Lists name url) (h' : ¬(view.observe event).live.Lists name url) :
    view.MayStop name event := by
  cases event with
  | init => exact h' h
  | initApply slice =>
    by_contra hne
    exact h' (SliceMap.lists_insert.mpr (by rwa [if_neg (show ¬name = slice.nameAny from hne)]))
  | initDone => exact fun hmem => h' (SliceMap.lists_retain.mpr ⟨hmem, h⟩)
  | apply slice =>
    by_contra hne
    exact h' (SliceMap.lists_insert.mpr (by rwa [if_neg (show ¬name = slice.nameAny from hne)]))
  | delete slice =>
    by_contra hne
    exact h' (SliceMap.lists_remove.mpr ⟨hne, h⟩)

namespace Watch

/-- One event, in terms of the reconciliation it makes. -/
theorem step_event (hasher : Option UInt64 → List Char → UInt64) (fl : F64.Rounding)
    (router : Router) {w : Watch}
    (h : Registrations w.server.shared.registry w.server.discovered)
    (order : IterOrder String) (event : WatchEvent) :
    ∃ result s', Reconciled w.server.discovered (w.slices.update event).desired w.server.shared
        result s' ∧
      w.step hasher fl router (.event order event) =
        ⟨⟨{ s' with
              inflight :=
                if result.removed + result.added > 0 then
                  s'.inflight.ensureCapacity (result.discovered.byUrl.len + trackerHeadroom)
                else s'.inflight }, result.discovered⟩,
          w.slices.update event, w.view.observe event⟩ := by
  refine ⟨_, _, reconciled_reconcile order w.server.discovered (w.slices.update event).desired
    w.server.shared h, ?_⟩
  rw [step, alone_handleEvent]

/-! ## Advertised workers are kept -/

/-- A discovered worker keeps its id, its entry in the registry with its health, and its index
entries with their times. -/
def Keeps (w w' : Watch) (url : String) (id : WorkerId) : Prop :=
  w'.server.discovered.byUrl.get url = some id ∧
    w'.server.shared.registry.workers.get id = w.server.shared.registry.workers.get id ∧
    ∀ h, w'.server.shared.prefixIndex.belief id h = w.server.shared.prefixIndex.belief id h

section Keeping

variable (hasher : Option UInt64 → List Char → UInt64) (fl : F64.Rounding) (router : Router)

/-- A step drops no discovered worker without reason: an event keeps it unless it withdraws its
URL, a new session keeps it, and the rest of the server leaves it registered. -/
def NeverDropped (w : Watch) (a : WatchStep) : Prop :=
  ∀ url id, w.server.discovered.byUrl.get url = some id →
    match a with
    | .event _ event =>
      w.Keeps (w.step hasher fl router a) url id ∨ w.view.Withdraws event url
    | .session => w.Keeps (w.step hasher fl router a) url id
    | .op _ =>
      (w.step hasher fl router a).server.discovered.byUrl.get url = some id ∧
        (w.step hasher fl router a).server.shared.registry.get id = w.server.shared.registry.get id

/-- The condition on one step: a listing starts only while no worker is discovered. -/
def InitEmpty (w : Watch) : WatchStep → Prop
  | .event _ .init => ∀ url, w.server.discovered.byUrl.get url = none
  | _ => True

/-- The invariant: discovery has registered exactly what live slices list, and the session's map
lists, once the listing has started, what live slices list. -/
structure InStep (w : Watch) : Prop where
  /-- The registrations are in order. -/
  registrations : Registrations w.server.shared.registry w.server.discovered
  /-- The discovered URLs are the advertised ones. -/
  discovered_iff : ∀ url, (∃ id, w.server.discovered.byUrl.get url = some id) ↔
    ∃ name, w.view.live.Lists name url
  /-- Before the listing the session knows no slice. -/
  idle : w.view.phase = .idle → ∀ name, w.slices.get name = none
  /-- From then on it knows what live slices list. -/
  lists_iff : w.view.phase ≠ .idle → ∀ name url,
    w.slices.Lists name url ↔ w.view.live.Lists name url
  /-- During the listing it knows relisted slices only. -/
  relisted : w.view.phase = .listing → ∀ name url, w.slices.Lists name url →
    name ∈ w.view.relisted

variable {hasher fl router} {w : Watch}

theorem inStep_new (config : RouterConfig) : (Watch.new config).InStep where
  registrations := .new config
  discovered_iff _ := iff_of_false (fun ⟨_, h⟩ => nomatch h) fun ⟨_, _, h, _⟩ => nomatch h
  idle _ _ := rfl
  lists_iff h := absurd rfl h
  relisted h := nomatch h

/-- After an event the session's map lists what live slices list, provided that nothing was
discovered when the listing started. -/
theorem InStep.lists_update_iff (h : w.InStep) {order : IterOrder String} {event : WatchEvent}
    (hsend : w.view.CanSend event) (hempty : w.InitEmpty (.event order event))
    (name url : String) :
    (w.slices.update event).Lists name url ↔ (w.view.observe event).live.Lists name url := by
  cases event with
  | init =>
    refine iff_of_false (fun ⟨urls, hget, _⟩ => ?_) fun hlive => ?_
    · rw [SliceMap.update, h.idle hsend] at hget
      cases hget
    · obtain ⟨id, hid⟩ := (h.discovered_iff url).mpr ⟨name, hlive⟩
      rw [hempty url] at hid
      cases hid
  | initApply slice =>
    rw [SliceMap.update, WatchView.observe, SliceMap.lists_insert, SliceMap.lists_insert,
      h.lists_iff (by rw [hsend.1]; decide)]
  | initDone =>
    have hlists := h.lists_iff (by rw [show w.view.phase = .listing from hsend]; decide) name url
    rw [SliceMap.update, WatchView.observe, SliceMap.lists_retain, ← hlists]
    exact ⟨fun hl => ⟨h.relisted hsend name url hl, hl⟩, fun hl => hl.2⟩
  | apply slice =>
    rw [SliceMap.update, WatchView.observe, SliceMap.lists_insert, SliceMap.lists_insert,
      h.lists_iff (by rw [show w.view.phase = .synced from hsend]; decide)]
  | delete slice =>
    rw [SliceMap.update, WatchView.observe, SliceMap.lists_remove, SliceMap.lists_remove,
      h.lists_iff (by rw [show w.view.phase = .synced from hsend]; decide)]

/-- After an event the listing has started. -/
theorem phase_observe_ne_idle {view : WatchView} {event : WatchEvent}
    (hsend : view.CanSend event) : (view.observe event).phase ≠ .idle := by
  cases event with
  | init => exact nofun
  | initApply slice => exact fun h => nomatch hsend.1.symm.trans h
  | initDone => exact nofun
  | apply slice => exact fun h => nomatch hsend.symm.trans h
  | delete slice => exact fun h => nomatch hsend.symm.trans h

/-- An event that satisfies the condition keeps the registrations in step with the slices. -/
theorem InStep.event (h : w.InStep) {order : IterOrder String} {event : WatchEvent}
    (hsend : w.view.CanSend event) (hempty : w.InitEmpty (.event order event)) :
    (w.step hasher fl router (.event order event)).InStep := by
  have hlists := h.lists_update_iff hsend hempty
  obtain ⟨result, s', hr, heq⟩ := step_event hasher fl router h.registrations order event
  rw [heq]
  refine
    { registrations := hr.registrations
      discovered_iff := ?discovered_iff
      idle := fun hidle => absurd hidle (phase_observe_ne_idle hsend)
      lists_iff := fun _ => hlists
      relisted := ?relisted }
  case discovered_iff =>
    intro url
    dsimp only
    rw [hr.discovered_iff, SliceMap.containsKey_desired]
    simp only [hlists]
  case relisted =>
    -- only the start of a listing and its slices leave the stream listing
    intro hphase name url hl
    cases event with
    | init =>
      rw [SliceMap.update, SliceMap.Lists] at hl
      obtain ⟨urls, hget, -⟩ := hl
      rw [h.idle hsend] at hget
      cases hget
    | initApply slice =>
      by_cases hname : name = slice.nameAny
      · exact List.mem_cons.mpr (Or.inl hname)
      · have hold := SliceMap.lists_insert.mp hl
        rw [if_neg hname] at hold
        exact List.mem_cons_of_mem _ (h.relisted hsend.1 name url hold)
    | initDone => cases hphase
    | apply slice => exact nomatch hsend.symm.trans hphase
    | delete slice => exact nomatch hsend.symm.trans hphase

/-- Steps that satisfy the condition keep the invariant. -/
theorem InStep.step (h : w.InStep) (a : WatchStep) (hadm : w.Admissible a)
    (hempty : w.InitEmpty a) : (w.step hasher fl router a).InStep := by
  cases a with
  | op op =>
    have hkept := op.kept_serve hasher fl router w.server.shared
    exact ⟨hkept.registrations _ h.registrations, h.discovered_iff, h.idle, h.lists_iff,
      h.relisted⟩
  | session =>
    exact ⟨h.registrations, h.discovered_iff, fun _ _ => rfl, fun hne => absurd rfl hne, nofun⟩
  | event order event => exact h.event hadm hempty

/-- A discovered worker whose URL the session's slices still list after an event is kept. -/
theorem keeps_of_desired (h : Registrations w.server.shared.registry w.server.discovered)
    {order : IterOrder String} {event : WatchEvent} {url : String} {id : WorkerId}
    (hid : w.server.discovered.byUrl.get url = some id)
    (hurl : (w.slices.update event).desired.containsKey url = true) :
    w.Keeps (w.step hasher fl router (.event order event)) url id := by
  obtain ⟨result, s', hr, heq⟩ := step_event hasher fl router h order event
  -- nobody else has the id, so it is not dropped under another URL
  have hkeep : ∀ u, (w.slices.update event).desired.containsKey u = false →
      w.server.discovered.byUrl.get u ≠ some id := by
    intro u hu hget
    rw [h.injective hget hid, hurl] at hu
    cases hu
  rw [heq]
  exact ⟨hr.kept url id hurl hid, hr.workers_eq id (h.id_lt hid) hkeep,
    hr.belief_eq id hkeep⟩

/-- The start of a listing reconciles with no slice at all, so it keeps nobody. -/
theorem InStep.not_keeps_init (h : w.InStep) (hsend : w.view.CanSend .init)
    (order : IterOrder String) (url : String) (id : WorkerId) :
    ¬w.Keeps (w.step hasher fl router (.event order .init)) url id := by
  intro hkeeps
  obtain ⟨result, s', hr, heq⟩ := step_event hasher fl router h.registrations order .init
  have hget := hkeeps.1
  rw [heq] at hget
  obtain ⟨name, urls, hslice, -⟩ :=
    (SliceMap.containsKey_desired _ _).mp ((hr.discovered_iff url).mp ⟨id, hget⟩)
  rw [SliceMap.update, h.idle hsend] at hslice
  cases hslice

/-- A step drops no advertised worker exactly when it satisfies the condition.

**Proof sketch.** The start of a listing reconciles with no slice at all, so it drops every
discovered worker, while it says nothing about any slice.  After any other event the session
lists what live slices list, so that a worker is dropped only if no live slice lists its URL any
more; one did before, and only slices that the event may stop are stopped. -/
theorem InStep.neverDropped_iff (h : w.InStep) (a : WatchStep) (hadm : w.Admissible a) :
    w.NeverDropped hasher fl router a ↔ w.InitEmpty a := by
  cases a with
  | op op =>
    have hkept := op.kept_serve hasher fl router w.server.shared
    exact iff_of_true (fun _ id hid => ⟨hid, hkept.worker_eq id⟩) trivial
  | session => exact iff_of_true (fun _ _ hid => ⟨hid, rfl, fun _ => rfl⟩) trivial
  | event order event =>
    constructor
    · intro hnever
      cases event with
      | init =>
        intro url
        by_contra hurl
        obtain ⟨id, hid⟩ := Option.ne_none_iff_exists'.mp hurl
        rcases hnever url id hid with hkeeps | ⟨⟨_, _, hstop⟩, -⟩
        · exact h.not_keeps_init hadm order url id hkeeps
        · exact hstop
      | initApply slice => trivial
      | initDone => trivial
      | apply slice => trivial
      | delete slice => trivial
    · intro hempty url id hid
      have hlists := h.lists_update_iff hadm hempty
      by_cases hurl : (w.slices.update event).desired.containsKey url = true
      · exact Or.inl (keeps_of_desired h.registrations hid hurl)
      · have hgone : ¬∃ name, (w.view.observe event).live.Lists name url := by
          rintro ⟨name, hlive⟩
          exact hurl ((SliceMap.containsKey_desired _ _).mpr ⟨name, (hlists name url).mpr hlive⟩)
        obtain ⟨name, hlive⟩ := (h.discovered_iff url).mp ⟨id, hid⟩
        have hstop := WatchView.mayStop_of_lists hlive fun hl => hgone ⟨name, hl⟩
        exact Or.inr ⟨⟨name, hlive, hstop⟩, hgone⟩

end Keeping

end Watch

/-- **When advertised workers are kept.**  In every run of discovery from a freshly built server,
over any number of sessions and with anything else going on in between, no step drops a
discovered worker that is still advertised, exactly when every listing starts while no worker is
discovered.

**Proof sketch.** `Watch.InStep` holds before the first session and is kept by the steps that
satisfy the condition (`InStep.step`); under it the condition on one step is equivalent to what
the step should do (`InStep.neverDropped_iff`). -/
theorem discovery_keeps_advertised_iff (hasher : Option UInt64 → List Char → UInt64)
    (fl : F64.Rounding) (router : Router) (config : RouterConfig) (run : List WatchStep)
    (hrun : Runs.Along (Watch.step hasher fl router) Watch.Admissible (.new config) run) :
    Runs.Along (Watch.step hasher fl router) (Watch.NeverDropped hasher fl router) (.new config)
        run ↔
      Runs.Along (Watch.step hasher fl router) Watch.InitEmpty (.new config) run :=
  Runs.along_iff_of_inv (fun _ a h hadm hempty => h.step a hadm hempty)
    (fun _ a h hadm => h.neverDropped_iff a hadm) hrun (Watch.inStep_new config)

/-- A slice with one ready endpoint. -/
def workersSlice : EndpointSlice := ⟨"workers-1", some [some 8001], [⟨["10.0.0.1"], none⟩]⟩

/-- The first session: the slice is listed. -/
def firstListing : List WatchStep :=
  [.event .held .init, .event .held (.initApply workersSlice), .event .held .initDone]

theorem admissible_firstListing :
    Runs.Along (Watch.step defaultHasher .exact (.new oneWorker)) Watch.Admissible
      (.new oneWorker) firstListing :=
  ⟨rfl, ⟨rfl, List.not_mem_nil⟩, rfl, trivial⟩

/-- One session lists one slice, starting with nothing discovered. -/
theorem discovery_keeps_advertised_iff_first_listing :
    Runs.Along (Watch.step defaultHasher .exact (.new oneWorker))
      (Watch.NeverDropped defaultHasher .exact (.new oneWorker)) (.new oneWorker) firstListing :=
  (discovery_keeps_advertised_iff defaultHasher .exact (.new oneWorker) oneWorker firstListing
    admissible_firstListing).mpr ⟨fun _ => rfl, trivial, trivial, trivial⟩

/-- The session ends and a new one starts: the worker is dropped although its slice is live, and
comes back under a new id. -/
theorem discovery_drops_advertised :
    let steps := firstListing ++ [.session, .event .held .init]
    let w := steps.foldl (Watch.step defaultHasher .exact (.new oneWorker)) (.new oneWorker)
    let w' := w.step defaultHasher .exact (.new oneWorker)
      (.event .held (.initApply workersSlice))
    Runs.Along (Watch.step defaultHasher .exact (.new oneWorker)) Watch.Admissible
        (.new oneWorker) steps ∧
      w.view.live.Lists "workers-1" "http://10.0.0.1:8001" ∧
      w.server.discovered.byUrl.get "http://10.0.0.1:8001" = none ∧
      w.server.shared.registry.get 1 = none ∧
      w'.server.discovered.byUrl.get "http://10.0.0.1:8001" = some 2 ∧
      ¬Runs.Along (Watch.step defaultHasher .exact (.new oneWorker))
        (Watch.NeverDropped defaultHasher .exact (.new oneWorker)) (.new oneWorker) steps := by
  intro steps w w'
  have hgone : w.server.discovered.byUrl.get "http://10.0.0.1:8001" = none := by decide +kernel
  refine ⟨⟨rfl, ⟨rfl, List.not_mem_nil⟩, rfl, trivial, rfl, trivial⟩,
    ⟨endpointUrls workersSlice, rfl, by decide +kernel⟩, hgone,
    by decide +kernel, by decide +kernel, fun hnever => ?_⟩
  have hinit : Runs.Along _ _ _ ((firstListing ++ [.session]) ++ .event .held .init :: []) := hnever
  have hstep := hinit.at_step
  rcases hstep "http://10.0.0.1:8001" 1 (by decide +kernel) with hkeeps | hwithdraws
  · exact nomatch hgone.symm.trans hkeeps.1
  · obtain ⟨⟨_, _, hstop⟩, -⟩ := hwithdraws
    exact hstop

/-! ## Registered ids are tracked -/

namespace Watch

/-- Every registered id is below the length of the in-flight tracker. -/
def Tracked (w : Watch) : Prop :=
  ∀ id state, w.server.shared.registry.workers.get id = some state →
    id < w.server.shared.inflight.counts.length

/-- The URLs that an event asks discovery to register. -/
def newUrls (w : Watch) (event : WatchEvent) : List String :=
  (w.slices.update event).desired.keys.filter fun url =>
    !w.server.discovered.byUrl.containsKey url

/-- The condition on one step: an event asks for no new worker, or the ids up to the last new one
fit into the tracker as it is, or as resized for the advertised URLs. -/
def FitsTracker (w : Watch) : WatchStep → Prop
  | .event _ event => w.newUrls event = [] ∨
      w.server.shared.registry.nextId + (w.newUrls event).length ≤
        max w.server.shared.inflight.counts.length
          ((w.slices.update event).desired.len + trackerHeadroom)
  | _ => True

section Tracking

variable {hasher : Option UInt64 → List Char → UInt64} {fl : F64.Rounding} {router : Router}
variable {w : Watch}

theorem tracked_new (config : RouterConfig) : (Watch.new config).Tracked := by
  intro id state hget
  have hlt := (WorkerRegistry.wellFormed_fromConfig config.workers).id_lt hget
  have hlen : (InflightTracker.withCapacity config.workers.length).counts.length =
      config.workers.length := by simp [InflightTracker.withCapacity]
  exact lt_of_lt_of_eq hlt hlen.symm

/-- The rest of the server leaves registered ids tracked. -/
theorem Tracked.op (h : w.Tracked) (op : ServerOp) :
    (w.step hasher fl router (.op op)).Tracked := by
  have hkept := op.kept_serve hasher fl router w.server.shared
  intro id state hget
  have hworker := hkept.worker_eq id
  rw [WorkerRegistry.get, WorkerRegistry.get,
    show (op.serve hasher fl router w.server.shared).registry.workers.get id = some state from
      hget] at hworker
  obtain ⟨state', hget', -⟩ := Option.map_eq_some_iff.mp hworker.symm
  have hlt := h id state' hget'
  have hinflight : (w.step hasher fl router (.op op)).server.shared.inflight =
      w.server.shared.inflight := hkept.inflight_eq
  rwa [hinflight]

/-- A worker that was registered before a reconciliation and still is was tracked before. -/
theorem Tracked.lt_of_reconciled (h : w.Tracked) {desired : UrlSet} {result : ReconcileResult}
    {s' : Shared} (hr : Reconciled w.server.discovered desired w.server.shared result s')
    {id : WorkerId} {state : WorkerState} (hlt : id < w.server.shared.registry.nextId)
    (hget : s'.registry.workers.get id = some state) :
    id < w.server.shared.inflight.counts.length := by
  have hkeep : ∀ url, desired.containsKey url = false →
      w.server.discovered.byUrl.get url ≠ some id := by
    intro url hurl hid
    rw [hr.unregistered url id hurl hid] at hget
    cases hget
  rw [hr.workers_eq id hlt hkeep] at hget
  exact h id state hget

/-- An event never shrinks the tracker, and resizes it for the advertised URLs if it asks for new
workers. -/
theorem length_event (hreg : Registrations w.server.shared.registry w.server.discovered)
    (order : IterOrder String) (event : WatchEvent) :
    w.server.shared.inflight.counts.length ≤
        (w.step hasher fl router (.event order event)).server.shared.inflight.counts.length ∧
      (w.newUrls event ≠ [] →
        (w.step hasher fl router (.event order event)).server.shared.inflight.counts.length =
          max w.server.shared.inflight.counts.length
            ((w.slices.update event).desired.len + trackerHeadroom)) := by
  obtain ⟨result, s', hr, heq⟩ := step_event hasher fl router hreg order event
  have hadded : result.added = (w.newUrls event).length := hr.added_eq
  rw [heq]
  dsimp only
  rw [hr.inflight_eq, hr.len_eq]
  constructor
  · split_ifs
    · rw [InflightTracker.length_ensureCapacity]
      exact le_max_left _ _
    · exact le_rfl
  · intro hnew
    have hpos : 0 < (w.newUrls event).length := List.length_pos_iff.mpr hnew
    rw [if_pos (by omega), InflightTracker.length_ensureCapacity]

/-- After an event registered ids are tracked exactly when the new ones fit.

**Proof sketch.** What was registered before is still below the tracker's length, which never
shrinks.  The newly registered ids are the next ones of the allocator, all of them registered at
the end; and when there are any, the tracker has been resized for as many workers as there are
advertised URLs. -/
theorem Tracked.event_iff (h : w.Tracked)
    (hreg : Registrations w.server.shared.registry w.server.discovered)
    (order : IterOrder String) (event : WatchEvent) :
    (w.step hasher fl router (.event order event)).Tracked ↔
      w.FitsTracker (.event order event) := by
  obtain ⟨hgrows, hresized⟩ := @length_event hasher fl router w hreg order event
  obtain ⟨result, s', hr, heq⟩ := step_event hasher fl router hreg order event
  have hadded : result.added = (w.newUrls event).length := hr.added_eq
  have hnext := hr.nextId_eq
  have hregistry : (w.step hasher fl router (.event order event)).server.shared.registry =
      s'.registry := by rw [heq]
  constructor
  · intro htracked
    by_cases hnew : w.newUrls event = []
    · exact Or.inl hnew
    · right
      have hpos : 0 < (w.newUrls event).length := List.length_pos_iff.mpr hnew
      -- the last new id is registered
      obtain ⟨url, hget⟩ := hr.fresh (w.server.shared.registry.nextId + result.added - 1)
        (by lia) (by lia)
      have hlt := htracked (w.server.shared.registry.nextId + result.added - 1)
        ⟨⟨_, url, .both⟩, false⟩ (by rw [hregistry]; exact hget)
      rw [hresized hnew] at hlt
      rw [← hadded]
      lia
  · intro hfits id state hget
    rw [hregistry] at hget
    by_cases hlt : id < w.server.shared.registry.nextId
    · exact lt_of_lt_of_le (h.lt_of_reconciled hr hlt hget) hgrows
    · have hid := hr.registrations.wellFormed.id_lt hget
      have hnew : w.newUrls event ≠ [] := List.ne_nil_of_length_pos (by lia)
      rw [hresized hnew]
      have hfits := hfits.resolve_left hnew
      lia

/-- Every step keeps discovery's registrations in order. -/
theorem registrations_step (h : Registrations w.server.shared.registry w.server.discovered)
    (a : WatchStep) :
    Registrations (w.step hasher fl router a).server.shared.registry
      (w.step hasher fl router a).server.discovered := by
  cases a with
  | op op => exact (op.kept_serve hasher fl router w.server.shared).registrations _ h
  | session => exact h
  | event order event =>
    obtain ⟨result, s', hr, heq⟩ := step_event hasher fl router h order event
    rw [heq]
    exact hr.registrations

/-- A step leaves registered ids tracked exactly when it satisfies the condition. -/
theorem Tracked.step_iff (h : w.Tracked)
    (hreg : Registrations w.server.shared.registry w.server.discovered) (a : WatchStep) :
    (w.step hasher fl router a).Tracked ↔ w.FitsTracker a := by
  cases a with
  | op op => exact iff_of_true (h.op op) trivial
  | session => exact iff_of_true h trivial
  | event order event => exact h.event_iff hreg order event

end Tracking

end Watch

/-- **When registered ids are tracked.**  In every run from a freshly built server, whatever the
static workers, the sessions and the events, every registered id is below the length of the
in-flight tracker after every step, exactly when the new ids of every event fit into the tracker
as it is or as it is resized for the advertised URLs.

**Proof sketch.** Registrations in order and tracked ids are an invariant of the steps that
satisfy the condition, and under it the condition is equivalent to tracked ids after the step
(`Tracked.step_iff`). -/
theorem discovery_tracks_ids_iff (hasher : Option UInt64 → List Char → UInt64)
    (fl : F64.Rounding) (router : Router) (config : RouterConfig) (run : List WatchStep) :
    Runs.Along (Watch.step hasher fl router)
        (fun w a => (w.step hasher fl router a).Tracked) (.new config) run ↔
      Runs.Along (Watch.step hasher fl router) Watch.FitsTracker (.new config) run := by
  refine Runs.along_iff_of_inv (A := fun _ _ => True)
    (I := fun w => Registrations w.server.shared.registry w.server.discovered ∧ w.Tracked)
    (fun w a h _ hfits => ⟨Watch.registrations_step h.1 a, (h.2.step_iff h.1 a).mpr hfits⟩)
    (fun w a h _ => h.2.step_iff h.1 a) (Runs.along_of_forall fun _ _ _ _ => trivial)
    ⟨Registrations.new config, Watch.tracked_new config⟩

/-- Seventeen static workers. -/
def seventeenWorkers : RouterConfig :=
  { workers := List.replicate 17 ⟨"http://a:8001", .both⟩, routingPolicy := .roundRobin }

/-- The first discovered worker gets an id that the tracker has no slot for, so that its requests
are not counted: the tracker is resized for one discovered worker and sixteen more, and the
static workers fill that already. -/
theorem discovery_loses_id :
    let w := firstListing.foldl (Watch.step defaultHasher .exact (.new seventeenWorkers))
      (.new seventeenWorkers)
    w.server.shared.registry.workers.get 17 =
        some ⟨⟨17, "http://10.0.0.1:8001", .both⟩, false⟩ ∧
      w.server.shared.inflight.counts.length = 17 ∧
      (w.server.shared.inflight.increment 17).count 17 = 0 ∧ ¬w.Tracked := by
  intro w
  have hget : w.server.shared.registry.workers.get 17 =
      some ⟨⟨17, "http://10.0.0.1:8001", .both⟩, false⟩ := by decide +kernel
  have hlen : w.server.shared.inflight.counts.length = 17 := by decide +kernel
  exact ⟨hget, hlen, by decide +kernel,
    fun htracked => absurd (htracked 17 _ hget) (by rw [hlen]; decide)⟩

end KvRoute
