import KvRoute.Core.Sections
import KvRoute.Server.Api

set_option relaxedAutoImplicit false
set_option autoImplicit false

/-!
# What handlers do

The parts of the request handlers, whatever other threads do in between: which labels each part
leaves, in view of the history of the request, and that every section does what its label says.

## Main definitions

* `ServerEvent.Serves`, `ServerEvent.ServesPrefill` — the labels of the parts.
* `ServerEvent.Effect` — what a section does to the shared state.
* `Serve.Acts` — every section of a program does what its label says.

## Main results

* `Router.follows_serveFrom` — whatever comes of a request, its guard is dropped in the end.
* `Router.follows_servePrefill` — when a handler goes on after the prefill phase.
* `ServeRequest.acts` — every section of a handler does what its label says.
-/

namespace KvRoute

/-! ## The parts of a handler, whatever the others do -/

section Follows

variable {rule : List ServerEvent → ServerEvent → Prop} {K K' : List ServerEvent → Prop}
  {past : List ServerEvent}

theorem Serve.follows_note (event : ServerEvent) (h : rule past event ∧ K (past ++ [event])) :
    (Serve.note event).Follows rule (fun _ past => K past) past :=
  Thread.follows_critical fun _ => h

theorem Serve.follows_acquire (worker : WorkerId)
    (h : rule past (.acquire worker) ∧ K (past ++ [.acquire worker])) :
    (Serve.acquire worker).Follows rule (fun _ past => K past) past :=
  Thread.follows_critical fun _ => h

theorem Serve.follows_release (worker : WorkerId)
    (h : rule past (.release worker) ∧ K (past ++ [.release worker])) :
    (Serve.release worker).Follows rule (fun _ past => K past) past :=
  Thread.follows_critical fun _ => h

theorem Serve.follows_recordAll (hpast : K past)
    (hK : ∀ past entry, K past → rule past (.record entry) ∧ K (past ++ [.record entry]))
    (entries : List Recorded) :
    (Serve.recordAll entries).Follows rule (fun _ past => K past) past := by
  induction entries generalizing past with
  | nil => exact Thread.follows_done hpast
  | cons entry entries ih =>
    exact (Serve.follows_note _ (hK past entry hpast)).bind fun _ past hpast => ih hpast

/-- The labels that the end of a handler leaves while the guard is held. -/
def ServerEvent.Serves (phase : Option Pool) (worker : WorkerId) : ServerEvent → Prop
  | .send p w _ => p = phase ∧ w = worker
  | .rejected .. | .record _ | .deliver _ => True
  | _ => False

/-- The labels of the prefill phase. -/
def ServerEvent.ServesPrefill (worker : WorkerId) : ServerEvent → Prop
  | .send phase w _ => phase = some .prefill ∧ w = worker
  | .record _ | .drainError _ _ => True
  | _ => False

/-- Sending the response stream to the client records and delivers. -/
theorem Serve.follows_deliverAll {phase : Option Pool} {worker : WorkerId} (hpast : K past)
    (hK : ∀ past l, K past → l.Serves phase worker → rule past l ∧ K (past ++ [l]))
    (clocks : List (ℕ → Instant)) (state : ProxyStreamState) :
    (Serve.deliverAll clocks state).Follows rule (fun _ past => K past) past := by
  have hrecord : ∀ past entry, K past → rule past (.record entry) ∧ K (past ++ [.record entry]) :=
    fun past entry hpast => hK past (.record entry) hpast trivial
  induction clocks generalizing state past with
  | nil => exact Thread.follows_done hpast
  | cons clock clocks ih =>
    unfold Serve.deliverAll
    cases state.poll clock with
    | item item recorded state =>
      refine (Serve.follows_recordAll hpast hrecord recorded).bind fun _ past hpast => ?_
      refine (Serve.follows_note _ (hK past (.deliver item) hpast trivial)).bind
        fun _ past hpast => ?_
      exact ih hpast state
    | finished recorded => exact Serve.follows_recordAll hpast hrecord recorded

namespace Router

variable {showStatus : ℕ → String} {router : Router} {call : ServeCall}

/-- A selection that failed is logged and recorded. -/
theorem follows_serveUnrouted (pool : Option Pool) (error : RouterError) (hpast : K past)
    (hK : ∀ past l, K past → (∃ pool error, l = .unrouted pool error) ∨ (∃ e, l = .record e) →
      rule past l ∧ K (past ++ [l])) :
    (router.serveUnrouted pool error).Follows rule (fun _ past => K past) past := by
  refine (Serve.follows_note _ (hK past _ hpast (Or.inl ⟨pool, error, rfl⟩))).bind
    fun _ past hpast => ?_
  exact (Serve.follows_note _ (hK past _ hpast (Or.inr ⟨_, rfl⟩))).bind
    fun _ past hpast => Thread.follows_done hpast

/-- **The end of a handler.**  What holds of the history while the guard is held leads to what
holds once it is dropped, which happens whatever comes of the request. -/
theorem follows_serveFrom {phase : Option Pool} {failure : String} {decision : RouteDecision}
    {details : CompletionDetails} (hpast : K past)
    (hK : ∀ past l, K past → l.Serves phase decision.worker.id → rule past l ∧ K (past ++ [l]))
    (hrelease : ∀ past, K past → rule past (.release decision.worker.id) ∧
      K' (past ++ [.release decision.worker.id])) :
    (router.serveFrom showStatus call phase failure decision details).Follows rule
      (fun _ past => K' past) past := by
  have hreturn : ∀ served past, K past →
      (do Serve.release decision.worker.id; pure served : Serve Served).Follows rule
        (fun _ past => K' past) past := fun served past hpast =>
    (Serve.follows_release _ (hrelease past hpast)).bind fun _ _ h => Thread.follows_done h
  have hnote : ∀ past event, event.Serves phase decision.worker.id → K past →
      (Serve.note event).Follows rule (fun _ past => K past) past :=
    fun past event hevent hpast => Serve.follows_note event (hK past event hpast hevent)
  unfold serveFrom
  refine (hnote past (.send phase _ _) ⟨rfl, rfl⟩ hpast).bind fun _ past hpast => ?_
  cases call.send with
  | none => exact hreturn _ past hpast
  | some outcome =>
    cases outcome with
    | error error =>
      exact (hnote past (.record _) trivial hpast).bind fun _ past hpast => hreturn _ past hpast
    | ok upstream =>
      dsimp only
      split_ifs
      · cases buildResponse upstream _ (prefixHitHeader upstream)
          (completionTokensHeader upstream) call.stream with
        | ok response =>
          exact (Serve.follows_deliverAll hpast hK call.polls response.body).bind
            fun _ past hpast => hreturn _ past hpast
        | error error => exact hreturn _ past hpast
      · refine (hnote past (.rejected phase _ _) trivial hpast).bind fun _ past hpast => ?_
        exact (hnote past (.record _) trivial hpast).bind fun _ past hpast => hreturn _ past hpast

/-- **The prefill phase.**  The handler goes on only after a success whose body was drained, to its
end or until it broke. -/
theorem follows_servePrefill (worker : Worker) (hpast : K past)
    (hK : ∀ past l, K past → l.ServesPrefill worker.id → rule past l ∧ K (past ++ [l])) :
    (router.servePrefill showStatus call worker).Follows rule (fun returned past => K past ∧
      (returned = none → ∃ response, call.prefill = some (.ok response) ∧
        response.isSuccess = true ∧ drain response.body call.leaves ≠ .abandoned)) past := by
  have hnote : ∀ past event, event.ServesPrefill worker.id → K past →
      (Serve.note event).Follows rule (fun _ past => K past) past :=
    fun past event hevent hpast => Serve.follows_note event (hK past event hpast hevent)
  unfold servePrefill
  refine (hnote past (.send (some .prefill) _ _) ⟨rfl, rfl⟩ hpast).bind fun _ past hpast => ?_
  cases hprefill : call.prefill with
  | none => exact Thread.follows_done ⟨hpast, nofun⟩
  | some outcome =>
    cases outcome with
    | error error =>
      exact (hnote past (.record _) trivial hpast).bind
        fun _ past hpast => Thread.follows_done ⟨hpast, nofun⟩
    | ok response =>
      dsimp only
      split_ifs with hsuccess
      · have hdrained : drain response.body call.leaves ≠ .abandoned →
            ∃ response', some (.ok response) = (some (.ok response') : Option (Except String _)) ∧
              response'.isSuccess = true ∧ drain response'.body call.leaves ≠ .abandoned :=
          fun hne => ⟨response, rfl, hsuccess, hne⟩
        cases hdrain : drain response.body call.leaves with
        | abandoned => exact Thread.follows_done ⟨hpast, nofun⟩
        | ended => exact Thread.follows_done ⟨hpast, fun _ => hdrained (by rw [hdrain]; nofun)⟩
        | broken error =>
          exact (hnote past (.drainError _ _) trivial hpast).bind fun _ past hpast =>
            Thread.follows_done ⟨hpast, fun _ => hdrained (by rw [hdrain]; nofun)⟩
      · exact (hnote past (.record _) trivial hpast).bind
          fun _ past hpast => Thread.follows_done ⟨hpast, nofun⟩

end Router

end Follows

/-! ## What the sections do -/

/-- What a section does to the shared state: sections of the router do what their labels say, guards
count, and everything else leaves the state alone. -/
def ServerEvent.Effect (s : Shared) (event : ServerEvent) (s' : Shared) : Prop :=
  match event with
  | .access l => l.Effect s s'
  | .listed workers => s' = s ∧ workers = s.registry.allWorkers
  | .acquire worker => s' = { s with inflight := s.inflight.increment worker }
  | .release worker => s' = { s with inflight := s.inflight.decrement worker }
  | _ => s' = s

/-- The parts of the shared state that a section can change: what its router label says, or one
counter, or nothing. -/
theorem ServerEvent.Effect.cases {s s' : Shared} {event : ServerEvent} (h : event.Effect s s') :
    (∃ l, event = .access l ∧ l.Effect s s') ∨
      (∃ worker, event = .acquire worker ∧
        s' = { s with inflight := s.inflight.increment worker }) ∨
      (∃ worker, event = .release worker ∧
        s' = { s with inflight := s.inflight.decrement worker }) ∨ s' = s := by
  cases event with
  | access l => exact Or.inl ⟨l, rfl, h⟩
  | acquire worker => exact Or.inr (Or.inl ⟨worker, rfl, h⟩)
  | release worker => exact Or.inr (Or.inr (Or.inl ⟨worker, rfl, h⟩))
  | listed workers => exact Or.inr (Or.inr (Or.inr h.1))
  | _ => exact Or.inr (Or.inr (Or.inr h))

section Each

/-- Every section of the program does what its label says. -/
abbrev Serve.Acts {α : Type} (t : Serve α) : Prop :=
  t.Each (fun s event s' => event.Effect s s') fun _ => True

variable {α β : Type}

theorem Serve.acts_pure (a : α) : (pure a : Serve α).Acts := trivial

theorem Serve.Acts.bind {t : Serve α} {f : α → Serve β} (ht : t.Acts) (hf : ∀ a, (f a).Acts) :
    (t >>= f).Acts := Thread.Each.bind ht fun a _ => hf a

theorem Serve.acts_relabel {φ : Access → Prop} {ψ : α → Prop} {t : Program α}
    (ht : t.Traces φ ψ) : Serve.Acts (t.relabel .access) :=
  Thread.Each.relabel (ht.mono (fun _ _ _ h => h.1) fun _ _ => trivial)

theorem Serve.acts_acquire (worker : WorkerId) : (Serve.acquire worker).Acts :=
  Thread.each_critical fun _ => ⟨rfl, trivial⟩

theorem Serve.acts_release (worker : WorkerId) : (Serve.release worker).Acts :=
  Thread.each_critical fun _ => ⟨rfl, trivial⟩

theorem Serve.acts_recordAll (entries : List Recorded) : (Serve.recordAll entries).Acts := by
  induction entries with
  | nil => exact acts_pure ()
  | cons entry entries ih => exact Acts.bind (fun _ => ⟨rfl, trivial⟩) fun _ => ih

theorem Serve.acts_deliverAll (clocks : List (ℕ → Instant)) (state : ProxyStreamState) :
    (Serve.deliverAll clocks state).Acts := by
  induction clocks generalizing state with
  | nil => exact acts_pure ()
  | cons clock clocks ih =>
    unfold deliverAll
    cases state.poll clock with
    | item item recorded state =>
      refine (acts_recordAll recorded).bind fun _ => ?_
      exact Acts.bind (fun _ => ⟨rfl, trivial⟩) fun _ => ih state
    | finished recorded => exact acts_recordAll recorded

namespace Router

variable {hasher : Option UInt64 → List Char → UInt64} {fl : F64.Rounding}
  {showStatus : ℕ → String} {router : Router}

theorem acts_serveUnrouted (pool : Option Pool) (error : RouterError) :
    (router.serveUnrouted pool error).Acts :=
  Serve.Acts.bind (fun _ => ⟨rfl, trivial⟩) fun _ =>
    Serve.Acts.bind (fun _ => ⟨rfl, trivial⟩) fun _ => Serve.acts_pure _

theorem acts_serveFrom (call : ServeCall) (phase : Option Pool) (failure : String)
    (decision : RouteDecision) (details : CompletionDetails) :
    (router.serveFrom showStatus call phase failure decision details).Acts := by
  have hreturn : ∀ served : Served,
      (do Serve.release decision.worker.id; pure served : Serve Served).Acts := fun served =>
    (Serve.acts_release _).bind fun _ => Serve.acts_pure served
  unfold serveFrom
  refine Serve.Acts.bind (fun _ => ⟨rfl, trivial⟩) fun _ => ?_
  cases call.send with
  | none => exact hreturn _
  | some outcome =>
    cases outcome with
    | error error => exact Serve.Acts.bind (fun _ => ⟨rfl, trivial⟩) fun _ => hreturn _
    | ok upstream =>
      dsimp only
      split_ifs
      · cases buildResponse upstream _ (prefixHitHeader upstream)
          (completionTokensHeader upstream) call.stream with
        | ok response => exact (Serve.acts_deliverAll _ _).bind fun _ => hreturn _
        | error error => exact hreturn _
      · refine Serve.Acts.bind (fun _ => ⟨rfl, trivial⟩) fun _ => ?_
        exact Serve.Acts.bind (fun _ => ⟨rfl, trivial⟩) fun _ => hreturn _

theorem acts_servePrefill (call : ServeCall) (worker : Worker) :
    (router.servePrefill showStatus call worker).Acts := by
  unfold servePrefill
  refine Serve.Acts.bind (fun _ => ⟨rfl, trivial⟩) fun _ => ?_
  cases call.prefill with
  | none => exact Serve.acts_pure _
  | some outcome =>
    cases outcome with
    | error error => exact Serve.Acts.bind (fun _ => ⟨rfl, trivial⟩) fun _ => Serve.acts_pure _
    | ok response =>
      dsimp only
      split_ifs
      · cases drain response.body call.leaves with
        | abandoned => exact Serve.acts_pure _
        | ended => exact Serve.acts_pure _
        | broken error => exact Serve.Acts.bind (fun _ => ⟨rfl, trivial⟩) fun _ => Serve.acts_pure _
      · exact Serve.Acts.bind (fun _ => ⟨rfl, trivial⟩) fun _ => Serve.acts_pure _

theorem acts_serveDecode (call : ServeCall) (chain : List UInt64) (prefill : Worker)
    (decode : RouteDecision) : (router.serveDecode showStatus call chain prefill decode).Acts := by
  unfold serveDecode
  refine Serve.Acts.bind (fun _ => ⟨rfl, trivial⟩) fun _ => ?_
  refine Serve.Acts.bind (fun _ => ⟨rfl, trivial⟩) fun _ => ?_
  cases call.transfer with
  | none => exact Serve.acts_pure _
  | some outcome =>
    cases outcome with
    | error error => exact Serve.Acts.bind (fun _ => ⟨rfl, trivial⟩) fun _ => Serve.acts_pure _
    | ok _ =>
      refine Serve.Acts.bind (fun _ => ⟨rfl, trivial⟩) fun _ => ?_
      exact (Serve.acts_acquire _).bind fun _ => acts_serveFrom _ _ _ _ _

end Router

/-- A routing call does what its labels say. -/
theorem RoutingCall.acts (call : RoutingCall) (hasher : Option UInt64 → List Char → UInt64)
    (fl : F64.Rounding) (router : Router) :
    Serve.Acts ((call.program hasher fl router).relabel .access) := by
  obtain ⟨rest, heq, hrest⟩ := call.program_traces hasher fl router
  rw [heq, Thread.relabel_bind]
  exact Serve.Acts.bind (fun _ => ⟨⟨rfl, rfl⟩, trivial⟩) fun healthy =>
    Serve.acts_relabel (hrest healthy)

/-- **Handlers act as labelled.**  Every section of a handler does what its label says. -/
theorem ServeRequest.acts (request : ServeRequest) (hasher : Option UInt64 → List Char → UInt64)
    (fl : F64.Rounding) (showStatus : ℕ → String) (router : Router) :
    (request.program hasher fl showStatus router).Acts := by
  cases request with
  | proxied call =>
    refine (RoutingCall.acts (.chat call.clock call.request) hasher fl router).bind fun result => ?_
    cases result with
    | error error => exact Router.acts_serveUnrouted _ _
    | ok decision =>
      refine Serve.Acts.bind (fun _ => ⟨rfl, trivial⟩) fun _ => ?_
      exact (Serve.acts_acquire _).bind fun _ => Router.acts_serveFrom _ _ _ _ _
  | disaggregated call =>
    refine (RoutingCall.acts (.phase call.clock .prefill _) hasher fl router).bind fun result => ?_
    cases result with
    | error error => exact Router.acts_serveUnrouted _ _
    | ok prefill =>
      refine Serve.Acts.bind (fun _ => ⟨rfl, trivial⟩) fun _ => ?_
      refine (Serve.acts_acquire _).bind fun _ => ?_
      refine (Router.acts_servePrefill _ _).bind fun returned => ?_
      refine (Serve.acts_release _).bind fun _ => ?_
      cases returned with
      | some served => exact Serve.acts_pure _
      | none =>
        refine (RoutingCall.acts (.phase call.decodeClock .decode _) hasher fl router).bind
          fun result => ?_
        cases result with
        | error error => exact Router.acts_serveUnrouted _ _
        | ok decode => exact Router.acts_serveDecode _ _ _ _

end Each

end KvRoute
