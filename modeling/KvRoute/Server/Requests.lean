import KvRoute.Server.Handlers

set_option relaxedAutoImplicit false
set_option autoImplicit false

/-!
# What a request does, in view of its history

A handler routes, selects a worker of the snapshot that it routed with, acquires a guard on the
worker, sends, and drops the guard.  This module states what each label of a request requires of
the labels before it, for both handlers at once, and whatever other threads do in between.

## Main definitions

* `KvRoute.Stand`, `KvRoute.standing` — where a request stands, given its history.
* `KvRoute.Saw` — a worker was in a snapshot that the request took.
* `ServeRequest.Rule` — what a request does next.

## Main results

* `ServeRequest.follows_program` — every request obeys the rule, and ends without a guard.
* `KvRoute.split_of_standing_chosen` — what a request does between selection and guard.
-/

namespace KvRoute

/-! ## Where a request stands -/

/-- Where a request stands. -/
inductive Stand where
  /-- It has no worker. -/
  | idle
  /-- It has a worker for its phase, and no guard on it yet. -/
  | chosen (worker : WorkerId)
  /-- It holds a guard on its worker. -/
  | holding (worker : WorkerId)
deriving DecidableEq, Repr

/-- How a section changes where the request stands. -/
def Stand.next : Stand → ServerEvent → Stand
  | _, .selected worker => chosen worker
  | _, .acquire worker => holding worker
  | _, .release _ => idle
  | stand, _ => stand

/-- Where a request with a history stands. -/
def standing (history : List ServerEvent) : Stand := history.foldl Stand.next .idle

@[simp] theorem standing_nil : standing [] = .idle := rfl

theorem standing_concat (history : List ServerEvent) (event : ServerEvent) :
    standing (history ++ [event]) = (standing history).next event := by
  rw [standing, List.foldl_append]
  rfl

theorem standing_step {history : List ServerEvent} {event : ServerEvent} {stand stand' : Stand}
    (h : standing history = stand) (hnext : stand.next event = stand') :
    standing (history ++ [event]) = stand' := by
  rw [standing_concat, h, hnext]

/-- Who stands elsewhere holds no guard. -/
theorem ne_holding {history : List ServerEvent} {stand : Stand} (h : standing history = stand)
    (hstand : ∀ worker, stand ≠ .holding worker) (worker : WorkerId) :
    standing history ≠ .holding worker := by
  rw [h]
  exact hstand worker

/-- The label after which a request stands where it stands. -/
def Stand.cause : Stand → Option ServerEvent
  | idle => none
  | chosen worker => some (.selected worker)
  | holding worker => some (.acquire worker)

/-- Who has a worker has selected it, and who holds a guard has acquired it. -/
theorem mem_of_cause {history : List ServerEvent} {event : ServerEvent}
    (h : (standing history).cause = some event) : event ∈ history := by
  induction history using List.reverseRecOn with
  | nil => cases h
  | append_singleton history last ih =>
    rw [standing_concat] at h
    cases last with
    | selected worker =>
      obtain rfl := Option.some.inj h
      exact List.mem_append_right _ List.mem_cons_self
    | acquire worker =>
      obtain rfl := Option.some.inj h
      exact List.mem_append_right _ List.mem_cons_self
    | release worker => cases h
    | _ => exact List.mem_append_left _ (ih h)

/-- The request is served in two phases. -/
def ServeRequest.TwoPhase : ServeRequest → Prop
  | proxied _ => False
  | disaggregated _ => True

/-- The worker was in a snapshot of the registry that the request took. -/
def Saw (past : List ServerEvent) (worker : WorkerId) : Prop :=
  ∃ healthy, .access (.snapshot healthy) ∈ past ∧ ∃ w ∈ healthy, w.id = worker

/-- A label that moves blocks to a worker: the KV transfer, and what is recorded of it. -/
def ServerEvent.MovesBlocks : ServerEvent → Prop
  | .transfer .. | .recordKvTransfer _ | .record _ => True
  | _ => False

/-- What a request does next, in view of where it stands: while it has no worker it routes and
selects, among workers of its snapshots; then it acquires the guard, sends only while it holds the
guard, and drops it.  Between selection and guard it does nothing, or moves blocks. -/
def ServeRequest.Rule (request : ServeRequest) (past : List ServerEvent) : ServerEvent → Prop
  | .access l => standing past = .idle ∧ l.FromRouting ∧
      ∀ worker hash, l = .write worker hash → Saw past worker
  | .unrouted .. => standing past = .idle
  | .selected worker => standing past = .idle ∧ Saw past worker
  | .acquire worker => standing past = .chosen worker
  | .release worker | .send _ worker _ => standing past = .holding worker
  | .rejected .. | .drainError .. | .deliver _ => ∃ worker, standing past = .holding worker
  | .transfer .. | .recordKvTransfer _ | .record _ =>
    ∀ worker, standing past = .chosen worker → request.TwoPhase
  | .listed _ => False

namespace ServeRequest

variable {hasher : Option UInt64 → List Char → UInt64} {fl : F64.Rounding}
  {showStatus : ℕ → String} {router : Router} {request : ServeRequest} {past : List ServerEvent}

variable (hasher) in
/-- A routing call leaves the request without a worker, and answers with one that it saw. -/
theorem follows_routing (call : RoutingCall) (hpast : standing past = .idle) :
    ((call.program hasher fl router).relabel .access).Follows request.Rule
      (fun result past => standing past = .idle ∧
        ∀ d, result = .ok d → Saw past d.worker.id) past := by
  obtain ⟨rest, heq, hrest⟩ := call.program_traces hasher fl router
  rw [heq, Thread.relabel_bind]
  refine Thread.Follows.bind (ψ := fun healthy past => standing past = .idle ∧
    .access (.snapshot healthy) ∈ past) (fun s => ⟨⟨hpast, trivial, nofun⟩,
      standing_step hpast rfl, List.mem_append_right _ List.mem_cons_self⟩) ?_
  intro healthy past hpast
  have hlabels : ((rest healthy).relabel ServerEvent.access).Each
      (fun _ l _ => ∃ a, l = .access a ∧ a.Routes healthy) (Router.Answers healthy) :=
    Thread.Each.relabel ((hrest healthy).mono (fun _ a _ h => ⟨a, rfl, h.2⟩) fun _ h => h)
  refine (hlabels.follows (K := fun past => standing past = .idle ∧
    .access (.snapshot healthy) ∈ past) ?_ hpast).mono ?_
  · rintro past l ⟨hpast, hsnapshot⟩ ⟨a, rfl, ha⟩
    refine ⟨⟨hpast, ha.fromRouting, ?_⟩, standing_step hpast rfl, List.mem_append_left _ hsnapshot⟩
    rintro worker hash rfl
    exact ⟨healthy, hsnapshot, ha⟩
  · rintro result past ⟨hanswers, hpast, hsnapshot⟩
    exact ⟨hpast, fun d hd => ⟨healthy, hsnapshot, _, hanswers d hd, rfl⟩⟩

variable {worker : WorkerId}

theorem follows_selected (worker : WorkerId) (hpast : standing past = .idle)
    (hsaw : Saw past worker) : (Serve.note (.selected worker)).Follows request.Rule
      (fun _ past => standing past = .chosen worker) past :=
  Serve.follows_note (K := fun past => standing past = .chosen worker) (.selected worker)
    ⟨⟨hpast, hsaw⟩, standing_step hpast rfl⟩

theorem follows_acquire (hpast : standing past = .chosen worker) :
    (Serve.acquire worker).Follows request.Rule
      (fun _ past => standing past = .holding worker) past :=
  Serve.follows_acquire (K := fun past => standing past = .holding worker) worker
    ⟨hpast, standing_step hpast rfl⟩

theorem follows_release (hpast : standing past = .holding worker) :
    (Serve.release worker).Follows request.Rule (fun _ past => standing past = .idle) past :=
  Serve.follows_release (K := fun past => standing past = .idle) worker
    ⟨hpast, standing_step hpast rfl⟩

/-- Moving blocks leaves a request in two phases where it stands. -/
theorem follows_moves (hphases : request.TwoPhase) (event : ServerEvent)
    (hevent : event.MovesBlocks)
    (hpast : standing past = .chosen worker) : (Serve.note event).Follows request.Rule
      (fun _ past => standing past = .chosen worker) past := by
  refine Serve.follows_note (K := fun past => standing past = .chosen worker) event ?_
  cases event with
  | transfer source target blocks => exact ⟨fun _ _ => hphases, standing_step hpast rfl⟩
  | recordKvTransfer transferMs => exact ⟨fun _ _ => hphases, standing_step hpast rfl⟩
  | record entry => exact ⟨fun _ _ => hphases, standing_step hpast rfl⟩
  | _ => exact absurd hevent id

/-- While a request does not stand between selection and guard, it may record. -/
theorem rule_record {stand : Stand} (hpast : standing past = stand)
    (hstand : ∀ worker, stand ≠ .chosen worker) (entry : Recorded) :
    request.Rule past (.record entry) := by
  intro worker hchosen
  exact absurd (hpast.symm.trans hchosen) (hstand worker)

theorem follows_serveUnrouted (pool : Option Pool) (error : RouterError)
    (hpast : standing past = .idle) : (router.serveUnrouted pool error).Follows request.Rule
      (fun _ past => standing past = .idle) past := by
  refine Router.follows_serveUnrouted (K := fun past => standing past = .idle) pool error hpast ?_
  rintro past l hpast (⟨pool, error, rfl⟩ | ⟨entry, rfl⟩)
  · exact ⟨hpast, standing_step hpast rfl⟩
  · exact ⟨rule_record hpast nofun entry, standing_step hpast rfl⟩

/-- The end of a handler drops the guard. -/
theorem follows_serveFrom (call : ServeCall) (phase : Option Pool) (failure : String)
    (decision : RouteDecision) (details : CompletionDetails)
    (hpast : standing past = .holding decision.worker.id) :
    (router.serveFrom showStatus call phase failure decision details).Follows request.Rule
      (fun _ past => standing past = .idle) past := by
  refine Router.follows_serveFrom (K := fun past => standing past = .holding decision.worker.id)
    hpast ?_ fun past hpast => ⟨hpast, standing_step hpast rfl⟩
  intro past l hpast hl
  cases l with
  | send phase worker url =>
    obtain ⟨-, rfl⟩ := hl
    exact ⟨hpast, standing_step hpast rfl⟩
  | rejected phase worker status => exact ⟨⟨_, hpast⟩, standing_step hpast rfl⟩
  | deliver item => exact ⟨⟨_, hpast⟩, standing_step hpast rfl⟩
  | record entry => exact ⟨rule_record hpast nofun entry, standing_step hpast rfl⟩
  | _ => exact absurd hl id

theorem follows_servePrefill (call : ServeCall) (worker : Worker)
    (hpast : standing past = .holding worker.id) :
    (router.servePrefill showStatus call worker).Follows request.Rule
      (fun _ past => standing past = .holding worker.id) past := by
  refine (Router.follows_servePrefill (K := fun past => standing past = .holding worker.id) worker
    hpast ?_).mono fun _ _ h => h.1
  intro past l hpast hl
  cases l with
  | send phase w url =>
    obtain ⟨-, rfl⟩ := hl
    exact ⟨hpast, standing_step hpast rfl⟩
  | drainError worker error => exact ⟨⟨_, hpast⟩, standing_step hpast rfl⟩
  | record entry => exact ⟨rule_record hpast nofun entry, standing_step hpast rfl⟩
  | _ => exact absurd hl id

/-- The KV transfer comes between selection and guard. -/
theorem follows_serveDecode (hphases : request.TwoPhase) (call : ServeCall) (chain : List UInt64)
    (prefill : Worker) (decode : RouteDecision) (hpast : standing past = .idle)
    (hsaw : Saw past decode.worker.id) :
    (router.serveDecode showStatus call chain prefill decode).Follows request.Rule
      (fun _ past => ∀ worker, standing past ≠ .holding worker) past := by
  have hnone : ∀ {past}, standing past = .chosen decode.worker.id →
      ∀ worker, standing past ≠ .holding worker := fun hpast => ne_holding hpast nofun
  unfold Router.serveDecode
  refine (follows_selected _ hpast hsaw).bind fun _ past hpast => ?_
  refine (follows_moves hphases (.transfer ..) trivial hpast).bind fun _ past hpast => ?_
  cases call.transfer with
  | none => exact Thread.follows_done (hnone hpast)
  | some outcome =>
    cases outcome with
    | error error =>
      exact (follows_moves hphases (.record _) trivial hpast).bind
        fun _ past hpast => Thread.follows_done (hnone hpast)
    | ok _ =>
      refine (follows_moves hphases (.recordKvTransfer _) trivial hpast).bind
        fun _ past hpast => ?_
      refine (follows_acquire hpast).bind fun _ past hpast => ?_
      refine (follows_serveFrom _ _ _ _ _ hpast).mono fun _ past hidle => ?_
      exact ne_holding (show standing past = .idle from hidle) nofun

/-- **A request, section by section.**  Every request obeys the rule, and when its handler and its
response stream are gone, so is its guard. -/
theorem follows_program (request : ServeRequest) :
    (request.program hasher fl showStatus router).Follows request.Rule
      (fun _ past => ∀ worker, standing past ≠ .holding worker) [] := by
  have hnone : ∀ {past}, standing past = .idle → ∀ worker, standing past ≠ .holding worker :=
    fun hpast => ne_holding hpast nofun
  cases request with
  | proxied call =>
    refine (follows_routing hasher (.chat call.clock call.request) standing_nil).bind
      fun result past h => ?_
    obtain ⟨hpast, hsaw⟩ := h
    cases result with
    | error error => exact (follows_serveUnrouted _ _ hpast).mono fun _ _ h => hnone h
    | ok decision =>
      refine (follows_selected _ hpast (hsaw _ rfl)).bind fun _ past hpast => ?_
      refine (follows_acquire hpast).bind fun _ past hpast => ?_
      exact (follows_serveFrom _ _ _ _ _ hpast).mono fun _ _ h => hnone h
  | disaggregated call =>
    refine (follows_routing hasher (.phase call.clock .prefill _) standing_nil).bind
      fun result past h => ?_
    obtain ⟨hpast, hsaw⟩ := h
    cases result with
    | error error => exact (follows_serveUnrouted _ _ hpast).mono fun _ _ h => hnone h
    | ok prefill =>
      refine (follows_selected _ hpast (hsaw _ rfl)).bind fun _ past hpast => ?_
      refine (follows_acquire hpast).bind fun _ past hpast => ?_
      refine (follows_servePrefill call _ hpast).bind fun returned past hpast => ?_
      refine (follows_release hpast).bind fun _ past hpast => ?_
      cases returned with
      | some served => exact Thread.follows_done (hnone hpast)
      | none =>
        refine (follows_routing hasher (.phase call.decodeClock .decode _) hpast).bind
          fun result past h => ?_
        obtain ⟨hpast, hsaw⟩ := h
        cases result with
        | error error => exact (follows_serveUnrouted _ _ hpast).mono fun _ _ h => hnone h
        | ok decode =>
          have hphases : (disaggregated call).TwoPhase := trivial
          exact follows_serveDecode hphases call _ _ decode hpast (hsaw _ rfl)

end ServeRequest

/-- **A request that is not counted yet.**  If the labels of a request obey the rule, and it has a
worker and no guard, it has been given the worker, and has done nothing since but move blocks.

**Proof sketch.** Induction on the history, from its end.  By the rule, the last label is the
selection of the worker, or one of a transfer after which the request stands where it stood. -/
theorem split_of_standing_chosen {request : ServeRequest} {history : List ServerEvent}
    {worker : WorkerId}
    (hrule : ∀ before l after, history = before ++ l :: after → request.Rule before l)
    (hchosen : standing history = .chosen worker) :
    ∃ before after, history = before ++ .selected worker :: after ∧ ∀ l ∈ after, l.MovesBlocks ∧
      request.TwoPhase := by
  induction history using List.reverseRecOn with
  | nil => cases hchosen
  | append_singleton history last ih =>
    have hlast : request.Rule history last := hrule history last [] rfl
    have hbefore : ∀ before l after, history = before ++ l :: after → request.Rule before l := by
      rintro before l after rfl
      exact hrule before l (after ++ [last]) (by rw [List.append_assoc, List.cons_append])
    rw [standing_concat] at hchosen
    -- a label of a transfer leaves the request where it stood
    have hmoved : last.MovesBlocks → (standing history = .chosen worker → request.TwoPhase) →
        standing history = .chosen worker → ∃ before after,
          history ++ [last] = before ++ .selected worker :: after ∧ ∀ l ∈ after, l.MovesBlocks ∧
            request.TwoPhase := by
      intro hmoves hphases hstood
      obtain ⟨before, after, heq, hafter⟩ := ih hbefore hstood
      refine ⟨before, after ++ [last], by rw [heq, List.append_assoc, List.cons_append], ?_⟩
      intro l hl
      rcases List.mem_append.mp hl with hl | hl
      · exact hafter l hl
      · obtain rfl := List.mem_singleton.mp hl
        exact ⟨hmoves, hphases hstood⟩
    cases last with
    | selected w =>
      obtain rfl := Stand.chosen.inj hchosen
      exact ⟨history, [], rfl, nofun⟩
    | acquire w => cases hchosen
    | release w => cases hchosen
    | access l => exact absurd (hlast.1.symm.trans hchosen) nofun
    | listed workers => exact absurd hlast id
    | unrouted pool error => exact absurd (Eq.symm hlast |>.trans hchosen) nofun
    | send phase w url => exact absurd (Eq.symm hlast |>.trans hchosen) nofun
    | rejected phase w status =>
      obtain ⟨w, hholding⟩ := hlast
      exact absurd (hholding.symm.trans hchosen) nofun
    | drainError w error =>
      obtain ⟨w, hholding⟩ := hlast
      exact absurd (hholding.symm.trans hchosen) nofun
    | deliver item =>
      obtain ⟨w, hholding⟩ := hlast
      exact absurd (hholding.symm.trans hchosen) nofun
    | transfer source target blocks => exact hmoved trivial (hlast worker) hchosen
    | recordKvTransfer transferMs => exact hmoved trivial (hlast worker) hchosen
    | record entry => exact hmoved trivial (hlast worker) hchosen

end KvRoute
