import KvRoute.Core.RoutingEffect
import KvRoute.Lib.Runs
import KvRoute.Py.Native

set_option relaxedAutoImplicit false
set_option autoImplicit false

/-!
# Policies do not interfere

The Python router keeps one core router for each policy, and builds it when a call first asks for
the policy.  All of them read one worker registry.  A call under one policy is nothing that a later
call under the other policy could notice, and neither is a call that is rejected.

The registry is shared, so here a call publishes the registry of the core router that it has run on
to the others.

## Main definitions

* `PyRouterCall.asks`, `PyRouterCall.withClock` — the policy of a call, and the call made at other
  times.
* `PyRouter.publish`, `PyRouter.callShared` — a call on routers that share their registry.
* `PyRouter.Coherent`, `PyRouter.Agree` — one registry, and states a policy cannot tell apart.

## Main results

* `KvRoute.policies_isolated` — the answers under a policy are those without the other calls.
-/

namespace KvRoute

/-! ## Calls -/

namespace PyRouterCall

/-- The prompt of a call. -/
def prompt : PyRouterCall → String
  | .route _ prompt _ => prompt
  | .selectWorker _ prompt _ => prompt

/-- The policy argument of a call. -/
def policy : PyRouterCall → String
  | .route _ _ policy => policy
  | .selectWorker _ _ policy => policy

/-- The clock readings of a call. -/
def clock : PyRouterCall → ℕ → Instant
  | .route clock _ _ => clock
  | .selectWorker clock _ _ => clock

/-- The same call made at other times. -/
def withClock (clock : ℕ → Instant) : PyRouterCall → PyRouterCall
  | .route _ prompt policy => .route clock prompt policy
  | .selectWorker _ prompt policy => .selectWorker clock prompt policy

/-- Whether a call is made with a policy. -/
def asks (policy : RoutingPolicy) (call : PyRouterCall) : Bool :=
  match parsePolicy call.policy with
  | .ok parsed => parsed == policy
  | .error _ => false

/-- What a call returns of a decision. -/
def present : PyRouterCall → Native RouteDecision → Native PyRouterReply
  | .route _ _ _, result => PyRouterReply.decision <$> do
    let decision ← result
    pure ⟨decision.worker.url, decision.matchedPrefixLen, decision.promptBlocks, decision.score⟩
  | .selectWorker _ _ _, result => PyRouterReply.url <$> do
    let decision ← result
    pure decision.worker.url

@[simp] lemma prompt_withClock (call : PyRouterCall) (clock : ℕ → Instant) :
    (call.withClock clock).prompt = call.prompt := by cases call <;> rfl

@[simp] lemma policy_withClock (call : PyRouterCall) (clock : ℕ → Instant) :
    (call.withClock clock).policy = call.policy := by cases call <;> rfl

@[simp] lemma present_withClock (call : PyRouterCall) (clock : ℕ → Instant) :
    (call.withClock clock).present = call.present := by cases call <;> rfl

/-- A call that is made with a policy names it. -/
lemma parsePolicy_of_asks {call : PyRouterCall} {policy : RoutingPolicy}
    (h : call.asks policy = true) : parsePolicy call.policy = .ok policy := by
  unfold asks at h
  cases hparsed : parsePolicy call.policy with
  | ok parsed =>
    rw [hparsed] at h
    rw [eq_of_beq h]
  | error e =>
    rw [hparsed] at h
    cases h

end PyRouterCall

/-! ## A shared registry -/

namespace PyRouter

variable (hasher : Option UInt64 → List Char → UInt64) (fl : F64.Rounding)

/-- All core routers see a new registry. -/
def publish (router : PyRouter) (registry : WorkerRegistry) : PyRouter :=
  { router with
    registry
    routers := router.routers.retain fun _ built =>
      some { built with state := { built.state with registry } } }

/-- One call, on core routers that share the registry. -/
def callShared (router : PyRouter) (call : PyRouterCall) : PyRouter × Native PyRouterReply :=
  let (router, reply) := router.call hasher fl call
  match parsePolicy call.policy with
  | .ok policy => (router.publish (router.built policy).state.registry, reply)
  | .error _ => (router, reply)

/-- All core routers have the registry of the Python router. -/
def Coherent (router : PyRouter) : Prop :=
  ∀ policy, (router.built policy).state.registry = router.registry

variable {hasher fl} {router : PyRouter} {call : PyRouterCall} {policy other : RoutingPolicy}

/-- A call asks for a decision and returns parts of it. -/
lemma call_eq (router : PyRouter) (call : PyRouterCall) :
    router.call hasher fl call =
      ((router.decide hasher fl call.clock call.prompt call.policy).1,
        call.present (router.decide hasher fl call.clock call.prompt call.policy).2) := by
  cases call <;> rfl

@[simp] lemma built_publish (router : PyRouter) (registry : WorkerRegistry)
    (policy : RoutingPolicy) :
    (router.publish registry).built policy =
      { router.built policy with
        state := { (router.built policy).state with registry } } := by
  rw [built, built, publish]
  dsimp only
  rw [HashTable.get_retain]
  cases router.routers.get policy <;> rfl

/-- Routing leaves the registry of its core router alone. -/
lemma selected_registry (router : PyRouter) (clock : ℕ → Instant) (prompt : String)
    (policy : RoutingPolicy) :
    (router.selected hasher fl clock prompt policy).1.registry =
      (router.built policy).state.registry := by
  rcases routing_exact hasher fl (router.built policy).settings
      (.chat clock ⟨[⟨"user", prompt⟩]⟩) (router.built policy).state with
    ⟨d, -, h⟩ | ⟨-, h⟩
  · exact h.registry_eq
  · exact congrArg Shared.registry h

/-- What a call leaves of the core routers: it runs on that of its policy. -/
lemma built_decide_eq {prompt name : String} {clock : ℕ → Instant}
    (hpolicy : parsePolicy name = .ok policy) (other : RoutingPolicy) :
    (router.decide hasher fl clock prompt name).1.built other =
      if other = policy then
        { router.built policy with state := (router.selected hasher fl clock prompt policy).1 }
      else router.built other := by
  split_ifs with hother
  · rw [hother]
    exact built_decide hpolicy
  · rw [decide_eq hpolicy, built, built]
    dsimp only
    rw [HashTable.get_insert_of_ne _ hother, getOrCreate]
    cases router.routers.get policy with
    | some _ => rfl
    | none =>
      dsimp only
      rw [HashTable.get_insert_of_ne _ hother]
      rfl

/-- The core routers that a call leaves have the registry they had. -/
lemma registry_decide {prompt name : String} {clock : ℕ → Instant} (h : router.Coherent)
    (hpolicy : parsePolicy name = .ok policy) (other : RoutingPolicy) :
    ((router.decide hasher fl clock prompt name).1.built other).state.registry =
      router.registry := by
  rw [built_decide_eq hpolicy]
  split_ifs
  · exact (selected_registry router _ _ policy).trans (h policy)
  · exact h other

/-- The registry that a call publishes is the one that all core routers had. -/
lemma callShared_eq (h : router.Coherent) (hpolicy : parsePolicy call.policy = .ok policy) :
    (router.callShared hasher fl call).1 =
      (router.decide hasher fl call.clock call.prompt call.policy).1.publish router.registry := by
  rw [callShared, call_eq]
  dsimp only
  rw [hpolicy]
  dsimp only
  rw [registry_decide h hpolicy]

/-- A call under a policy runs on the core router of that policy, and leaves the others alone. -/
lemma built_callShared (h : router.Coherent) (hpolicy : parsePolicy call.policy = .ok policy)
    (other : RoutingPolicy) :
    (router.callShared hasher fl call).1.built other =
      if other = policy then
        { router.built policy with
          state := (router.selected hasher fl call.clock call.prompt policy).1 }
      else router.built other := by
  rw [callShared_eq h hpolicy, built_publish,
    ← @registry_decide hasher fl _ _ _ _ call.clock h hpolicy other, built_decide_eq hpolicy]

/-- A call that is rejected changes nothing. -/
lemma callShared_of_error {error : PyError} (hpolicy : parsePolicy call.policy = .error error) :
    (router.callShared hasher fl call).1 = router := by
  rw [callShared, call_eq]
  dsimp only
  rw [hpolicy]
  dsimp only
  rw [decide_of_error hpolicy]

/-- Every call leaves the core routers with one registry. -/
lemma Coherent.callShared (h : router.Coherent) (call : PyRouterCall) :
    (router.callShared hasher fl call).1.Coherent := by
  cases hpolicy : parsePolicy call.policy with
  | error e => rwa [callShared_of_error hpolicy]
  | ok policy =>
    intro other
    rw [callShared_eq h hpolicy, built_publish]
    rfl

/-- What a call returns, of what its policy's core router has selected. -/
lemma callShared_snd (hpolicy : parsePolicy call.policy = .ok policy) :
    (router.callShared hasher fl call).2 =
      call.present
        (match (router.selected hasher fl call.clock call.prompt policy).2 with
        | .ok decision => pure decision
        | .error error => Native.raise (toPyError error)) := by
  rw [callShared, call_eq]
  dsimp only
  rw [hpolicy]
  exact congrArg (fun decided => call.present decided.2) (decide_eq hpolicy)

/-! ## What a policy can tell -/

/-- Two routers that calls under a policy cannot tell apart: its core router has the same settings,
and states that differ in times only. -/
structure Agree (policy : RoutingPolicy) (router router' : PyRouter) : Prop where
  /-- The core routers of the first share their registry. -/
  coherent : router.Coherent
  /-- The core routers of the second share theirs. -/
  coherent' : router'.Coherent
  /-- The settings are the same. -/
  settings_eq : (router'.built policy).settings = (router.built policy).settings
  /-- The states differ in times only. -/
  touched : (router.built policy).state.Touched (router'.built policy).state

variable {router' : PyRouter}

/-- The same is selected on routers that agree, and what it leaves differs in times only. -/
lemma Agree.selected (hasher : Option UInt64 → List Char → UInt64) (fl : F64.Rounding)
    (h : Agree policy router router') (clock clock' : ℕ → Instant)
    (prompt : String) :
    (router'.selected hasher fl clock' prompt policy).2 =
        (router.selected hasher fl clock prompt policy).2 ∧
      (router.selected hasher fl clock prompt policy).1.Touched
        (router'.selected hasher fl clock' prompt policy).1 := by
  unfold PyRouter.selected
  rw [h.settings_eq]
  exact ⟨Router.alone_selectForChat_snd_congr hasher h.touched clock clock' _,
    Router.touched_selectForChat_congr hasher h.touched clock clock' _⟩

/-- The same call under the policy is answered alike, and leaves routers that agree. -/
lemma Agree.callShared_both (h : Agree policy router router') (hasks : call.asks policy = true)
    (clock : ℕ → Instant) :
    (router.callShared hasher fl call).2 =
        (router'.callShared hasher fl (call.withClock clock)).2 ∧
      Agree policy (router.callShared hasher fl call).1
        (router'.callShared hasher fl (call.withClock clock)).1 := by
  have hpolicy := PyRouterCall.parsePolicy_of_asks hasks
  have hpolicy' : parsePolicy (call.withClock clock).policy = .ok policy := by
    rwa [PyRouterCall.policy_withClock]
  obtain ⟨hresult, htouched⟩ := h.selected hasher fl call.clock
    (call.withClock clock).clock call.prompt
  constructor
  · rw [callShared_snd hpolicy, callShared_snd hpolicy', PyRouterCall.present_withClock,
      PyRouterCall.prompt_withClock, hresult]
  · refine ⟨h.coherent.callShared call, h.coherent'.callShared _, ?_, ?_⟩
    · rw [built_callShared h.coherent hpolicy, built_callShared h.coherent' hpolicy', if_pos rfl,
        if_pos rfl]
      exact h.settings_eq
    · rw [built_callShared h.coherent hpolicy, built_callShared h.coherent' hpolicy', if_pos rfl,
        if_pos rfl, PyRouterCall.prompt_withClock]
      exact htouched

/-- A call under another policy, or a rejected one, cannot be noticed. -/
lemma Agree.callShared_left (h : Agree policy router router') (hasks : call.asks policy = false) :
    Agree policy (router.callShared hasher fl call).1 router' := by
  cases hparsed : parsePolicy call.policy with
  | error e => rwa [callShared_of_error hparsed]
  | ok parsed =>
    have hother : policy ≠ parsed := by
      rintro rfl
      unfold PyRouterCall.asks at hasks
      rw [hparsed] at hasks
      simp at hasks
    have hbuilt : (router.callShared hasher fl call).1.built policy = router.built policy := by
      rw [built_callShared h.coherent hparsed, if_neg hother]
    refine ⟨h.coherent.callShared call, h.coherent', ?_, ?_⟩
    · rw [hbuilt]
      exact h.settings_eq
    · rw [hbuilt]
      exact h.touched

/-- A router without core routers agrees with itself. -/
lemma Agree.new {workers : List String} {cacheWeight loadWeight : F64} {blockSize : ℕ}
    (h : PyRouter.new workers cacheWeight loadWeight blockSize = .ok router)
    (policy : RoutingPolicy) : Agree policy router router := by
  have hcoherent : router.Coherent := by
    unfold PyRouter.new at h
    split_ifs at h
    · cases h
    · cases h
    · obtain rfl := Except.ok.inj h
      exact fun _ => rfl
  exact ⟨hcoherent, hcoherent, rfl, .refl _⟩

end PyRouter

/-- **Policies do not interfere.**  For all arguments from which a router is built, every sequence
of calls and every policy: the calls made with the policy are answered exactly as if only they had
been made, at whatever times.

**Proof sketch.** A call under another policy runs on another core router, of which it changes no
setting and not the registry (`PyRouter.Agree.callShared_left`).  A call under the policy decides by
what the state of its core router holds but for the times, and leaves states that differ in times
only (`PyRouter.Agree.callShared_both`).  The rest is unwinding. -/
theorem policies_isolated (hasher : Option UInt64 → List Char → UInt64) (fl : F64.Rounding)
    (workers : List String) (cacheWeight loadWeight : F64) (blockSize : ℕ) (router : PyRouter)
    (hnew : PyRouter.new workers cacheWeight loadWeight blockSize = .ok router)
    (policy : RoutingPolicy) (calls alone : List PyRouterCall)
    (halone : List.Forall₂ (fun call call' => ∃ clock, call' = call.withClock clock)
      (calls.filter (·.asks policy)) alone) :
    Runs.repliesTo (PyRouter.callShared hasher fl) (·.asks policy) router calls =
      Runs.replies (PyRouter.callShared hasher fl) router alone := by
  refine Runs.repliesTo_eq_replies ?_ ?_ (PyRouter.Agree.new hnew policy) halone
  · rintro r r' call _ hasks ⟨clock, rfl⟩ h
    exact h.callShared_both hasks clock
  · intro r r' call hasks h
    exact h.callShared_left hasks

/-- Two workers, and two calls in turn between which the other policy is asked, and an unknown one.
The answers in turn are those of two calls made one second apart. -/
theorem policies_isolated_two_workers :
    let router : PyRouter := ⟨PyRouter.healthyRegistry [⟨"w1", .both⟩, ⟨"w2", .both⟩],
      PyRouter.config ["w1", "w2"] (.finite 1) (.finite (1 / 2)) 512, .empty⟩
    Runs.repliesTo (PyRouter.callShared defaultHasher .exact) (·.asks .roundRobin) router
        [.selectWorker (fun _ => 3) "hello" "round_robin",
          .route (fun n => 5 + n) "hello" "cache_aware",
          .selectWorker (fun _ => 7) "hello" "unknown",
          .route (fun _ => 9) "hello again" "round_robin"] =
      Runs.replies (PyRouter.callShared defaultHasher .exact) router
        [.selectWorker (fun _ => 0) "hello" "round_robin",
          .route (fun _ => 1000000000) "hello again" "round_robin"] :=
  policies_isolated defaultHasher .exact ["w1", "w2"] (.finite 1) (.finite (1 / 2)) 512 _ rfl
    .roundRobin _ _ (.cons ⟨fun _ => 0, rfl⟩ (.cons ⟨fun _ => 1000000000, rfl⟩ .nil))

end KvRoute
