import KvRoute.Server.Handlers
import KvRoute.Server.Selection

set_option relaxedAutoImplicit false
set_option autoImplicit false

/-!
# The phases of a disaggregated request

The KV transfer moves the blocks that the prefill phase has materialized, and the decode request
relies on the blocks that were moved.  `serve_disaggregated` stops at every failure but one: when
the body of the prefill response fails, the loop that drains it is left with `break`, and the
handler goes on.  This module decides, for every run, when a phase starts on the strength of the
phases before it.

## Main definitions

* `ServeCall.PrefillReceived` — the prefill request succeeded, and its whole body was received.
* `KvRoute.Gated` — what was started after the prefill phase had what it relies on.
* `ServeCall.PrefillBreaks`, `KvRoute.DecodeUp` — when the handler goes on without that.

## Main results

* `KvRoute.disaggregated_gated_iff` — a finished request was gated exactly if its prefill body did
  not break, or no decode worker was up.
-/

namespace KvRoute

/-- The prefill request returned a success, and its whole body was received without error. -/
def ServeCall.PrefillReceived (call : ServeCall) : Prop :=
  ∃ response, call.prefill = some (.ok response) ∧ response.isSuccess = true ∧
    (∀ item ∈ response.body, ∃ chunk, item = .ok chunk) ∧
    ∀ n, call.leaves = some n → response.body.length < n

/-- The prefill request returned a success, and its body failed after some chunks, the client
still being there. -/
def ServeCall.PrefillBreaks (call : ServeCall) : Prop :=
  ∃ response, call.prefill = some (.ok response) ∧ response.isSuccess = true ∧
    ∃ (chunks : List Bytes) (error : String) (rest : List (Except String Bytes)),
      response.body = chunks.map .ok ++ .error error :: rest ∧
        ∀ n, call.leaves = some n → chunks.length < n

/-- The KV transfer and the decode request were started only if the prefill request succeeded and
its whole body was received, and the decode request only if the transfer also succeeded. -/
def Gated (call : ServeCall) (history : List ServerEvent) : Prop :=
  (∀ source target blocks, .transfer source target blocks ∈ history → call.PrefillReceived) ∧
    ∀ worker url, .send (some .decode) worker url ∈ history →
      call.PrefillReceived ∧ call.transfer = some (.ok ())

/-- The snapshots of the registry that a request took. -/
def snapshots (history : List ServerEvent) : List (List Worker) :=
  history.filterMap fun
    | .access (.snapshot healthy) => some healthy
    | _ => none

/-- In its second snapshot the request saw a worker of the decode pool up. -/
def DecodeUp (history : List ServerEvent) : Prop :=
  ∃ healthy, (snapshots history)[1]? = some healthy ∧ ∃ w ∈ healthy, w.pool = .decode

@[simp] theorem snapshots_append (history history' : List ServerEvent) :
    snapshots (history ++ history') = snapshots history ++ snapshots history' :=
  List.filterMap_append

theorem DecodeUp.append {history : List ServerEvent} (h : DecodeUp history)
    (history' : List ServerEvent) : DecodeUp (history ++ history') := by
  obtain ⟨healthy, hsnapshot, hup⟩ := h
  refine ⟨healthy, ?_, hup⟩
  obtain ⟨hlt, hget⟩ := List.getElem?_eq_some_iff.mp hsnapshot
  rw [snapshots_append, List.getElem?_append_left hlt, hsnapshot]

/-! ## Selection, as a part of a request -/

namespace Router

variable {fl : F64.Rounding} {router : Router} {rule : List ServerEvent → ServerEvent → Prop}

/-- **Selection in a pool, as a part of a request.**  It takes one snapshot, leaves only labels of
the router, and decides exactly if the snapshot has a worker of the pool.  What such labels keep of
the history, it keeps. -/
theorem follows_selectInPool (clock : ℕ → Instant) (pool : Pool) (chain : List UInt64)
    {K : List ServerEvent → Prop} {past : List ServerEvent} (hpast : K past)
    (hK : ∀ past l, K past → rule past (.access l) ∧ K (past ++ [.access l])) :
    ((router.selectInPool fl clock pool chain).relabel .access).Follows rule
      (fun result past' => K past' ∧ ∃ healthy, snapshots past' = snapshots past ++ [healthy] ∧
        (Decides result ↔ ∃ w ∈ healthy, w.pool = pool)) past := by
  have hcandidates : ∀ healthy : List Worker,
      poolCandidates pool healthy ≠ [] ↔ ∃ w ∈ healthy, w.pool = pool := by
    simp [poolCandidates, List.filter_eq_nil_iff]
  unfold selectInPool
  rw [Thread.relabel_bind]
  refine Thread.Follows.bind (ψ := fun healthy past' => K past' ∧
    snapshots past' = snapshots past ++ [healthy]) ?_ ?_
  · intro s
    obtain ⟨hrule, hnext⟩ := hK past (.snapshot s.registry.healthyWorkers) hpast
    exact ⟨hrule, hnext, snapshots_append past _⟩
  · rintro healthy past' ⟨hpast', hsnapshots⟩
    dsimp only
    split_ifs with hempty
    · refine Thread.follows_done ⟨hpast', healthy, hsnapshots, ?_⟩
      rw [← hcandidates, List.isEmpty_iff.mp hempty]
      refine iff_of_false ?_ fun h => h rfl
      rintro ⟨d, hd⟩
      cases hd
    · have hne : poolCandidates pool healthy ≠ [] := by simpa using hempty
      have hlabels : ((router.selectBest fl clock (poolCandidates pool healthy) chain
          (.noHealthyWorkersInPool (toString pool) (toString router.policy))).relabel
            ServerEvent.access).Each
          (fun _ l _ => ∃ a, l = .access a ∧ ∀ healthy, a ≠ .snapshot healthy) Decides := by
        refine Thread.Each.relabel (((ends_selectBest clock hne chain _).and
          (traces_selectBest clock (fun _ h => h) chain _)).mono (fun _ a _ h => ⟨a, rfl, ?_⟩)
          fun _ h => h.1)
        rintro healthy rfl
        exact h.2.2
      refine (hlabels.follows (K := fun past' => K past' ∧
        snapshots past' = snapshots past ++ [healthy]) ?_ ⟨hpast', hsnapshots⟩).mono ?_
      · rintro past' l ⟨hpast', hsnapshots⟩ ⟨a, rfl, ha⟩
        obtain ⟨hrule, hnext⟩ := hK past' a hpast'
        refine ⟨hrule, hnext, ?_⟩
        rw [snapshots_append, hsnapshots]
        cases a with
        | snapshot healthy => exact absurd rfl (ha healthy)
        | _ => exact List.append_nil _
      · rintro result past' ⟨hresult, hpast', hsnapshots⟩
        exact ⟨hpast', healthy, hsnapshots, iff_of_true hresult ((hcandidates healthy).mp hne)⟩

end Router

/-! ## The whole request -/

/-- The prefill phase is over, and the handler goes on to the KV transfer: the body was received,
or it broke and a decode worker was up. -/
def Passed (call : ServeCall) (past : List ServerEvent) : Prop :=
  call.PrefillReceived ∨ call.PrefillBreaks ∧ DecodeUp past

/-- What a request does next, in view of what it has done. -/
def DisaggregatedRule (call : ServeCall) (past : List ServerEvent) : ServerEvent → Prop
  | .transfer .. => Passed call past
  | .send phase .. => phase = some .decode → Passed call past ∧ call.transfer = some (.ok ())
  | _ => True

theorem Passed.append {call : ServeCall} {past : List ServerEvent} (h : Passed call past)
    (history : List ServerEvent) : Passed call (past ++ history) :=
  h.imp_right fun ⟨hbreaks, hup⟩ => ⟨hbreaks, hup.append history⟩

/-- After a success whose body was drained, the body was received or it broke. -/
theorem received_or_breaks {call : ServeCall} (h : ∃ response, call.prefill = some (.ok response) ∧
    response.isSuccess = true ∧ drain response.body call.leaves ≠ .abandoned) :
    call.PrefillReceived ∨ call.PrefillBreaks := by
  obtain ⟨response, hprefill, hsuccess, hdrained⟩ := h
  cases hdrain : drain response.body call.leaves with
  | abandoned => exact absurd hdrain hdrained
  | ended => exact Or.inl ⟨response, hprefill, hsuccess, drain_eq_ended_iff.mp hdrain⟩
  | broken error =>
    obtain ⟨chunks, rest, hbody⟩ := drain_eq_broken_iff.mp hdrain
    exact Or.inr ⟨response, hprefill, hsuccess, chunks, error, rest, hbody⟩

/-- A body that breaks is not received. -/
theorem not_breaks_of_received {call : ServeCall} (h : call.PrefillReceived) :
    ¬call.PrefillBreaks := by
  obtain ⟨response, hprefill, -, hbody, -⟩ := h
  rintro ⟨response', hprefill', -, chunks, error, rest, hbody', -⟩
  obtain rfl := Except.ok.inj (Option.some.inj (hprefill.symm.trans hprefill'))
  rw [hbody'] at hbody
  obtain ⟨chunk, hchunk⟩ := hbody (.error error) (List.mem_append_right _ List.mem_cons_self)
  cases hchunk

/-- A KV transfer has been started. -/
def Moved (past : List ServerEvent) : Prop :=
  ∃ source target blocks, .transfer source target blocks ∈ past

theorem Moved.append {past : List ServerEvent} (h : Moved past) (history : List ServerEvent) :
    Moved (past ++ history) := by
  obtain ⟨source, target, blocks, hmem⟩ := h
  exact ⟨source, target, blocks, List.mem_append_left _ hmem⟩

namespace Router

variable {fl : F64.Rounding} {router : Router} {hasher : Option UInt64 → List Char → UInt64}
  {showStatus : ℕ → String}

/-- The KV transfer and the decode phase. -/
theorem follows_serveDecode (call : ServeCall) (chain : List UInt64) (prefill : Worker)
    (decode : RouteDecision) {past : List ServerEvent} (hpast : Passed call past) :
    (router.serveDecode showStatus call chain prefill decode).Follows (DisaggregatedRule call)
      (fun _ past => Moved past) past := by
  unfold serveDecode
  refine (Serve.follows_note (.selected _) ⟨trivial, hpast.append _⟩).bind fun _ past hpast => ?_
  refine (Serve.follows_note (K := fun past => Passed call past ∧ Moved past) (.transfer _ _ _)
    ⟨hpast, hpast.append _, _, _, _, List.mem_append_right _ (List.mem_singleton_self _)⟩).bind
    fun _ past hpast => ?_
  cases htransfer : call.transfer with
  | none => exact Thread.follows_done hpast.2
  | some outcome =>
    cases outcome with
    | error error =>
      exact (Serve.follows_note (.record _) ⟨trivial, hpast.2.append _⟩).bind
        fun _ past hpast => Thread.follows_done hpast
    | ok _ =>
      refine (Serve.follows_note (K := fun past => Passed call past ∧ Moved past)
        (.recordKvTransfer _) ⟨trivial, hpast.1.append _, hpast.2.append _⟩).bind
        fun _ past hpast => ?_
      refine (Serve.follows_acquire (K := fun past => Passed call past ∧ Moved past) _
        ⟨trivial, hpast.1.append _, hpast.2.append _⟩).bind fun _ past hpast => ?_
      refine follows_serveFrom (K := fun past => Passed call past ∧ Moved past) hpast ?_ ?_
      · intro past l hpast hl
        refine ⟨?_, hpast.1.append _, hpast.2.append _⟩
        cases l with
        | send phase worker url => exact fun _ => ⟨hpast.1, htransfer⟩
        | rejected phase worker status => trivial
        | record entry => trivial
        | deliver item => trivial
        | _ => exact absurd hl id
      · exact fun past hpast => ⟨trivial, hpast.2.append _⟩

/-- **A disaggregated request, section by section.**  It starts the KV transfer and the decode
request only when the prefill phase has passed; and if the body broke and a decode worker was up,
it does start the transfer.

**Proof sketch.** One snapshot is taken before the prefill phase and one after it, if the handler
goes on.  It goes on after a success whose body was drained, hence received or broken, and gets a
decode worker exactly if the second snapshot has one. -/
theorem follows_serveDisaggregated (call : ServeCall) :
    (router.serveDisaggregated hasher fl showStatus call).Follows (DisaggregatedRule call)
      (fun _ past => call.PrefillBreaks → DecodeUp past → Moved past) [] := by
  -- labels that are no snapshots leave the snapshots as they are
  have hkeep : ∀ {taken past l}, snapshots past = taken → snapshots [l] = [] →
      snapshots (past ++ [l]) = taken := by
    intro taken past l htaken hl
    rw [snapshots_append, htaken, hl, List.append_nil]
  have hunrouted : ∀ {taken past l}, snapshots past = taken →
      (∃ pool error, l = .unrouted pool error) ∨ (∃ e, l = .record e) →
        DisaggregatedRule call past l ∧ snapshots (past ++ [l]) = taken := by
    rintro taken past l htaken (⟨pool, error, rfl⟩ | ⟨entry, rfl⟩)
    · exact ⟨trivial, hkeep htaken rfl⟩
    · exact ⟨trivial, hkeep htaken rfl⟩
  have hdown : ∀ {taken : List (List Worker)} {past}, snapshots past = taken →
      (∀ healthy, taken[1]? = some healthy → ¬∃ w ∈ healthy, w.pool = .decode) →
        ¬DecodeUp past := by
    rintro taken past rfl hnone ⟨healthy, hsnapshot, hup⟩
    exact hnone healthy hsnapshot hup
  unfold serveDisaggregated
  refine (follows_selectInPool (K := fun _ => True) call.clock .prefill _ trivial
    fun _ _ _ => ⟨trivial, trivial⟩).bind fun result past hpast => ?_
  obtain ⟨-, first, htaken, -⟩ := hpast
  have hfirst : ∀ {past}, snapshots past = [first] → ¬DecodeUp past :=
    fun htaken => hdown htaken nofun
  cases result with
  | error error =>
    exact (follows_serveUnrouted (K := fun past => snapshots past = [first]) _ error htaken
      fun _ _ => hunrouted).mono fun _ past htaken _ hup => absurd hup (hfirst htaken)
  | ok prefill =>
    refine (Serve.follows_note (K := fun past => snapshots past = [first]) (.selected _)
      ⟨trivial, hkeep htaken rfl⟩).bind fun _ past htaken => ?_
    refine (Serve.follows_acquire (K := fun past => snapshots past = [first]) _
      ⟨trivial, hkeep htaken rfl⟩).bind fun _ past htaken => ?_
    refine (follows_servePrefill (K := fun past => snapshots past = [first]) prefill.worker htaken
      fun past l htaken hl => ?_).bind fun returned past hpast => ?_
    · cases l with
      | send phase worker url =>
        obtain ⟨rfl, -⟩ := hl
        exact ⟨nofun, hkeep htaken rfl⟩
      | record entry => exact ⟨trivial, hkeep htaken rfl⟩
      | drainError worker error => exact ⟨trivial, hkeep htaken rfl⟩
      | _ => exact absurd hl id
    obtain ⟨htaken, hreturned⟩ := hpast
    refine (Serve.follows_release (K := fun past => snapshots past = [first]) _
      ⟨trivial, hkeep htaken rfl⟩).bind fun _ past htaken => ?_
    cases returned with
    | some served => exact Thread.follows_done fun _ hup => absurd hup (hfirst htaken)
    | none =>
      have hdrained := received_or_breaks (hreturned rfl)
      refine (follows_selectInPool (K := fun _ => True) call.decodeClock .decode _ trivial
        fun _ _ _ => ⟨trivial, trivial⟩).bind fun result past hpast => ?_
      obtain ⟨-, second, htaken', hdecides⟩ := hpast
      rw [htaken] at htaken'
      cases result with
      | error error =>
        refine (follows_serveUnrouted (K := fun past => snapshots past = [first, second]) _ error
          htaken' fun _ _ => hunrouted).mono
          fun _ past htaken _ hup => absurd hup (hdown htaken fun healthy hsecond => ?_)
        obtain rfl : second = healthy := Option.some.inj hsecond
        rw [← hdecides]
        rintro ⟨d, hd⟩
        cases hd
      | ok decode =>
        have hup : DecodeUp past := ⟨second, by rw [htaken']; rfl, hdecides.mp ⟨decode, rfl⟩⟩
        refine (follows_serveDecode call _ prefill.worker decode ?_).mono
          fun _ _ hmoved _ _ => hmoved
        exact hdrained.imp_right fun hbreaks => ⟨hbreaks, hup⟩

end Router

section Gate

open ThreadPool

variable {ι : Type} [DecidableEq ι] {hasher : Option UInt64 → List Char → UInt64}
  {fl : F64.Rounding} {showStatus : ℕ → String} {router : Router} {call : ServeCall}
  {p p' : ThreadPool ι Shared ServerEvent Served} {tr : List (ι × ServerEvent)} {i : ι}

/-- **When a disaggregated request is gated.**  Among any other threads, a finished request has
started its KV transfer and its decode request only after a prefill request that succeeded and
whose body it received, and the decode request only after the transfer, unless the body broke and
its second snapshot showed a decode worker.

**Proof sketch.** By `Router.follows_serveDisaggregated` every transfer and every decode request
comes after the prefill phase has passed; it passes with a received body, or with a broken one and
a decode worker, and in the latter case the transfer is started. -/
theorem disaggregated_gated_iff
    (hi : p.threads i = router.serveDisaggregated hasher fl showStatus call) (h : p.Exec tr p')
    (hdone : ∃ served, p'.threads i = .done served) :
    Gated call (labelsOf i tr) ↔ ¬(call.PrefillBreaks ∧ DecodeUp (labelsOf i tr)) := by
  have hfollows : (p.threads i).Follows (DisaggregatedRule call)
      (fun _ past => call.PrefillBreaks → DecodeUp past → Moved past) [] := by
    rw [hi]
    exact Router.follows_serveDisaggregated call
  constructor
  · rintro ⟨htransfer, -⟩ ⟨hbreaks, hup⟩
    obtain ⟨served, hserved⟩ := hdone
    have hend := h.follows hfollows
    rw [hserved] at hend
    obtain ⟨source, target, blocks, hmem⟩ : Moved (labelsOf i tr) := hend hbreaks hup
    exact not_breaks_of_received (htransfer source target blocks hmem) hbreaks
  · intro hnot
    have hreceived : ∀ before after, labelsOf i tr = before ++ after → Passed call before →
        call.PrefillReceived := by
      rintro before after heq (hreceived | ⟨hbreaks, hup⟩)
      · exact hreceived
      · exact absurd ⟨hbreaks, heq ▸ hup.append after⟩ hnot
    constructor
    · intro source target blocks hmem
      obtain ⟨before, after, rfl⟩ := List.append_of_mem (mem_labelsOf.mp hmem)
      exact hreceived _ _ (labelsOf_append) (h.rule_of_mem hfollows)
    · intro worker url hmem
      obtain ⟨before, after, rfl⟩ := List.append_of_mem (mem_labelsOf.mp hmem)
      have hrule := h.rule_of_mem hfollows
      obtain ⟨hpassed, htransfer⟩ := hrule rfl
      exact ⟨hreceived _ _ (labelsOf_append) hpassed, htransfer⟩

end Gate

/-! ## A prefill body that breaks -/

/-- A worker of each pool. -/
def bothPools : RouterConfig :=
  { workers := [⟨"http://p:8001", .prefill⟩, ⟨"http://d:8002", .decode⟩]
    routingPolicy := .disaggregated }

/-- The shared state once the given workers are up. -/
def upWorkers (up : List WorkerId) : Shared :=
  { Shared.new bothPools with
    registry := up.foldl (fun r w => (r.setHealthy w true).1) (.fromConfig bothPools.workers) }

/-- A request whose prefill body breaks after one chunk; everything else succeeds. -/
def brokenCall : ServeCall where
  requestId := "r"
  request := ⟨[]⟩
  stream := true
  clock := fun n => n
  prefill := some (.ok ⟨200, none, none, [.ok [123], .error "connection reset"]⟩)
  prefillTimes := (1, 2)
  leaves := none
  decodeClock := fun n => n + 3
  transfer := some (.ok ())
  transferTimes := (4, 5)
  send := some (.ok ⟨200, none, none, []⟩)
  started := 6
  polls := [fun _ => 7, fun _ => 8]

/-- The request, with nobody else around. -/
def brokenPool (up : List WorkerId) : ThreadPool Unit Shared ServerEvent Served :=
  ⟨upWorkers up, fun _ =>
    (Router.new bothPools).serveDisaggregated defaultHasher .exact toString brokenCall⟩

/-- The request, served to its end. -/
def brokenRun (up : List WorkerId) :
    List (Unit × ServerEvent) × ThreadPool Unit Shared ServerEvent Served :=
  (brokenPool up).run (List.replicate 32 ())

theorem brokenCall_breaks : brokenCall.PrefillBreaks :=
  ⟨_, rfl, rfl, [[123]], "connection reset", [], rfl, nofun⟩

/-- The prefill body breaks, and yet the transfer is started and the decode request is sent. -/
theorem disaggregated_decodes_after_break :
    (brokenPool [0, 1]).Exec (brokenRun [0, 1]).1 (brokenRun [0, 1]).2 ∧
      (∃ served, (brokenRun [0, 1]).2.threads () = .done served) ∧
      ((), .drainError "http://p:8001" "connection reset") ∈ (brokenRun [0, 1]).1 ∧
      ((), .transfer 0 1 0) ∈ (brokenRun [0, 1]).1 ∧
      ((), .send (some .decode) 1 "http://d:8002/v1/chat/completions") ∈ (brokenRun [0, 1]).1 ∧
      ¬Gated brokenCall (ThreadPool.labelsOf () (brokenRun [0, 1]).1) := by
  have hdrain : ((), .drainError "http://p:8001" "connection reset") ∈ (brokenRun [0, 1]).1 :=
    List.mem_of_getElem? (i := 6) rfl
  have htransfer : ((), .transfer 0 1 0) ∈ (brokenRun [0, 1]).1 :=
    List.mem_of_getElem? (i := 12) rfl
  have hsend : ((), .send (some .decode) 1 "http://d:8002/v1/chat/completions") ∈
      (brokenRun [0, 1]).1 := List.mem_of_getElem? (i := 15) rfl
  refine ⟨ThreadPool.exec_run _ _, ⟨_, rfl⟩, hdrain, htransfer, hsend, fun hgated => ?_⟩
  have hreceived := hgated.1 0 1 0 (ThreadPool.mem_labelsOf.mpr htransfer)
  exact not_breaks_of_received hreceived brokenCall_breaks

/-- With no decode worker up, the request ends after the prefill phase. -/
theorem disaggregated_gated_no_decode :
    Gated brokenCall (ThreadPool.labelsOf () (brokenRun [0]).1) := by
  have hexec : (brokenPool [0]).Exec (brokenRun [0]).1 (brokenRun [0]).2 :=
    ThreadPool.exec_run _ _
  refine (disaggregated_gated_iff rfl hexec ⟨_, rfl⟩).mpr ?_
  rintro ⟨-, healthy, hsecond, w, hw, hdecode⟩
  have hprefill : (snapshots (ThreadPool.labelsOf () (brokenRun [0]).1))[1]? =
      some [⟨0, "http://p:8001", .prefill⟩] := rfl
  obtain rfl := Option.some.inj (hprefill.symm.trans hsecond)
  obtain rfl := List.mem_singleton.mp hw
  cases hdecode

end KvRoute
