import KvRoute.Lib.ThreadHistory
import KvRoute.Server.ProxyStream

set_option relaxedAutoImplicit false
set_option autoImplicit false

/-!
# Request handlers

The handlers of `/v1/chat/completions` (`crates/router-server/src/api.rs`): `serve_proxied` sends a
request to one worker, `serve_disaggregated` to a prefill worker and then, after a KV transfer, to
a decode worker.  A handler is a program over the shared state; sending, transferring and recording
leave labels, so that the history of a request says how far it came.

What the outside answers is part of a call: the outcome of each await, `none` standing for a client
that goes away meanwhile, whereupon the handler is dropped with the guard it holds.  The bodies of
responses, and how often the client polls the response stream, are given in the same way.

## Main definitions

* `KvRoute.ApiError` — errors as the client sees them.
* `KvRoute.UpstreamResponse`, `KvRoute.buildResponse` — what a worker answers, and what the client
  gets.
* `KvRoute.drain` — the loop that reads the body of a prefill response.
* `KvRoute.ServerEvent`, `KvRoute.Serve` — the labels of handlers, and the programs made of them.
* `KvRoute.ServeCall`, `Router.serveProxied`, `Router.serveDisaggregated` — the handlers.
* `ServeRequest.program` — a request with its handler.

## Main results

* `KvRoute.drain_eq_ended_iff`, `drain_eq_broken_iff` — how a prefill body is drained.
-/

namespace KvRoute

/-! ## Errors -/

/-- Errors surfaced over HTTP. -/
structure ApiError where
  /-- The status code. -/
  status : ℕ
  /-- The `type` of the body. -/
  errorType : String
  /-- The `message` of the body. -/
  message : String
deriving DecidableEq, Repr

namespace ApiError

/-- A worker failed. -/
def upstream (worker : Worker) (message : String) : ApiError :=
  ⟨502, "upstream_error", s!"worker {worker.url} failed: {message}"⟩

/-- No worker can serve. -/
def noHealthyWorkers : ApiError :=
  ⟨503, "no_healthy_workers", "no healthy workers are currently available"⟩

/-- `From<RouterError>`. -/
def ofRouterError : RouterError → ApiError
  | .noHealthyWorkers _ | .noHealthyWorkersInPool _ _ => noHealthyWorkers
  | .kvTransfer _ _ reason => ⟨502, "kv_transfer_error", reason⟩
  | .policyNotImplemented policy =>
    ⟨501, "unimplemented", s!"routing policy `{policy}` is not implemented yet"⟩
  | .disaggregatedRequiresTwoPhase => ⟨500, "invalid_routing_mode",
    "disaggregated policy requires two-phase routing; this endpoint used single-phase"⟩
  | .config message => ⟨500, "config_error", message⟩

end ApiError

/-! ## Responses -/

/-- What a worker answers. -/
structure UpstreamResponse where
  /-- The status code. -/
  status : ℕ
  /-- The value of `x-kv-prefix-hit`. -/
  prefixHit : Option Bytes
  /-- The value of `x-completion-tokens`. -/
  completionTokens : Option Bytes
  /-- The items that the body yields before its end. -/
  body : List (Except String Bytes)

/-- Whether the status is a success. -/
def UpstreamResponse.isSuccess (response : UpstreamResponse) : Bool :=
  200 ≤ response.status && response.status < 300

/-- The text of a header value, if it is visible ASCII. -/
def headerText (value : Bytes) : Option String :=
  if value.all fun b => (32 ≤ b && b < 127) || b == 9 then
    some (String.ofList (value.map fun b => Char.ofNat b.toNat))
  else none

/-- Parse a `u64`: digits, after an optional sign, of a number that fits. -/
def parseU64 (text : String) : Option UInt64 :=
  let digits := match text.toList with
    | '+' :: rest => rest
    | chars => chars
  let value := digits.foldl (fun n c => 10 * n + (c.toNat - '0'.toNat)) 0
  if !digits.isEmpty && digits.all Char.isDigit && value < 2 ^ 64 then some value.toUInt64 else none

/-- The worker's own report of its prefix hit. -/
def prefixHitHeader (upstream : UpstreamResponse) : Option String :=
  upstream.prefixHit.bind headerText

/-- The worker's own count of tokens. -/
def completionTokensHeader (upstream : UpstreamResponse) : Option UInt64 :=
  (upstream.completionTokens.bind headerText).bind parseU64

/-- Whether a string may be sent as a header value: it has no control character but the tab. -/
def isHeaderValue (value : String) : Bool :=
  value.toList.all fun c => (32 ≤ c.toNat && c.toNat != 127) || c == '\t'

/-- What the client gets. -/
structure ProxyResponse where
  /-- `x-request-id`. -/
  requestId : String
  /-- `x-router-worker`. -/
  routerWorker : String
  /-- `x-router-matched-prefix`. -/
  routerMatchedPrefix : ℕ
  /-- `x-kv-prefix-hit`. -/
  kvPrefixHit : Option String
  /-- `x-completion-tokens`. -/
  completionTokens : Option UInt64
  /-- Whether the content type is that of an event stream. -/
  eventStream : Bool
  /-- The body. -/
  body : ProxyStreamState

/-- Build the client-facing response around an upstream body stream. -/
def buildResponse (upstream : UpstreamResponse) (telemetry : RequestTelemetry)
    (upstreamPrefixHit : Option String) (completionTokens : Option UInt64) (streaming : Bool) :
    Except ApiError ProxyResponse :=
  if isHeaderValue telemetry.requestId && isHeaderValue telemetry.worker.url &&
      upstreamPrefixHit.all isHeaderValue then
    .ok
      { requestId := telemetry.requestId
        routerWorker := telemetry.worker.url
        routerMatchedPrefix := telemetry.matchedPrefixBlocks
        kvPrefixHit := upstreamPrefixHit
        completionTokens
        eventStream := streaming
        body := proxyStream upstream.body telemetry upstreamPrefixHit completionTokens streaming }
  else .error ⟨500, "internal_error", "failed to parse header value"⟩

/-! ## The body of a prefill response -/

/-- How the loop that drains a body ends. -/
inductive Drained where
  /-- The client went away during an await. -/
  | abandoned
  /-- The body ended. -/
  | ended
  /-- The body failed. -/
  | broken (error : String)
deriving DecidableEq, Repr

/-- Read a body chunk by chunk and drop the chunks.  The loop is left at the first error; the
client goes away after `leaves` items, if it does. -/
def drain : List (Except String Bytes) → Option ℕ → Drained
  | _, some 0 => .abandoned
  | [], _ => .ended
  | .error error :: _, _ => .broken error
  | .ok _ :: body, leaves => drain body (leaves.map (· - 1))

/-- A body is read to its end exactly if none of its items is an error and the client stays. -/
theorem drain_eq_ended_iff {body : List (Except String Bytes)} {leaves : Option ℕ} :
    drain body leaves = .ended ↔
      (∀ item ∈ body, ∃ chunk, item = .ok chunk) ∧ ∀ n, leaves = some n → body.length < n := by
  induction body generalizing leaves with
  | nil =>
    match leaves with
    | none => simp [drain]
    | some 0 => simp [drain]
    | some (n + 1) => simp [drain]
  | cons item body ih =>
    match leaves, item with
    | some 0, _ => simp [drain]
    | none, .error error => simp [drain]
    | some (n + 1), .error error => simp [drain]
    | none, .ok chunk => simp [drain, ih]
    | some (n + 1), .ok chunk => simp [drain, ih]

/-- The first error of a body: its first item, or the first error of the other items. -/
private theorem exists_first_error_cons {error : String} {item : Except String Bytes}
    {body : List (Except String Bytes)} {P : List Bytes → Prop} :
    (∃ chunks rest, item :: body = chunks.map .ok ++ .error error :: rest ∧ P chunks) ↔
      (item = .error error ∧ P []) ∨ ∃ chunk, item = .ok chunk ∧
        ∃ chunks rest, body = chunks.map .ok ++ .error error :: rest ∧ P (chunk :: chunks) := by
  constructor
  · rintro ⟨chunks, rest, heq, hP⟩
    cases chunks with
    | nil => exact Or.inl ⟨(List.cons.inj heq).1, hP⟩
    | cons chunk chunks =>
      exact Or.inr ⟨chunk, (List.cons.inj heq).1, chunks, rest, (List.cons.inj heq).2, hP⟩
  · rintro (⟨rfl, hP⟩ | ⟨chunk, rfl, chunks, rest, rfl, hP⟩)
    · exact ⟨[], body, rfl, hP⟩
    · exact ⟨chunk :: chunks, rest, rfl, hP⟩

/-- Draining breaks off exactly at the first error, if the client stays until then. -/
theorem drain_eq_broken_iff {body : List (Except String Bytes)} {leaves : Option ℕ}
    {error : String} : drain body leaves = .broken error ↔
      ∃ (chunks : List Bytes) (rest : List (Except String Bytes)),
        body = chunks.map .ok ++ .error error :: rest ∧
          ∀ n, leaves = some n → chunks.length < n := by
  induction body generalizing leaves with
  | nil =>
    match leaves with
    | none => simp [drain]
    | some 0 => simp [drain]
    | some (n + 1) => simp [drain]
  | cons item body ih =>
    rw [exists_first_error_cons (P := fun chunks => ∀ n, leaves = some n → chunks.length < n)]
    match leaves, item with
    | some 0, _ => simp [drain]
    | none, .error _ => simp [drain]
    | some (n + 1), .error _ => simp [drain]
    | none, .ok chunk => simp [drain, ih]
    | some (n + 1), .ok chunk => simp [drain, ih]

/-! ## Programs -/

/-- What a section of a handler, or of a background task, does. -/
inductive ServerEvent where
  /-- A section of the router or of a background task. -/
  | access (l : Access)
  /-- `registry.all_workers()`, with what it returned. -/
  | listed (workers : List Worker)
  /-- "no worker selected". -/
  | unrouted (pool : Option Pool) (error : RouterError)
  /-- The handler has a worker for the phase it is in. -/
  | selected (worker : WorkerId)
  /-- `InflightGuard::acquire`. -/
  | acquire (worker : WorkerId)
  /-- A guard is dropped. -/
  | release (worker : WorkerId)
  /-- A request is sent to a worker, with the `x-router-phase` it has. -/
  | send (phase : Option Pool) (worker : WorkerId) (url : String)
  /-- "upstream rejected request", "decode phase failed". -/
  | rejected (phase : Option Pool) (worker : String) (status : ℕ)
  /-- "error draining prefill response". -/
  | drainError (worker error : String)
  /-- `kv_transfer.transfer(source, target, blocks)`. -/
  | transfer (source target : WorkerId) (blocks : ℕ)
  /-- `record_kv_transfer`, in milliseconds. -/
  | recordKvTransfer (transferMs : ℕ)
  /-- What else is recorded. -/
  | record (entry : Recorded)
  /-- An item of the response stream is sent to the client. -/
  | deliver (item : Except String Bytes)

/-- A program with the labels of the server. -/
abbrev Serve (α : Type) := Thread Shared ServerEvent α

namespace Serve

/-- A section that touches nothing shared. -/
def note (event : ServerEvent) : Serve Unit := .critical (fun s => (s, ())) fun _ => event

/-- Acquire a guard. -/
def acquire (worker : WorkerId) : Serve Unit :=
  .critical (fun s => ({ s with inflight := s.inflight.increment worker }, ()))
    fun _ => .acquire worker

/-- Drop a guard. -/
def release (worker : WorkerId) : Serve Unit :=
  .critical (fun s => ({ s with inflight := s.inflight.decrement worker }, ()))
    fun _ => .release worker

/-- Record entries. -/
def recordAll : List Recorded → Serve Unit
  | [] => pure ()
  | entry :: entries => do
    note (.record entry)
    recordAll entries

/-- The client polls the response stream until it ends, as often as there are clocks; then it goes
away. -/
def deliverAll : List (ℕ → Instant) → ProxyStreamState → Serve Unit
  | [], _ => pure ()
  | clock :: clocks, state =>
    match state.poll clock with
    | .item item recorded state => do
      recordAll recorded
      note (.deliver item)
      deliverAll clocks state
    | .finished recorded => recordAll recorded

end Serve

/-- A request, with all that the outside does while it is served. -/
structure ServeCall where
  /-- The id of the request. -/
  requestId : String
  /-- The request. -/
  request : ChatCompletionRequest
  /-- Whether the completion is to be streamed. -/
  stream : Bool
  /-- The clock readings of the first selection. -/
  clock : ℕ → Instant
  /-- The outcome of the prefill request. -/
  prefill : Option (Except String UpstreamResponse)
  /-- When the prefill request was sent, and when its body had been drained. -/
  prefillTimes : Instant × Instant
  /-- After how many items of the prefill body the client goes away, if it does. -/
  leaves : Option ℕ
  /-- The clock readings of the selection for decoding. -/
  decodeClock : ℕ → Instant
  /-- The outcome of the KV transfer. -/
  transfer : Option (Except RouterError Unit)
  /-- When the KV transfer started, and when it had ended. -/
  transferTimes : Instant × Instant
  /-- The outcome of the request whose response the client gets. -/
  send : Option (Except String UpstreamResponse)
  /-- When that request was sent. -/
  started : Instant
  /-- The clocks of the polls of the response stream. -/
  polls : List (ℕ → Instant)

/-- Where a worker takes chat completions. -/
def completionsUrl (worker : Worker) : String :=
  String.ofList (worker.url.toList.reverse.dropWhile (· = '/')).reverse ++ "/v1/chat/completions"

/-- What a handler returns, unless the client goes away before. -/
abbrev Served := Option (Except ApiError ProxyResponse)

namespace Router

variable (hasher : Option UInt64 → List Char → UInt64) (fl : F64.Rounding)
  (showStatus : ℕ → String) (router : Router)

/-- The end of both handlers: the request is sent to the worker that answers the client, whose
guard lives until the response stream is dropped.  `failure` is for the message about an answer
that is no success. -/
def serveFrom (call : ServeCall) (phase : Option Pool) (failure : String)
    (decision : RouteDecision) (details : CompletionDetails) : Serve Served := do
  let worker := decision.worker
  Serve.note (.send phase worker.id (completionsUrl worker))
  match call.send with
  | none =>
    Serve.release worker.id
    pure none
  | some (.error error) =>
    Serve.note (.record (.request worker.url router.policy 502))
    Serve.release worker.id
    pure (some (.error (.upstream worker error)))
  | some (.ok upstream) =>
    if upstream.isSuccess then
      let upstreamPrefixHit := prefixHitHeader upstream
      let completionTokens := completionTokensHeader upstream
      let telemetry : RequestTelemetry :=
        { requestId := call.requestId
          worker
          policy := router.policy
          matchedPrefixBlocks := decision.matchedPrefixLen
          promptBlocks := decision.promptBlocks
          score := decision.score
          started := call.started
          details }
      match buildResponse upstream telemetry upstreamPrefixHit completionTokens call.stream with
      | .ok response =>
        Serve.deliverAll call.polls response.body
        Serve.release worker.id
        pure (some (.ok response))
      | .error error =>
        Serve.release worker.id
        pure (some (.error error))
    else
      Serve.note (.rejected phase worker.url upstream.status)
      Serve.note (.record (.request worker.url router.policy 502))
      Serve.release worker.id
      pure (some (.error (.upstream worker (failure ++ showStatus upstream.status))))

/-- A selection that failed. -/
def serveUnrouted (pool : Option Pool) (error : RouterError) : Serve Served := do
  Serve.note (.unrouted pool error)
  Serve.note (.record (.request "unrouted" router.policy 503))
  pure (some (.error (.ofRouterError error)))

/-- Route to a single worker and stream the upstream response back unchanged. -/
def serveProxied (call : ServeCall) : Serve Served := do
  match ← (router.selectForChat hasher fl call.clock call.request).relabel .access with
  | .error error => router.serveUnrouted none error
  | .ok decision =>
    Serve.note (.selected decision.worker.id)
    Serve.acquire decision.worker.id
    router.serveFrom showStatus call none "upstream returned " decision .single

/-- The prefill phase: what it returns before the guard is dropped, or nothing if the handler goes
on. -/
def servePrefill (call : ServeCall) (worker : Worker) : Serve (Option Served) := do
  Serve.note (.send (some .prefill) worker.id (completionsUrl worker))
  match call.prefill with
  | none => pure (some none)
  | some (.error error) =>
    Serve.note (.record (.request worker.url router.policy 502))
    pure (some (some (.error (.upstream worker error))))
  | some (.ok response) =>
    if response.isSuccess then
      match drain response.body call.leaves with
      | .abandoned => pure (some none)
      | .ended => pure none
      | .broken error =>
        -- the handler goes on as if the body had ended
        Serve.note (.drainError worker.url error)
        pure none
    else
      Serve.note (.record (.request worker.url router.policy 502))
      pure (some (some (.error
        (.upstream worker ("prefill phase returned " ++ showStatus response.status)))))

/-- The KV transfer and the decode phase. -/
def serveDecode (call : ServeCall) (chain : List UInt64) (prefill : Worker)
    (decode : RouteDecision) : Serve Served := do
  Serve.note (.selected decode.worker.id)
  Serve.note (.transfer prefill.id decode.worker.id chain.length)
  match call.transfer with
  | none => pure none
  | some (.error error) =>
    Serve.note (.record (.request decode.worker.url router.policy 502))
    pure (some (.error (.ofRouterError error)))
  | some (.ok ()) =>
    let transferMs := asMillis (call.transferTimes.2 - call.transferTimes.1)
    Serve.note (.recordKvTransfer transferMs)
    Serve.acquire decode.worker.id
    let prefillMs := asMillis (call.prefillTimes.2 - call.prefillTimes.1)
    router.serveFrom showStatus call (some .decode) "decode phase returned " decode
      (.disaggregated prefill.url prefillMs transferMs)

/-- Two-phase routing: prefill on a worker of the prefill pool, KV transfer, then decode on a worker
of the decode pool. -/
def serveDisaggregated (call : ServeCall) : Serve Served := do
  let chain := chainHash hasher call.request.canonicalPrompt router.blockSize
  match ← (router.selectInPool fl call.clock .prefill chain).relabel .access with
  | .error error => router.serveUnrouted (some .prefill) error
  | .ok prefill =>
    Serve.note (.selected prefill.worker.id)
    Serve.acquire prefill.worker.id
    let returned ← router.servePrefill showStatus call prefill.worker
    Serve.release prefill.worker.id
    match returned with
    | some served => pure served
    | none =>
      match ← (router.selectInPool fl call.decodeClock .decode chain).relabel .access with
      | .error error => router.serveUnrouted (some .decode) error
      | .ok decode => router.serveDecode showStatus call chain prefill.worker decode

end Router

/-- A chat completion request. -/
inductive ServeRequest where
  /-- Served by `serve_proxied`. -/
  | proxied (call : ServeCall)
  /-- Served by `serve_disaggregated`. -/
  | disaggregated (call : ServeCall)

/-- The handler of a request. -/
def ServeRequest.program (hasher : Option UInt64 → List Char → UInt64) (fl : F64.Rounding)
    (showStatus : ℕ → String) (router : Router) : ServeRequest → Serve Served
  | proxied call => router.serveProxied hasher fl showStatus call
  | disaggregated call => router.serveDisaggregated hasher fl showStatus call

end KvRoute
