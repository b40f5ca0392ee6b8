import Mathlib.Data.UInt
import KvRoute.Core.Router
import KvRoute.Sdk.Client

set_option relaxedAutoImplicit false
set_option autoImplicit false

/-!
# The proxied response stream

`proxy_stream` (`crates/router-server/src/api.rs`) passes the upstream body on to the client chunk
by chunk, terminates a streamed completion with `data: [DONE]`, counts its tokens, and records the
request when the body has ended.

The upstream body is the list of items it still yields; afterwards it stays at its end.  A poll
reads the clock at two places at most, which are `clock 0` and `clock 1`; times are in nanoseconds.

## Main definitions

* `KvRoute.RequestTelemetry`, `RequestTelemetry.finish` — what is recorded of a served request.
* `KvRoute.ProxyStreamState`, `ProxyStreamState.poll` — one poll of the response stream.
* `ProxyStreamState.run` — a consumer that polls a number of times.

## Main results

* `ProxyStreamState.run_chunks` — what a client receives of a body that ends without error.
-/

namespace KvRoute

/-- Bytes of a body. -/
abbrev Bytes := List UInt8

/-- The bytes of an ASCII text. -/
def ascii (text : List Char) : Bytes := text.map fun c => c.toNat.toUInt8

/-! ## What is recorded -/

/-- How a request was served. -/
inductive CompletionDetails where
  /-- By one worker. -/
  | single
  /-- In two phases. -/
  | disaggregated (prefillWorker : String) (prefillMs kvTransferMs : ℕ)
deriving DecidableEq, Repr

/-- The log record of a served request. -/
structure ServedRecord where
  /-- The request. -/
  requestId : String
  /-- The worker that answered; the decode worker of two phases. -/
  worker : String
  /-- Its pool. -/
  pool : Pool
  /-- The routing policy. -/
  policy : RoutingPolicy
  /-- Matched prefix of the prompt's chain. -/
  matchedPrefixBlocks : ℕ
  /-- Number of blocks of the chain. -/
  promptBlocks : ℕ
  /-- The selection score. -/
  score : F64
  /-- Tokens of the completion. -/
  tokens : UInt64
  /-- The worker's own report of its prefix hit. -/
  upstreamPrefixHit : String
  /-- Time to the first chunk. -/
  ttftMs : ℕ
  /-- Time to the end. -/
  totalLatencyMs : ℕ
  /-- How it was served. -/
  details : CompletionDetails
deriving DecidableEq, Repr

/-- What the server records: log records and calls of `metrics`. -/
inductive Recorded where
  /-- "chat completion served". -/
  | served (record : ServedRecord)
  /-- "upstream stream error". -/
  | streamError (requestId worker error : String)
  /-- `record_request`. -/
  | request (worker : String) (policy : RoutingPolicy) (status : ℕ)
  /-- `record_cache_hit_blocks`. -/
  | cacheHitBlocks (blocks : ℕ)
  /-- `record_prompt_blocks`. -/
  | promptBlocks (blocks : ℕ)
  /-- `record_hit_stats`. -/
  | hitStats (worker : String) (matchedBlocks promptBlocks : ℕ)
  /-- `record_ttft`. -/
  | ttft (policy : RoutingPolicy) (duration : Duration)
  /-- `record_request_duration`. -/
  | requestDuration (policy : RoutingPolicy) (duration : Duration)
  /-- `record_tokens_generated`. -/
  | tokensGenerated (worker : String) (tokens : UInt64)
deriving DecidableEq, Repr

/-- Whole milliseconds of a duration. -/
def asMillis (duration : Duration) : ℕ := duration / 1000000

/-- Bookkeeping of one proxied request. -/
structure RequestTelemetry where
  /-- The request. -/
  requestId : String
  /-- The worker that answers. -/
  worker : Worker
  /-- The routing policy. -/
  policy : RoutingPolicy
  /-- Matched prefix of the prompt's chain. -/
  matchedPrefixBlocks : ℕ
  /-- Number of blocks of the chain. -/
  promptBlocks : ℕ
  /-- The selection score. -/
  score : F64
  /-- When the upstream call started. -/
  started : Instant
  /-- How the request is served. -/
  details : CompletionDetails
deriving DecidableEq, Repr

/-- Record a served request. -/
def RequestTelemetry.finish (telemetry : RequestTelemetry) (ttft total : Duration)
    (upstreamPrefixHit : Option String) (tokens : UInt64) : List Recorded :=
  [.served
    { requestId := telemetry.requestId
      worker := telemetry.worker.url
      pool := telemetry.worker.pool
      policy := telemetry.policy
      matchedPrefixBlocks := telemetry.matchedPrefixBlocks
      promptBlocks := telemetry.promptBlocks
      score := telemetry.score
      tokens
      upstreamPrefixHit := upstreamPrefixHit.getD "n/a"
      ttftMs := asMillis ttft
      totalLatencyMs := asMillis total
      details := telemetry.details },
    .request telemetry.worker.url telemetry.policy 200,
    .cacheHitBlocks telemetry.matchedPrefixBlocks,
    .promptBlocks telemetry.promptBlocks,
    .hitStats telemetry.worker.url telemetry.matchedPrefixBlocks telemetry.promptBlocks,
    .ttft telemetry.policy ttft,
    .requestDuration telemetry.policy total,
    .tokensGenerated telemetry.worker.url tokens]

/-! ## The stream -/

/-- Some window of a chunk is the line that ends a stream. -/
def chunkContainsDone (chunk : Bytes) : Bool :=
  (Slices.windows 12 chunk).any fun window => window == ascii doneLine

/-- A chunk is taken for the end of a stream exactly if it contains the line somewhere. -/
theorem chunkContainsDone_iff (chunk : Bytes) :
    chunkContainsDone chunk = true ↔ ascii doneLine <:+: chunk :=
  Slices.any_windows_eq_iff (ascii doneLine) chunk

/-- The mark of an event with a token. -/
def contentMark : Bytes := ascii "\"content\"".toList

/-- Count streamed `delta.content` events. -/
def countContentChunks (chunk : Bytes) : UInt64 :=
  ((Slices.windows contentMark.length chunk).filter fun window =>
    window == contentMark).length.toUInt64

/-- The state of a response stream. -/
structure ProxyStreamState where
  /-- What the upstream body still yields. -/
  inner : List (Except String Bytes)
  /-- The bookkeeping of the request. -/
  telemetry : RequestTelemetry
  /-- The worker's own report of its prefix hit. -/
  upstreamPrefixHit : Option String
  /-- The upstream's count of tokens, for responses that are not streamed. -/
  completionTokens : Option UInt64
  /-- Whether the completion is streamed. -/
  streaming : Bool
  /-- Whether the end of the stream has been seen or sent. -/
  doneSeen : Bool
  /-- Time to the first chunk. -/
  firstChunkAfter : Option Duration
  /-- Tokens counted in streamed chunks. -/
  tokens : UInt64
  /-- Whether the upstream body has failed. -/
  errored : Bool

/-- The stream of an upstream body. -/
def proxyStream (upstream : List (Except String Bytes)) (telemetry : RequestTelemetry)
    (upstreamPrefixHit : Option String) (completionTokens : Option UInt64) (streaming : Bool) :
    ProxyStreamState where
  inner := upstream
  telemetry := telemetry
  upstreamPrefixHit := upstreamPrefixHit
  completionTokens := completionTokens
  streaming := streaming
  doneSeen := false
  firstChunkAfter := none
  tokens := 0
  errored := false

/-- What a poll yields. -/
inductive Polled where
  /-- An item for the client. -/
  | item (item : Except String Bytes) (recorded : List Recorded) (state : ProxyStreamState)
  /-- The end of the stream. -/
  | finished (recorded : List Recorded)

namespace ProxyStreamState

/-- One poll. -/
def poll (state : ProxyStreamState) (clock : ℕ → Instant) : Polled :=
  match state.inner with
  | .ok chunk :: inner =>
    .item (.ok chunk) []
      { state with
        inner
        firstChunkAfter := some (state.firstChunkAfter.getD (clock 0 - state.telemetry.started))
        doneSeen :=
          if state.streaming && !state.doneSeen && chunkContainsDone chunk then true
          else state.doneSeen
        tokens :=
          if state.streaming then state.tokens + countContentChunks chunk else state.tokens }
  | .error error :: inner =>
    .item (.error error) [.streamError state.telemetry.requestId state.telemetry.worker.url error]
      { state with inner, errored := true }
  | [] =>
    if state.streaming && !state.doneSeen then
      .item (.ok (ascii doneEvent)) [] { state with doneSeen := true }
    else if state.errored then
      .finished [.request state.telemetry.worker.url state.telemetry.policy 502]
    else
      .finished (state.telemetry.finish
        (state.firstChunkAfter.getD (clock 0 - state.telemetry.started))
        (clock 1 - state.telemetry.started) state.upstreamPrefixHit
        (if state.streaming then state.tokens else state.completionTokens.getD 0))

/-- What a consumer gets. -/
structure Delivered where
  /-- The items it was sent. -/
  items : List (Except String Bytes)
  /-- What the server recorded meanwhile. -/
  recorded : List Recorded
  /-- Whether the stream has ended. -/
  ended : Bool

/-- The bytes that were sent. -/
def Delivered.bytes (delivered : Delivered) : Bytes :=
  delivered.items.flatMap fun item => item.toOption.getD []

/-- A consumer polls until the stream ends, as often as there are clocks. -/
def run (state : ProxyStreamState) : List (ℕ → Instant) → Delivered
  | [] => ⟨[], [], false⟩
  | clock :: clocks =>
    match state.poll clock with
    | .item item recorded state =>
      let rest := run state clocks
      ⟨item :: rest.items, recorded ++ rest.recorded, rest.ended⟩
    | .finished recorded => ⟨[], recorded, true⟩

/-- A chunk is passed on, and looked through if the completion is streamed. -/
theorem poll_ok {state : ProxyStreamState} {chunk : Bytes} {inner : List (Except String Bytes)}
    (hinner : state.inner = .ok chunk :: inner) (clock : ℕ → Instant) :
    ∃ after, state.poll clock = .item (.ok chunk) [] { state with
      inner
      firstChunkAfter := after
      doneSeen := state.doneSeen || state.streaming && chunkContainsDone chunk
      tokens :=
        if state.streaming then state.tokens + countContentChunks chunk else state.tokens } := by
  refine ⟨some (state.firstChunkAfter.getD (clock 0 - state.telemetry.started)), ?_⟩
  have hdone : (if state.streaming && !state.doneSeen && chunkContainsDone chunk then true
      else state.doneSeen) = (state.doneSeen || state.streaming && chunkContainsDone chunk) := by
    cases state.streaming <;> cases state.doneSeen <;> cases chunkContainsDone chunk <;> rfl
  rw [poll, hinner]
  dsimp only
  rw [hdone]

/-- At its end a streamed body that did not contain the last event has it added. -/
theorem poll_nil_item {state : ProxyStreamState} (hinner : state.inner = [])
    (hwants : (state.streaming && !state.doneSeen) = true) (clock : ℕ → Instant) :
    state.poll clock = .item (.ok (ascii doneEvent)) [] { state with doneSeen := true } := by
  rw [poll, hinner]
  exact if_pos hwants

/-- At the end of any other body the stream ends, and the request is recorded; as a success, if the
body has not failed. -/
theorem poll_nil_finished {state : ProxyStreamState} (hinner : state.inner = [])
    (hwants : (state.streaming && !state.doneSeen) = false) (clock : ℕ → Instant) :
    ∃ recorded, state.poll clock = .finished recorded ∧
      (state.errored = false → ∃ ttft total, recorded = state.telemetry.finish ttft total
        state.upstreamPrefixHit
        (if state.streaming then state.tokens else state.completionTokens.getD 0)) := by
  rw [poll, hinner]
  dsimp only
  rw [if_neg (by simp [hwants])]
  cases state.errored with
  | true => exact ⟨_, rfl, nofun⟩
  | false => exact ⟨_, rfl, fun _ => ⟨_, _, rfl⟩⟩

theorem run_cons_item {state state' : ProxyStreamState} {clock : ℕ → Instant}
    {item : Except String Bytes} {recorded : List Recorded}
    (h : state.poll clock = .item item recorded state') (clocks : List (ℕ → Instant)) :
    state.run (clock :: clocks) = ⟨item :: (state'.run clocks).items,
      recorded ++ (state'.run clocks).recorded, (state'.run clocks).ended⟩ := by
  rw [run, h]

theorem run_cons_finished {state : ProxyStreamState} {clock : ℕ → Instant}
    {recorded : List Recorded} (h : state.poll clock = .finished recorded)
    (clocks : List (ℕ → Instant)) : state.run (clock :: clocks) = ⟨[], recorded, true⟩ := by
  rw [run, h]

/-- **A body without error.**  A consumer that polls often enough receives the chunks of the
body, and the last event after them if the completion is streamed and none of the chunks contains
its line; then the stream ends, and the request is recorded with the tokens that the chunks contain,
or with those that the upstream reported.

**Proof sketch.** Induction on the chunks: a poll passes one on, notes whether it contains the line
and adds its tokens.  At the end of the body one more poll may add the event, and the next one ends
the stream. -/
theorem run_chunks (chunks : List Bytes) (state : ProxyStreamState)
    (hinner : state.inner = chunks.map .ok) (herrored : state.errored = false)
    (clocks : List (ℕ → Instant)) (hclocks : chunks.length + 2 ≤ clocks.length) :
    (state.run clocks).items = chunks.map .ok ++
        (if state.streaming && !(state.doneSeen || chunks.any chunkContainsDone) then
          [.ok (ascii doneEvent)] else []) ∧
      (state.run clocks).ended = true ∧
      ∃ ttft total, (state.run clocks).recorded = state.telemetry.finish ttft total
        state.upstreamPrefixHit
        (if state.streaming then state.tokens + (chunks.map countContentChunks).sum
          else state.completionTokens.getD 0) := by
  induction chunks generalizing state clocks with
  | nil =>
    obtain ⟨clock, clock', clocks, rfl⟩ : ∃ c c' cs, clocks = c :: c' :: cs := by
      match clocks, hclocks with
      | c :: c' :: cs, _ => exact ⟨c, c', cs, rfl⟩
    cases hwants : (state.streaming && !state.doneSeen) with
    | false =>
      obtain ⟨recorded, hpoll, hrecorded⟩ := poll_nil_finished hinner hwants clock
      rw [run_cons_finished hpoll]
      simpa [hwants] using hrecorded herrored
    | true =>
      rw [run_cons_item (poll_nil_item hinner hwants clock)]
      obtain ⟨recorded, hpoll, hrecorded⟩ :=
        @poll_nil_finished { state with doneSeen := true } hinner (by simp) clock'
      rw [run_cons_finished hpoll]
      simpa [hwants] using hrecorded herrored
  | cons chunk chunks ih =>
    obtain ⟨clock, clocks, rfl⟩ : ∃ c cs, clocks = c :: cs := by
      match clocks, hclocks with
      | c :: cs, _ => exact ⟨c, cs, rfl⟩
    obtain ⟨after, hpoll⟩ := poll_ok hinner clock
    rw [run_cons_item hpoll]
    obtain ⟨hitems, hended, hrecorded⟩ := ih
      { state with
        inner := chunks.map .ok
        firstChunkAfter := after
        doneSeen := state.doneSeen || state.streaming && chunkContainsDone chunk
        tokens :=
          if state.streaming then state.tokens + countContentChunks chunk else state.tokens }
      rfl herrored clocks (by simpa using hclocks)
    refine ⟨?_, hended, ?_⟩
    · dsimp only at hitems ⊢
      rw [hitems]
      cases state.streaming <;> simp [Bool.or_assoc]
    · dsimp only at hrecorded ⊢
      rw [List.nil_append]
      cases hstreaming : state.streaming <;> simpa [hstreaming, UInt64.add_assoc] using hrecorded

/-- The bytes that are sent of a body without error. -/
theorem bytes_run_chunks (chunks : List Bytes) (telemetry : RequestTelemetry)
    (upstreamPrefixHit : Option String) (completionTokens : Option UInt64) (streaming : Bool)
    (clocks : List (ℕ → Instant)) (hclocks : chunks.length + 2 ≤ clocks.length) :
    ((proxyStream (chunks.map .ok) telemetry upstreamPrefixHit completionTokens streaming).run
        clocks).bytes =
      chunks.flatten ++
        if streaming && !chunks.any chunkContainsDone then ascii doneEvent else [] := by
  obtain ⟨hitems, -⟩ := run_chunks chunks
    (proxyStream (chunks.map .ok) telemetry upstreamPrefixHit completionTokens streaming) rfl rfl
    clocks hclocks
  have hchunks : (chunks.map Except.ok).flatMap
      (fun item : Except String Bytes => item.toOption.getD []) = chunks.flatten := by
    rw [List.flatMap_map]
    exact List.flatMap_id
  rw [Delivered.bytes, hitems, List.flatMap_append, hchunks]
  refine congrArg (chunks.flatten ++ ·) ?_
  simp only [proxyStream, Bool.false_or]
  split_ifs
  · exact List.append_nil _
  · rfl

end ProxyStreamState

end KvRoute
