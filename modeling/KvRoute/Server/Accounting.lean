import KvRoute.Server.ProxyStream

set_option relaxedAutoImplicit false
set_option autoImplicit false

/-!
# Accounting of served requests

A proxied request is counted where its response stream reports its end.  This module follows the
stream under the HTTP server, which polls it until it ends, gives it up at the first error item,
and may lose its client before any poll, and determines for which bodies and how many polls the
request is counted.

## Main definitions

* `KvRoute.ProxyStreamState.serve` — the stream as the HTTP server consumes it.
* `KvRoute.AccountedOnce` — the request is counted exactly once, with the status it deserves.
* `KvRoute.pollsToEnd` — how many polls reach the end of a body without error.

## Main results

* `KvRoute.proxyStream_accounted_iff` — a request is accounted for exactly if its body has no
  error and the client stays until the end is reported.
-/

namespace KvRoute

/-! ## The consumer -/

/-- The requests that were counted, with their labels. -/
def countedRequests (recorded : List Recorded) : List (String × RoutingPolicy × ℕ) :=
  recorded.filterMap fun
    | .request worker policy status => some (worker, policy, status)
    | _ => none

@[simp] theorem countedRequests_nil : countedRequests [] = [] := rfl

/-- A finished request is counted once, as a success. -/
@[simp] theorem countedRequests_finish (telemetry : RequestTelemetry) (ttft total : Duration)
    (upstreamPrefixHit : Option String) (tokens : UInt64) :
    countedRequests (telemetry.finish ttft total upstreamPrefixHit tokens) =
      [(telemetry.worker.url, telemetry.policy, 200)] := rfl

/-- The HTTP server polls until the stream ends or yields an error; it drops the stream then, or
earlier, when the client has gone: after as many polls as there are clocks. -/
def ProxyStreamState.serve (state : ProxyStreamState) : List (ℕ → Instant) → Delivered
  | [] => ⟨[], [], false⟩
  | clock :: clocks =>
    match state.poll clock with
    | .item (.ok chunk) recorded state =>
      let rest := serve state clocks
      ⟨.ok chunk :: rest.items, recorded ++ rest.recorded, rest.ended⟩
    | .item (.error error) recorded _ => ⟨[.error error], recorded, false⟩
    | .finished recorded => ⟨[], recorded, true⟩

/-- The request is counted exactly once: as a 502 if the client was sent an error, and as a 200
if the stream came to its end without one. -/
structure AccountedOnce (telemetry : RequestTelemetry) (delivered : ProxyStreamState.Delivered) :
    Prop where
  /-- One request is counted. -/
  once : ∃ status, countedRequests delivered.recorded =
    [(telemetry.worker.url, telemetry.policy, status)]
  /-- A failed stream is counted as such. -/
  failed : (∃ error, .error error ∈ delivered.items) →
    ∀ r ∈ countedRequests delivered.recorded, r.2.2 = 502
  /-- A stream that ended cleanly is counted as such. -/
  succeeded : delivered.ended = true → (∀ error, .error error ∉ delivered.items) →
    ∀ r ∈ countedRequests delivered.recorded, r.2.2 = 200

/-! ## The way to the end -/

/-- Whether an item is a chunk that is taken for the end of a stream. -/
def itemContainsDone (item : Except String Bytes) : Bool :=
  chunkContainsDone (item.toOption.getD [])

/-- The polls that reach the end of a body: one for each chunk, one for the terminator if it is
streamed without one, and one that reports the end. -/
def pollsToEnd (upstream : List (Except String Bytes)) (streaming : Bool) : ℕ :=
  upstream.length + (if streaming && !upstream.any itemContainsDone then 1 else 0) + 1

namespace ProxyStreamState

/-- Whether the stream still has to add a terminator at the end of its body. -/
def wantsDone (state : ProxyStreamState) : Bool :=
  state.streaming && !(state.doneSeen || state.inner.any itemContainsDone)

/-- A chunk is passed on; whether a terminator will be needed was known before. -/
theorem poll_ok_wantsDone {state : ProxyStreamState} {chunk : Bytes}
    {inner : List (Except String Bytes)} (hinner : state.inner = .ok chunk :: inner)
    (clock : ℕ → Instant) :
    ∃ state', state.poll clock = .item (.ok chunk) [] state' ∧ state'.inner = inner ∧
      state'.telemetry = state.telemetry ∧ state'.errored = state.errored ∧
      state'.wantsDone = state.wantsDone := by
  obtain ⟨after, hpoll⟩ := poll_ok hinner clock
  refine ⟨_, hpoll, rfl, rfl, rfl, ?_⟩
  have hitem : itemContainsDone (.ok chunk) = chunkContainsDone chunk := rfl
  simp only [wantsDone, hinner, List.any_cons, hitem]
  cases state.streaming <;> simp [Bool.or_assoc]

/-- At the end of its body a stream wants a terminator if it has not seen one. -/
theorem wantsDone_of_nil {state : ProxyStreamState} (hinner : state.inner = []) :
    state.wantsDone = (state.streaming && !state.doneSeen) := by
  simp [wantsDone, hinner]

/-- An upstream error is passed on, and logged. -/
theorem poll_error {state : ProxyStreamState} {error : String}
    {inner : List (Except String Bytes)} (hinner : state.inner = .error error :: inner)
    (clock : ℕ → Instant) :
    ∃ state', state.poll clock = .item (.error error)
      [.streamError state.telemetry.requestId state.telemetry.worker.url error] state' := by
  cases state with
  | mk inner' telemetry hit completionTokens streaming doneSeen firstChunkAfter tokens errored =>
    dsimp only at hinner
    subst hinner
    exact ⟨_, rfl⟩

theorem serve_cons_ok {state state' : ProxyStreamState} {clock : ℕ → Instant} {chunk : Bytes}
    {recorded : List Recorded} (h : state.poll clock = .item (.ok chunk) recorded state')
    (clocks : List (ℕ → Instant)) :
    state.serve (clock :: clocks) = ⟨.ok chunk :: (state'.serve clocks).items,
      recorded ++ (state'.serve clocks).recorded, (state'.serve clocks).ended⟩ := by
  rw [serve, h]

theorem serve_cons_error {state state' : ProxyStreamState} {clock : ℕ → Instant} {error : String}
    {recorded : List Recorded} (h : state.poll clock = .item (.error error) recorded state')
    (clocks : List (ℕ → Instant)) :
    state.serve (clock :: clocks) = ⟨[.error error], recorded, false⟩ := by
  rw [serve, h]

theorem serve_cons_finished {state : ProxyStreamState} {clock : ℕ → Instant}
    {recorded : List Recorded} (h : state.poll clock = .finished recorded)
    (clocks : List (ℕ → Instant)) : state.serve (clock :: clocks) = ⟨[], recorded, true⟩ := by
  rw [serve, h]

/-- The polls that a stream needs to report the end of its body. -/
def pollsLeft (state : ProxyStreamState) : ℕ :=
  state.inner.length + (if state.wantsDone then 1 else 0) + 1

/-- At the end of its body a stream that has not failed counts its request, as a success, with
the poll that reports the end. -/
theorem counted_serve_nil {state : ProxyStreamState} (hinner : state.inner = [])
    (herrored : state.errored = false) (clocks : List (ℕ → Instant)) :
    countedRequests (state.serve clocks).recorded =
      if state.pollsLeft ≤ clocks.length then
        [(state.telemetry.worker.url, state.telemetry.policy, 200)] else [] := by
  have hlast : ∀ state' : ProxyStreamState, state'.inner = [] → state'.errored = false →
      state'.wantsDone = false → ∀ clocks', countedRequests (state'.serve clocks').recorded =
        if 1 ≤ clocks'.length then
          [(state'.telemetry.worker.url, state'.telemetry.policy, 200)] else [] := by
    intro state' hinner' herrored' hwants' clocks'
    cases clocks' with
    | nil => rfl
    | cons clock clocks' =>
      obtain ⟨recorded, hpoll, hrecorded⟩ :=
        poll_nil_finished hinner' ((wantsDone_of_nil hinner').symm.trans hwants') clock
      obtain ⟨ttft, total, rfl⟩ := hrecorded herrored'
      have hone : 1 ≤ (clock :: clocks').length := by simp
      rw [serve_cons_finished hpoll, if_pos hone]
      exact countedRequests_finish ..
  cases hwants : state.wantsDone with
  | false =>
    have hpolls : state.pollsLeft = 1 := by simp [pollsLeft, hinner, hwants]
    rw [hpolls, hlast state hinner herrored hwants]
  | true =>
    have hpolls : state.pollsLeft = 2 := by simp [pollsLeft, hinner, hwants]
    cases clocks with
    | nil => rw [hpolls]; rfl
    | cons clock clocks =>
      -- the terminator has been sent, and the end is reported by the next poll
      have hdone : { state with doneSeen := true }.wantsDone = false := by simp [wantsDone]
      have hpoll := poll_nil_item hinner ((wantsDone_of_nil hinner).symm.trans hwants) clock
      rw [serve_cons_ok hpoll, List.nil_append, hpolls,
        hlast { state with doneSeen := true } hinner herrored hdone]
      simp

/-- **What is counted of a response.**  A stream that has not failed yet counts its request, as a
success, exactly if the rest of its body has no error and the polls reach its end; nothing else
is counted.

**Proof sketch.** Induction on the rest of the body.  A chunk is passed on and one poll is used
up; at an error item the server gives the stream up before anything is counted; at the end the
terminator may take one more poll before the one that counts. -/
theorem counted_serve (state : ProxyStreamState) (herrored : state.errored = false)
    (clocks : List (ℕ → Instant)) :
    countedRequests (state.serve clocks).recorded =
      if (∀ item ∈ state.inner, item.isOk = true) ∧ state.pollsLeft ≤ clocks.length then
        [(state.telemetry.worker.url, state.telemetry.policy, 200)] else [] := by
  generalize hrest : state.inner = rest
  induction rest generalizing state clocks with
  | nil => simpa using counted_serve_nil hrest herrored clocks
  | cons item rest ih =>
    cases clocks with
    | nil =>
      have hnone : ¬state.pollsLeft ≤ ([] : List (ℕ → Instant)).length := by simp [pollsLeft]
      rw [if_neg fun h => hnone h.2]
      rfl
    | cons clock clocks =>
      cases item with
      | ok chunk =>
        obtain ⟨state', hpoll, hrest', htelemetry, herrored', hwants⟩ := poll_ok_wantsDone hrest clock
        have hpolls : state.pollsLeft = state'.pollsLeft + 1 := by
          simp only [pollsLeft, hrest, hrest', hwants, List.length_cons]
          omega
        have hok : (Except.ok chunk : Except String Bytes).isOk = true := rfl
        rw [serve_cons_ok hpoll, List.nil_append,
          ih state' (herrored'.trans herrored) clocks hrest', htelemetry, hpolls]
        simp [hok]
      | error error =>
        obtain ⟨state', hpoll⟩ := poll_error hrest clock
        have hbad : ¬∀ item ∈ Except.error error :: rest, item.isOk = true := fun h =>
          nomatch h _ List.mem_cons_self
        rw [serve_cons_error hpoll, if_neg fun h => hbad h.1]
        rfl

/-- What a poll yields is an item of the body or the terminator, and the body only shrinks. -/
theorem poll_item {state state' : ProxyStreamState} {clock : ℕ → Instant}
    {item : Except String Bytes} {recorded : List Recorded}
    (h : state.poll clock = .item item recorded state') :
    (item ∈ state.inner ∨ item = .ok (ascii doneEvent)) ∧ ∀ i ∈ state'.inner, i ∈ state.inner := by
  unfold poll at h
  split at h
  case h_1 chunk inner hinner =>
    obtain ⟨rfl, -, rfl⟩ := Polled.item.inj h
    exact ⟨Or.inl (hinner ▸ List.mem_cons_self), fun i hi => hinner ▸ List.mem_cons_of_mem _ hi⟩
  case h_2 error inner hinner =>
    obtain ⟨rfl, -, rfl⟩ := Polled.item.inj h
    exact ⟨Or.inl (hinner ▸ List.mem_cons_self), fun i hi => hinner ▸ List.mem_cons_of_mem _ hi⟩
  case h_3 hinner =>
    split_ifs at h
    obtain ⟨rfl, -, rfl⟩ := Polled.item.inj h
    exact ⟨Or.inr rfl, fun i hi => hi⟩

/-- The errors that are sent are errors of the body. -/
theorem error_mem_inner {state : ProxyStreamState} {clocks : List (ℕ → Instant)} {error : String}
    (h : .error error ∈ (state.serve clocks).items) : .error error ∈ state.inner := by
  induction clocks generalizing state with
  | nil => exact absurd h List.not_mem_nil
  | cons clock clocks ih =>
    cases hpoll : state.poll clock with
    | finished recorded =>
      rw [serve_cons_finished hpoll] at h
      exact absurd h List.not_mem_nil
    | item item recorded state' =>
      obtain ⟨hitem, hinner⟩ := poll_item hpoll
      cases item with
      | ok chunk =>
        rw [serve_cons_ok hpoll] at h
        exact hinner _ (ih ((List.mem_cons.mp h).resolve_left nofun))
      | error error' =>
        rw [serve_cons_error hpoll] at h
        rw [List.mem_singleton.mp h]
        exact hitem.resolve_right nofun

end ProxyStreamState

/-! ## The condition -/

/-- **When a request is accounted for.**  For every upstream body, streamed or not, and a client
that stays for any number of polls: the request is counted exactly once, with the right status,
if and only if the body has no error item and the client stays until the stream reports its end.

**Proof sketch.** `ProxyStreamState.counted_serve` tells what is counted: nothing, unless the
condition holds, and then one success.  In that case no error was sent
(`ProxyStreamState.error_mem_inner`). -/
theorem proxyStream_accounted_iff (upstream : List (Except String Bytes))
    (telemetry : RequestTelemetry) (upstreamPrefixHit : Option String)
    (completionTokens : Option UInt64) (streaming : Bool) (clocks : List (ℕ → Instant)) :
    AccountedOnce telemetry ((proxyStream upstream telemetry upstreamPrefixHit completionTokens
        streaming).serve clocks) ↔
      (∀ item ∈ upstream, item.isOk = true) ∧ pollsToEnd upstream streaming ≤ clocks.length := by
  have hcounted := (proxyStream upstream telemetry upstreamPrefixHit completionTokens
    streaming).counted_serve rfl clocks
  have hpolls : (proxyStream upstream telemetry upstreamPrefixHit completionTokens
      streaming).pollsLeft = pollsToEnd upstream streaming := by
    simp [ProxyStreamState.pollsLeft, ProxyStreamState.wantsDone, pollsToEnd, proxyStream]
  rw [hpolls] at hcounted
  constructor
  · intro h
    obtain ⟨status, honce⟩ := h.once
    by_contra hcondition
    rw [honce] at hcounted
    exact absurd (hcounted.trans (if_neg hcondition)) (List.cons_ne_nil _ _)
  · intro hcondition
    have hone := hcounted.trans (if_pos hcondition)
    refine { once := ⟨200, hone⟩, failed := ?failed, succeeded := ?succeeded }
    case failed =>
      rintro ⟨error, herror⟩
      cases hcondition.1 _ (ProxyStreamState.error_mem_inner herror)
    case succeeded =>
      intro _ _ r hr
      rw [hone] at hr
      rw [List.mem_singleton.mp hr]

/-- A streamed request to a worker that dies after its first chunk. -/
def deadWorkerStream : ProxyStreamState :=
  proxyStream [.ok (ascii "data: \x7b\x7d\n\n".toList), .error "connection reset"]
    ⟨"r", ⟨0, "http://a:8001", .both⟩, .roundRobin, 0, 1, .finite 0, 0, .single⟩ none none true

/-- The client is sent the error, and no request is counted; nor is one if the client leaves after
the first chunk. -/
theorem proxyStream_uncounted :
    let failed := deadWorkerStream.serve (List.replicate 4 fun _ => 0)
    let left := deadWorkerStream.serve [fun _ => 0]
    (.error "connection reset" ∈ failed.items ∧ countedRequests failed.recorded = [] ∧
        ¬AccountedOnce deadWorkerStream.telemetry failed) ∧
      countedRequests left.recorded = [] ∧ ¬AccountedOnce deadWorkerStream.telemetry left := by
  have hnot : ∀ delivered : ProxyStreamState.Delivered, countedRequests delivered.recorded = [] →
      ¬AccountedOnce deadWorkerStream.telemetry delivered := by
    intro delivered hnone h
    obtain ⟨status, honce⟩ := h.once
    exact absurd (hnone.symm.trans honce) (List.cons_ne_nil _ _).symm
  have hfailed : countedRequests
      (deadWorkerStream.serve (List.replicate 4 fun _ => 0)).recorded = [] := by decide +kernel
  have hleft : countedRequests (deadWorkerStream.serve [fun _ => 0]).recorded = [] := by
    decide +kernel
  have hsent : .error "connection reset" ∈
      (deadWorkerStream.serve (List.replicate 4 fun _ => 0)).items := by
    decide +kernel
  exact ⟨⟨hsent, hfailed, hnot _ hfailed⟩, hleft, hnot _ hleft⟩

end KvRoute
