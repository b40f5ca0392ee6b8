import KvRoute.Server.Accounting

set_option relaxedAutoImplicit false
set_option autoImplicit false

/-!
# Truncated completions

A response stream notes that its upstream body has failed, and reports such a request as a 502 at
the end.  Before it does so it asks whether a terminator is missing, and adds one without looking
at that note.  This module follows a consumer that goes on polling after an error item and
determines when it is sent a terminator that the upstream never sent.

## Main definitions

* `ProxyStreamState.polls` — the polls of a consumer, each with the state that it found.
* `KvRoute.Synthesized` — a poll that yields the terminator although the body has nothing left.
* `KvRoute.ShowsTruncation` — a failed body is never terminated like a finished one.

## Main results

* `KvRoute.proxyStream_showsTruncation_iff` — when that is so.
* `ProxyStreamState.items_serve_prefix_of_error` — the HTTP server, which gives the stream up at the
  first error item, is never sent the terminator of a failed body.
-/

namespace KvRoute

namespace ProxyStreamState

/-- The polls of a consumer that polls until the stream ends, as often as there are clocks, each
with the state that it found. -/
def polls (state : ProxyStreamState) : List (ℕ → Instant) → List (ProxyStreamState × Polled)
  | [] => []
  | clock :: clocks =>
    (state, state.poll clock) ::
      match state.poll clock with
      | .item _ _ state' => polls state' clocks
      | .finished _ => []

end ProxyStreamState

/-- A poll that yields the last event of a finished completion out of nothing: the body has no
item left. -/
def Synthesized (poll : ProxyStreamState × Polled) : Prop :=
  poll.1.inner = [] ∧ ∃ recorded state, poll.2 = .item (.ok (ascii doneEvent)) recorded state

/-- A truncated completion is never presented as a finished one: if the body fails anywhere, no
poll synthesizes the terminator. -/
def ShowsTruncation (upstream : List (Except String Bytes))
    (polls : List (ProxyStreamState × Polled)) : Prop :=
  (∃ error, .error error ∈ upstream) → ∀ poll ∈ polls, ¬Synthesized poll

namespace ProxyStreamState

/-! ## The polls of a run -/

theorem polls_cons_item {state state' : ProxyStreamState} {clock : ℕ → Instant}
    {item : Except String Bytes} {recorded : List Recorded}
    (h : state.poll clock = .item item recorded state') (clocks : List (ℕ → Instant)) :
    state.polls (clock :: clocks) =
      (state, .item item recorded state') :: state'.polls clocks := by
  rw [polls, h]

theorem polls_cons_finished {state : ProxyStreamState} {clock : ℕ → Instant}
    {recorded : List Recorded} (h : state.poll clock = .finished recorded)
    (clocks : List (ℕ → Instant)) :
    state.polls (clock :: clocks) = [(state, .finished recorded)] := by
  rw [polls, h]

/-- The item that a poll yields, if it yields one. -/
def yielded (poll : ProxyStreamState × Polled) : Option (Except String Bytes) :=
  match poll.2 with
  | .item item _ _ => some item
  | .finished _ => none

/-- What a consumer is sent is what its polls yield. -/
theorem items_run (state : ProxyStreamState) (clocks : List (ℕ → Instant)) :
    (state.run clocks).items = (state.polls clocks).filterMap yielded := by
  induction clocks generalizing state with
  | nil => rfl
  | cons clock clocks ih =>
    cases hpoll : state.poll clock with
    | item item recorded state' =>
      rw [run_cons_item hpoll, polls_cons_item hpoll]
      exact congrArg (item :: ·) (ih state')
    | finished recorded =>
      rw [run_cons_finished hpoll, polls_cons_finished hpoll]
      rfl

/-- An upstream error is passed on; it does not change whether a terminator will be added. -/
theorem poll_error_wantsDone {state : ProxyStreamState} {error : String}
    {inner : List (Except String Bytes)} (hinner : state.inner = .error error :: inner)
    (clock : ℕ → Instant) :
    ∃ recorded state', state.poll clock = .item (.error error) recorded state' ∧
      state'.inner = inner ∧ state'.wantsDone = state.wantsDone := by
  cases state with
  | mk inner' telemetry hit completionTokens streaming doneSeen firstChunkAfter tokens errored =>
    dsimp only at hinner
    subst hinner
    exact ⟨_, _, rfl, rfl, rfl⟩

/-- While the body has items left, a poll passes the next one on. -/
theorem poll_cons {state : ProxyStreamState} {item : Except String Bytes}
    {inner : List (Except String Bytes)} (hinner : state.inner = item :: inner)
    (clock : ℕ → Instant) :
    ∃ recorded state', state.poll clock = .item item recorded state' ∧
      state'.inner = inner ∧ state'.wantsDone = state.wantsDone := by
  cases item with
  | ok chunk =>
    obtain ⟨state', hpoll, hinner', -, -, hwants⟩ := poll_ok_wantsDone hinner clock
    exact ⟨[], state', hpoll, hinner', hwants⟩
  | error error => exact poll_error_wantsDone hinner clock

/-! ## The terminator -/

/-- **When a terminator is synthesized.**  A consumer is sent one exactly if the stream wants one
and the consumer polls at least once at the end of the body; whether the body has failed does not
matter.

**Proof sketch.** Induction on the rest of the body: a poll passes the next item on, chunk or
error, and leaves open what it was open before; at the end the first poll adds the terminator or
ends the stream. -/
theorem exists_synthesized_iff (state : ProxyStreamState) (clocks : List (ℕ → Instant)) :
    (∃ poll ∈ state.polls clocks, Synthesized poll) ↔
      state.wantsDone = true ∧ state.inner.length < clocks.length := by
  generalize hrest : state.inner = rest
  induction rest generalizing state clocks with
  | nil =>
    cases clocks with
    | nil => simp [polls]
    | cons clock clocks =>
      cases hwants : state.wantsDone with
      | true =>
        have hpoll := poll_nil_item hrest ((wantsDone_of_nil hrest).symm.trans hwants) clock
        rw [polls_cons_item hpoll]
        exact iff_of_true ⟨_, List.mem_cons_self, hrest, _, _, rfl⟩ ⟨rfl, by simp⟩
      | false =>
        obtain ⟨recorded, hpoll, -⟩ :=
          poll_nil_finished hrest ((wantsDone_of_nil hrest).symm.trans hwants) clock
        rw [polls_cons_finished hpoll]
        refine iff_of_false ?_ (by simp)
        rintro ⟨poll, hpoll', -, _, _, hitem⟩
        rw [List.mem_singleton.mp hpoll'] at hitem
        exact nomatch hitem
  | cons item rest ih =>
    cases clocks with
    | nil => simp [polls]
    | cons clock clocks =>
      obtain ⟨recorded, state', hpoll, hrest', hwants⟩ := poll_cons hrest clock
      have hfirst : ¬Synthesized (state, .item item recorded state') := fun h =>
        nomatch hrest.symm.trans h.1
      rw [polls_cons_item hpoll, List.exists_mem_cons_iff, or_iff_right hfirst,
        ih state' clocks hrest', hwants]
      simp

/-- What the HTTP server is sent of a body that fails are items of the body. -/
theorem items_serve_prefix_of_error {state : ProxyStreamState} {clocks : List (ℕ → Instant)}
    (herror : ∃ error, .error error ∈ state.inner) :
    (state.serve clocks).items <+: state.inner := by
  generalize hrest : state.inner = rest at herror
  induction rest generalizing state clocks with
  | nil => exact absurd herror (by simp)
  | cons item rest ih =>
    cases clocks with
    | nil => exact List.nil_prefix
    | cons clock clocks =>
      cases item with
      | error error =>
        obtain ⟨state', hpoll⟩ := poll_error hrest clock
        rw [serve_cons_error hpoll]
        exact ⟨rest, rfl⟩
      | ok chunk =>
        obtain ⟨state', hpoll, hrest', -⟩ := poll_ok_wantsDone hrest clock
        obtain ⟨error, hmem⟩ := herror
        have herror' : Except.error error ∈ rest := (List.mem_cons.mp hmem).resolve_left nofun
        rw [serve_cons_ok hpoll, List.prefix_cons_inj]
        exact ih hrest' ⟨error, herror'⟩

end ProxyStreamState

/-- **When a truncated completion is shown as such.**  For every upstream body of a streamed
response and a consumer that polls any number of times: a failed body is never terminated like a
finished one exactly if some chunk of it is taken for the end of the stream, or the consumer does
not poll beyond the items of the body.

**Proof sketch.** `ProxyStreamState.exists_synthesized_iff` at the first state of the stream. -/
theorem proxyStream_showsTruncation_iff (upstream : List (Except String Bytes))
    (telemetry : RequestTelemetry) (upstreamPrefixHit : Option String)
    (completionTokens : Option UInt64) (clocks : List (ℕ → Instant)) :
    ShowsTruncation upstream ((proxyStream upstream telemetry upstreamPrefixHit completionTokens
        true).polls clocks) ↔
      (∀ error, .error error ∉ upstream) ∨ upstream.any itemContainsDone = true ∨
        clocks.length ≤ upstream.length := by
  have hsynthesized := (proxyStream upstream telemetry upstreamPrefixHit completionTokens
    true).exists_synthesized_iff clocks
  have hwants : (proxyStream upstream telemetry upstreamPrefixHit completionTokens
      true).wantsDone = true ↔ ¬upstream.any itemContainsDone = true := by
    simp [ProxyStreamState.wantsDone, proxyStream]
  have hnever : (∀ poll ∈ (proxyStream upstream telemetry upstreamPrefixHit completionTokens
      true).polls clocks, ¬Synthesized poll) ↔
        upstream.any itemContainsDone = true ∨ clocks.length ≤ upstream.length := by
    have hnone : (¬∃ poll ∈ (proxyStream upstream telemetry upstreamPrefixHit completionTokens
        true).polls clocks, Synthesized poll) ↔
          upstream.any itemContainsDone = true ∨ clocks.length ≤ upstream.length := by
      rw [hsynthesized, hwants, not_and_or, not_not, not_lt]
      rfl
    rw [← hnone]
    push Not
    rfl
  rw [ShowsTruncation, hnever, ← not_exists, imp_iff_not_or]

/-- A streamed request to a worker that dies before its first chunk. -/
def brokenStream : ProxyStreamState :=
  proxyStream [.error "connection reset"]
    ⟨"r", ⟨0, "http://a:8001", .both⟩, .roundRobin, 0, 1, .finite 0, 0, .single⟩ none none true

/-- The consumer that polls once more after the error is told that the completion is finished. -/
theorem proxyStream_hidesTruncation :
    (brokenStream.run (List.replicate 2 fun _ => 0)).items =
        [.error "connection reset", .ok (ascii doneEvent)] ∧
      ¬ShowsTruncation brokenStream.inner (brokenStream.polls (List.replicate 2 fun _ => 0)) := by
  refine ⟨by decide +kernel, fun h => ?_⟩
  have hlast : ({ brokenStream with inner := [], errored := true }, Polled.item
      (.ok (ascii doneEvent)) [] { brokenStream with
        inner := []
        errored := true
        doneSeen := true }) ∈ brokenStream.polls (List.replicate 2 fun _ => 0) :=
    List.mem_cons_of_mem _ List.mem_cons_self
  exact h ⟨_, List.mem_cons_self⟩ _ hlast ⟨rfl, _, _, rfl⟩

end KvRoute
