import KvRoute.Lib.Occurrences
import KvRoute.Server.ProxyStream

set_option relaxedAutoImplicit false
set_option autoImplicit false

/-!
# How a response is cut into chunks

A body arrives in chunks that the network cuts where it likes.  The proxy passes the chunks on, but
looks for the last event and for the events with a token in each chunk by itself.  This module
compares what it makes of one body under two ways of cutting it.

## Main definitions

* `KvRoute.finishedTokens` — the token counts that served requests are recorded with.
* `KvRoute.SameOutcome` — the same bytes for the client, and the same token count.
* `KvRoute.KeepsMarks` — the condition on two ways of cutting.

## Main results

* `KvRoute.sameOutcome_respond_iff` — the condition for two given ways.
* `KvRoute.proxyStream_chunking_iff` — the condition is exact.
-/

namespace KvRoute

/-- The token counts that `finish` was called with. -/
def finishedTokens (recorded : List Recorded) : List UInt64 :=
  recorded.filterMap fun
    | .tokensGenerated _ tokens => some tokens
    | _ => none

@[simp] lemma finishedTokens_nil : finishedTokens [] = [] := rfl

/-- A finished request is recorded with one count. -/
@[simp] lemma finishedTokens_finish (telemetry : RequestTelemetry) (ttft total : Duration)
    (upstreamPrefixHit : Option String) (tokens : UInt64) :
    finishedTokens (telemetry.finish ttft total upstreamPrefixHit tokens) = [tokens] := rfl

/-- Two deliveries come to the same: the client is sent the same bytes, and the same token count is
recorded. -/
def SameOutcome (delivered delivered' : ProxyStreamState.Delivered) : Prop :=
  delivered.bytes = delivered'.bytes ∧
    finishedTokens delivered.recorded = finishedTokens delivered'.recorded

/-! ## One body -/

section Body

variable (telemetry : RequestTelemetry) (upstreamPrefixHit : Option String)
  (completionTokens : Option UInt64) (streaming : Bool)

/-- What becomes of a body without error that arrives in chunks: the client polls as often as there
are clocks. -/
def respond (chunks : List Bytes) (clocks : List (ℕ → Instant)) : ProxyStreamState.Delivered :=
  (proxyStream (chunks.map .ok) telemetry upstreamPrefixHit completionTokens streaming).run clocks

/-- The bytes for the client. -/
lemma bytes_respond (chunks : List Bytes) (clocks : List (ℕ → Instant))
    (hclocks : chunks.length + 2 ≤ clocks.length) :
    (respond telemetry upstreamPrefixHit completionTokens streaming chunks clocks).bytes =
      chunks.flatten ++
        if streaming && !chunks.any chunkContainsDone then ascii doneEvent else [] :=
  ProxyStreamState.bytes_run_chunks chunks telemetry upstreamPrefixHit completionTokens streaming
    clocks hclocks

/-- The token count that is recorded. -/
lemma finishedTokens_respond (chunks : List Bytes) (clocks : List (ℕ → Instant))
    (hclocks : chunks.length + 2 ≤ clocks.length) :
    finishedTokens
        (respond telemetry upstreamPrefixHit completionTokens streaming chunks clocks).recorded =
      [if streaming then (chunks.map countContentChunks).sum else completionTokens.getD 0] := by
  obtain ⟨-, -, ttft, total, hrecorded⟩ := ProxyStreamState.run_chunks chunks
    (proxyStream (chunks.map .ok) telemetry upstreamPrefixHit completionTokens streaming) rfl rfl
    clocks hclocks
  rw [respond, hrecorded, finishedTokens_finish]
  simp [proxyStream]

end Body

/-! ## Marks in chunks -/

/-- The bytes of the line that ends a stream. -/
def doneMark : Bytes := ascii doneLine

lemma doneMark_ne_nil : doneMark ≠ [] := by decide

lemma contentMark_ne_nil : contentMark ≠ [] := by decide

/-- Some chunk is taken for the end of the stream exactly if some line that ends it is whole. -/
lemma any_chunkContainsDone_iff (chunks : List Bytes) :
    chunks.any chunkContainsDone = true ↔ (Occurrences.whole doneMark chunks).Nonempty := by
  rw [← Occurrences.exists_infix_iff doneMark_ne_nil, List.any_eq_true]
  simp only [chunkContainsDone_iff, doneMark]

/-- The tokens that are counted are the marks that are whole, as far as they fit into `u64`. -/
lemma sum_countContentChunks (chunks : List Bytes) :
    (chunks.map countContentChunks).sum =
      UInt64.ofNat (Occurrences.whole contentMark chunks).card := by
  rw [← Occurrences.sum_card_positions contentMark_ne_nil]
  induction chunks with
  | nil => rfl
  | cons chunk chunks ih =>
    rw [List.map_cons, List.sum_cons, List.map_cons, List.sum_cons, UInt64.ofNat_add, ih,
      countContentChunks, Occurrences.length_filter_windows contentMark_ne_nil]

lemma uint64_ofNat_eq_iff {a b : ℕ} :
    UInt64.ofNat a = UInt64.ofNat b ↔ a % 2 ^ 64 = b % 2 ^ 64 := by
  rw [← UInt64.toNat_inj, UInt64.toNat_ofNat', UInt64.toNat_ofNat']

/-- Two ways of cutting a body keep its marks alike: both leave some `data: [DONE]` in one piece, or
neither does, and they leave the same number of `"content"` in one piece, as far as it fits into
`u64`. -/
def KeepsMarks (chunks chunks' : List Bytes) : Prop :=
  ((Occurrences.whole doneMark chunks).Nonempty ↔
      (Occurrences.whole doneMark chunks').Nonempty) ∧
    (Occurrences.whole contentMark chunks).card % 2 ^ 64 =
      (Occurrences.whole contentMark chunks').card % 2 ^ 64

instance (chunks chunks' : List Bytes) : Decidable (KeepsMarks chunks chunks') :=
  inferInstanceAs (Decidable ((_ ↔ _) ∧ _))

/-- Two ways of cutting a streamed body come to the same exactly if they keep its marks alike, and
a body that is not streamed comes to the same however it is cut. -/
theorem sameOutcome_respond_iff (telemetry : RequestTelemetry) (upstreamPrefixHit : Option String)
    (completionTokens : Option UInt64) (streaming : Bool) {chunks chunks' : List Bytes}
    (hbody : chunks.flatten = chunks'.flatten) {clocks clocks' : List (ℕ → Instant)}
    (hclocks : chunks.length + 2 ≤ clocks.length)
    (hclocks' : chunks'.length + 2 ≤ clocks'.length) :
    SameOutcome (respond telemetry upstreamPrefixHit completionTokens streaming chunks clocks)
        (respond telemetry upstreamPrefixHit completionTokens streaming chunks' clocks') ↔
      (streaming = true → KeepsMarks chunks chunks') := by
  have hevent : ascii doneEvent ≠ [] := by decide
  rw [SameOutcome, bytes_respond _ _ _ _ _ _ hclocks, bytes_respond _ _ _ _ _ _ hclocks',
    finishedTokens_respond _ _ _ _ _ _ hclocks, finishedTokens_respond _ _ _ _ _ _ hclocks',
    hbody, List.append_cancel_left_eq]
  cases streaming with
  | false => simp
  | true =>
    rw [KeepsMarks, ← any_chunkContainsDone_iff, ← any_chunkContainsDone_iff,
      ← uint64_ofNat_eq_iff, ← sum_countContentChunks, ← sum_countContentChunks]
    cases chunks.any chunkContainsDone <;> cases chunks'.any chunkContainsDone <;>
      simp [hevent, hevent.symm]

/-- All ways of cutting a body keep its marks alike exactly if it has none.

**Proof sketch.** Cut between all bytes, or the body left in one piece, tells whether there is a
`data: [DONE]`; a cut within the first `"content"` changes the number of these by one. -/
theorem forall_keepsMarks_iff (body : Bytes) :
    (∀ chunks chunks', chunks.flatten = body → chunks'.flatten = body →
        KeepsMarks chunks chunks') ↔
      ¬doneMark <:+: body ∧ ¬contentMark <:+: body := by
  constructor
  · intro h
    refine ⟨fun hdone => ?_, fun hcontent => ?_⟩
    · have hnonempty := (Occurrences.positions_nonempty_iff doneMark_ne_nil body).mpr hdone
      have hflatten : (body.map fun b => [b]).flatten = body := by
        rw [← List.flatMap_def, List.flatMap_singleton']
      obtain ⟨hiff, -⟩ := h [body] (body.map fun b => [b]) (List.flatten_singleton) hflatten
      rw [Occurrences.whole_singleton, ← Occurrences.exists_infix_iff doneMark_ne_nil] at hiff
      obtain ⟨chunk, hchunk, hinfix⟩ := hiff.mp hnonempty
      obtain ⟨b, -, rfl⟩ := List.mem_map.mp hchunk
      exact absurd hinfix.length_le (show ¬doneMark.length ≤ 1 by decide)
    · have hnonempty := (Occurrences.positions_nonempty_iff contentMark_ne_nil body).mpr hcontent
      set i := (Occurrences.positions contentMark body).min' hnonempty with hi
      obtain ⟨-, hcard⟩ := h [body] [body.take (i + 1), body.drop (i + 1)]
        (List.flatten_singleton) (by simp)
      have hcut := Occurrences.card_whole_cut (by decide) hnonempty
      rw [← hi] at hcut
      rw [Occurrences.whole_singleton] at hcard
      omega
  · rintro ⟨hdone, hcontent⟩ chunks chunks' rfl hchunks'
    have hnone : ∀ {w : Bytes}, w ≠ [] → ¬w <:+: chunks.flatten → ∀ {cs : List Bytes},
        cs.flatten = chunks.flatten → Occurrences.whole w cs = ∅ := by
      intro w hw hinfix cs hcs
      rw [← Finset.not_nonempty_iff_eq_empty, ← Occurrences.exists_infix_iff hw]
      rintro ⟨chunk, hchunk, hw'⟩
      exact hinfix (hcs ▸ hw'.trans (List.infix_of_mem_flatten hchunk))
    rw [KeepsMarks, hnone doneMark_ne_nil hdone rfl, hnone doneMark_ne_nil hdone hchunks',
      hnone contentMark_ne_nil hcontent rfl, hnone contentMark_ne_nil hcontent hchunks']
    exact ⟨Iff.rfl, rfl⟩

/-- A body arrives in these chunks, and the client polls until the end is reported. -/
def Arrives (body : Bytes) (chunks : List Bytes) (clocks : List (ℕ → Instant)) : Prop :=
  chunks.flatten = body ∧ chunks.length + 2 ≤ clocks.length

/-- **When chunking does not matter.**  For every body without error and any two ways of cutting it
into chunks, the client is sent the same bytes and the request is recorded with the same token count
exactly if the completion is not streamed, or the two ways keep the marks in the body alike.  So it
never matters how the body is cut exactly if the completion is not streamed, or the body has no
marks.

**Proof sketch.** What a body comes to is determined by which chunks contain the marks
(`ProxyStreamState.run_body`), and these are the marks that no end of a chunk tears
(`Occurrences.sum_card_positions`).  A mark in the body is torn by some cut
(`forall_keepsMarks_iff`). -/
theorem proxyStream_chunking_iff (body : Bytes) (telemetry : RequestTelemetry)
    (upstreamPrefixHit : Option String) (completionTokens : Option UInt64) (streaming : Bool) :
    (∀ chunks clocks chunks' clocks', Arrives body chunks clocks → Arrives body chunks' clocks' →
      (SameOutcome
          (respond telemetry upstreamPrefixHit completionTokens streaming chunks clocks)
          (respond telemetry upstreamPrefixHit completionTokens streaming chunks' clocks') ↔
        (streaming = true → KeepsMarks chunks chunks'))) ∧
    ((∀ chunks clocks chunks' clocks', Arrives body chunks clocks → Arrives body chunks' clocks' →
        SameOutcome
          (respond telemetry upstreamPrefixHit completionTokens streaming chunks clocks)
          (respond telemetry upstreamPrefixHit completionTokens streaming chunks' clocks')) ↔
      (streaming = true → ¬doneMark <:+: body ∧ ¬contentMark <:+: body)) := by
  have hpair : ∀ chunks clocks chunks' clocks', Arrives body chunks clocks →
      Arrives body chunks' clocks' → (SameOutcome
          (respond telemetry upstreamPrefixHit completionTokens streaming chunks clocks)
          (respond telemetry upstreamPrefixHit completionTokens streaming chunks' clocks') ↔
        (streaming = true → KeepsMarks chunks chunks')) := by
    rintro chunks clocks chunks' clocks' ⟨hbody, hclocks⟩ ⟨hbody', hclocks'⟩
    exact sameOutcome_respond_iff _ _ _ _ (hbody.trans hbody'.symm) hclocks hclocks'
  refine ⟨hpair, ?_⟩
  constructor
  · intro h hstreaming
    refine (forall_keepsMarks_iff body).mp fun chunks chunks' hbody hbody' => ?_
    -- a client that polls often enough for either way
    have harrives : ∀ {cs : List Bytes}, cs.flatten = body →
        Arrives body cs (List.replicate (cs.length + 2) fun _ => 0) :=
      fun hcs => ⟨hcs, by rw [List.length_replicate]⟩
    exact (hpair _ _ _ _ (harrives hbody) (harrives hbody')).mp
      (h _ _ _ _ (harrives hbody) (harrives hbody')) hstreaming
  · intro h chunks clocks chunks' clocks' harrives harrives'
    refine (hpair _ _ _ _ harrives harrives').mpr fun hstreaming => ?_
    exact (forall_keepsMarks_iff body).mpr (h hstreaming) _ _ harrives.1 harrives'.1

/-- An event with one token, and the last event. -/
def oneToken : Bytes := ascii "data: \x7b\"content\":\"a\"\x7d\n\ndata: [DONE]\n\n".toList

/-- The two events in a chunk each. -/
def eventByEvent : List Bytes := [oneToken.take 23, oneToken.drop 23]

/-- A cut within either mark. -/
def tornMarks : List Bytes := [oneToken.take 10, (oneToken.drop 10).take 20, oneToken.drop 30]

/-- The bookkeeping of a streamed request. -/
def streamedTelemetry : RequestTelemetry :=
  ⟨"r", ⟨0, "http://a:8001", .both⟩, .roundRobin, 0, 1, .finite 0, 0, .single⟩

/-- What becomes of the two events of a streamed completion. -/
def outcomeOf (chunks : List Bytes) : ProxyStreamState.Delivered :=
  respond streamedTelemetry none none true chunks (List.replicate 5 fun _ => 0)

/-- Two events in two chunks come to the same as in one. -/
theorem proxyStream_chunking_iff_eventByEvent :
    SameOutcome (outcomeOf [oneToken]) (outcomeOf eventByEvent) :=
  ((proxyStream_chunking_iff oneToken streamedTelemetry none none true).1 [oneToken] _
    eventByEvent _ ⟨by decide, by decide⟩ ⟨by decide, by decide⟩).mpr fun _ => by decide +kernel

/-- With both marks torn the client is sent a second terminator, and no token is counted. -/
theorem proxyStream_chunking_matters :
    tornMarks.flatten = oneToken ∧
      (outcomeOf tornMarks).bytes = (outcomeOf [oneToken]).bytes ++ ascii doneEvent ∧
      finishedTokens (outcomeOf [oneToken]).recorded = [1] ∧
      finishedTokens (outcomeOf tornMarks).recorded = [0] ∧
      ¬SameOutcome (outcomeOf [oneToken]) (outcomeOf tornMarks) := by
  have htokens : finishedTokens (outcomeOf [oneToken]).recorded = [1] ∧
      finishedTokens (outcomeOf tornMarks).recorded = [0] := by
    decide +kernel
  refine ⟨by decide, by decide +kernel, htokens.1, htokens.2, fun h => ?_⟩
  have htokens' := htokens.1.symm.trans (h.2.trans htokens.2)
  exact absurd htokens' (by decide)

end KvRoute
