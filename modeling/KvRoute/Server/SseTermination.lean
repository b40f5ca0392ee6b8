import KvRoute.Server.ProxyStream

set_option relaxedAutoImplicit false
set_option autoImplicit false

/-!
# Termination of streamed completions

The proxy terminates a streamed completion with `data: [DONE]` unless the upstream did.  It looks
for the bytes of that line in single chunks; the client looks for events in the lines of the whole
text.  This module compares the two, for every body and every way of cutting it into chunks.

How bytes become text is the client library's business; all that is used is that ASCII bytes
decode to themselves, wherever they stand.

## Main definitions

* `KvRoute.AsciiCompatible` — a decoding of bytes that reads ASCII.
* `KvRoute.Terminates` — what the client should read of a completion.
* `KvRoute.TerminatorFits` — the condition under which it does.

## Main results

* `KvRoute.proxyStream_terminates_iff` — the condition is exact.
-/

namespace KvRoute

/-- A decoding of bytes into text that reads ASCII as ASCII, whatever comes before it. -/
def AsciiCompatible (decode : Bytes → List Char) : Prop :=
  ∀ body text, (∀ c ∈ text, c.toNat < 128) → decode (body ++ ascii text) = decode body ++ text

/-- Of a completion with the events `events` the client reads these, and `[DONE]` once, at the
end. -/
def Terminates (events received : List (List Char)) : Prop :=
  received = events.filter (· ≠ donePayload) ++ [donePayload]

/-- The condition on a body: if it holds the last event, then some chunk contains the line of
this event, or the body breaks off in a line that carries no event; and if it does not, then no
chunk contains the line, and the body ends with a complete line. -/
def TerminatorFits (decode : Bytes → List Char) (chunks : List Bytes) : Prop :=
  let text := decode chunks.flatten
  if donePayload ∈ readEvents text then
    chunks.any chunkContainsDone = true ∨
      TextLines.unfinished text ≠ [] ∧ endsInEvent text = false
  else chunks.any chunkContainsDone = false ∧ TextLines.unfinished text = []

instance (decode : Bytes → List Char) (chunks : List Bytes) :
    Decidable (TerminatorFits decode chunks) :=
  inferInstanceAs (Decidable (if donePayload ∈ readEvents (decode chunks.flatten) then
    chunks.any chunkContainsDone = true ∨
      TextLines.unfinished (decode chunks.flatten) ≠ [] ∧
        endsInEvent (decode chunks.flatten) = false
  else chunks.any chunkContainsDone = false ∧
    TextLines.unfinished (decode chunks.flatten) = []))

/-- Events with `[DONE]` at most once, at the end, that hold it. -/
theorem filter_append_of_mem {events : List (List Char)}
    (hlast : donePayload ∉ events.dropLast) (hmem : donePayload ∈ events) :
    events.filter (· ≠ donePayload) ++ [donePayload] = events := by
  obtain ⟨before, last, rfl⟩ : ∃ before last, events = before ++ [last] :=
    ⟨_, _, (List.dropLast_append_getLast (List.ne_nil_of_mem hmem)).symm⟩
  rw [List.dropLast_concat] at hlast
  obtain rfl : donePayload = last :=
    List.mem_singleton.mp ((List.mem_append.mp hmem).resolve_left hlast)
  have hbefore : before.filter (· ≠ donePayload) = before :=
    List.filter_eq_self.mpr fun payload hpayload => by
      have hne : payload ≠ donePayload := fun heq => hlast (heq ▸ hpayload)
      simpa using hne
  rw [List.filter_append, hbefore]
  simp

/-- Events without `[DONE]`. -/
theorem filter_of_not_mem {events : List (List Char)} (hmem : donePayload ∉ events) :
    events.filter (· ≠ donePayload) = events :=
  List.filter_eq_self.mpr fun payload hpayload => by
    have hne : payload ≠ donePayload := fun heq => hmem (heq ▸ hpayload)
    simpa using hne

/-- A completion that is passed on as it is. -/
theorem terminates_self_iff {events : List (List Char)} (hlast : donePayload ∉ events.dropLast) :
    Terminates events events ↔ donePayload ∈ events := by
  refine ⟨fun h => ?_, fun hmem => (filter_append_of_mem hlast hmem).symm⟩
  rw [h]
  exact List.mem_append_right _ List.mem_cons_self

/-- A completion that one more last event is appended to. -/
theorem terminates_append_iff {events : List (List Char)} :
    Terminates events (events ++ [donePayload]) ↔ donePayload ∉ events := by
  constructor
  · intro h hmem
    rw [Terminates, List.append_cancel_right_eq] at h
    rw [h] at hmem
    simp at hmem
  · intro hmem
    rw [Terminates, filter_of_not_mem hmem]

/-- **Appending the last event.**  The client reads the completion as it should exactly if the
event was missing and the text is complete, or the event was there and the text breaks off in a
line that carries none.

**Proof sketch.** After a complete line the appended event is read as such; in a line that
carries an event it spoils this event; in any other line it is not read at all. -/
theorem terminates_doneEvent_iff {text : List Char}
    (hlast : donePayload ∉ (readEvents text).dropLast) :
    Terminates (readEvents text) (readEvents (text ++ doneEvent)) ↔
      if donePayload ∈ readEvents text then
        TextLines.unfinished text ≠ [] ∧ endsInEvent text = false
      else TextLines.unfinished text = [] := by
  by_cases hcomplete : TextLines.unfinished text = []
  · rw [readEvents_append_of_complete hcomplete, terminates_append_iff]
    split_ifs with hmem
    · exact iff_of_false (not_not.mpr hmem) fun h => h.1 hcomplete
    · exact iff_of_true hmem hcomplete
  · cases hevent : endsInEvent text with
    | true =>
      obtain ⟨events, payload, hread, hne⟩ := readEvents_append_of_event hevent
      have hspoiled : ¬Terminates (readEvents text) (readEvents (text ++ doneEvent)) := by
        rw [hread]
        intro h
        exact hne (List.append_inj_right' h rfl |> List.singleton_inj.mp)
      split_ifs
      · exact iff_of_false hspoiled fun h => nomatch h.2
      · exact iff_of_false hspoiled hcomplete
    | false =>
      rw [readEvents_append_of_comment hcomplete (by simp [hevent]), terminates_self_iff hlast]
      split_ifs with hmem
      · exact iff_of_true hmem ⟨hcomplete, rfl⟩
      · exact iff_of_false hmem hcomplete

/-- **When streamed completions are terminated.**  Let an upstream body without error hold
`[DONE]` at most once, as its last event.  However the body is cut into chunks, the client reads
its events and `[DONE]` once, at the end, exactly if `TerminatorFits`.

**Proof sketch.** The client is sent the body, and the last event unless some chunk contains its
line (`ProxyStreamState.bytes_run_chunks`).  If one does, the client reads the upstream's events,
so they must hold `[DONE]`; otherwise `terminates_doneEvent_iff` decides. -/
theorem proxyStream_terminates_iff {decode : Bytes → List Char} (hdecode : AsciiCompatible decode)
    (chunks : List Bytes) (hlast : donePayload ∉ (readEvents (decode chunks.flatten)).dropLast)
    (telemetry : RequestTelemetry) (upstreamPrefixHit : Option String)
    (completionTokens : Option UInt64) (clocks : List (ℕ → Instant))
    (hclocks : chunks.length + 2 ≤ clocks.length) :
    let delivered := (proxyStream (chunks.map .ok) telemetry upstreamPrefixHit completionTokens
      true).run clocks
    delivered.ended = true ∧
      (Terminates (readEvents (decode chunks.flatten)) (readEvents (decode delivered.bytes)) ↔
        TerminatorFits decode chunks) := by
  refine ⟨(ProxyStreamState.run_chunks chunks _ rfl rfl clocks hclocks).2.1, ?_⟩
  rw [ProxyStreamState.bytes_run_chunks chunks telemetry upstreamPrefixHit completionTokens true
    clocks hclocks, TerminatorFits]
  cases hseen : chunks.any chunkContainsDone with
  | true =>
    rw [if_neg (by decide), List.append_nil, terminates_self_iff hlast]
    split_ifs with hmem
    · exact iff_of_true hmem (Or.inl rfl)
    · exact iff_of_false hmem fun h => nomatch h.1
  | false =>
    have hascii : doneEvent.all (fun c => decide (c.toNat < 128)) = true := by decide +kernel
    rw [if_pos (by decide), hdecode _ _ (by simpa using hascii),
      terminates_doneEvent_iff hlast]
    simp

/-- The decoding of texts that are all ASCII. -/
def decodeAscii (body : Bytes) : List Char := body.map fun b => Char.ofNat b.toNat

theorem asciiCompatible_decodeAscii : AsciiCompatible decodeAscii := by
  intro body text htext
  have hchar : ∀ c ∈ text, Char.ofNat c.toNat.toUInt8.toNat = c := by
    intro c hc
    have hsmall : c.toNat.toUInt8.toNat = c.toNat :=
      Nat.mod_eq_of_lt (lt_trans (htext c hc) (by decide))
    rw [hsmall, Char.ofNat_toNat]
  have hdecoded : (ascii text).map (fun b => Char.ofNat b.toNat) = text := by
    rw [ascii, List.map_map]
    exact (List.map_congr_left hchar).trans (List.map_id' text)
  rw [decodeAscii, List.map_append, hdecoded, decodeAscii]

/-- The bookkeeping of some request. -/
def plainTelemetry : RequestTelemetry :=
  ⟨"r", ⟨0, "http://a:8001", .both⟩, .roundRobin, 0, 1, .finite 0, 0, .single⟩

/-- What a client is sent of a streamed completion. -/
def sentOf (chunks : List Bytes) : ProxyStreamState.Delivered :=
  (proxyStream (chunks.map .ok) plainTelemetry none none true).run (List.replicate 4 fun _ => 0)

/-- A completion that the upstream terminates, in a chunk of its own. -/
def wholeLine : List Bytes := [ascii "data: \x7b\x7d\n\n".toList, ascii "data: [DONE]\n\n".toList]

/-- A terminator in one piece is passed on. -/
theorem proxyStream_terminates_iff_whole_line :
    Terminates (readEvents (decodeAscii wholeLine.flatten))
      (readEvents (decodeAscii (sentOf wholeLine).bytes)) :=
  (proxyStream_terminates_iff asciiCompatible_decodeAscii wholeLine (by decide +kernel)
    plainTelemetry none none _ (by decide)).2.mpr (by decide +kernel)

/-- A completion that the upstream terminates, with the line torn between two chunks. -/
def tornLine : List Bytes := [ascii "data: [DO".toList, ascii "NE]\n\n".toList]

/-- A completion that the upstream does not terminate, with the line in its text. -/
def quotedLine : List Bytes := [ascii "data: \x7b\"content\":\"data: [DONE]\"\x7d\n\n".toList]

/-- A torn terminator is sent a second time; a terminator that the upstream omits is not added if
the generated text contains it. -/
theorem proxyStream_misterminates :
    (readEvents (decodeAscii tornLine.flatten) = [donePayload] ∧
        readEvents (decodeAscii (sentOf tornLine).bytes) = [donePayload, donePayload] ∧
        ¬Terminates (readEvents (decodeAscii tornLine.flatten))
          (readEvents (decodeAscii (sentOf tornLine).bytes))) ∧
      donePayload ∉ readEvents (decodeAscii quotedLine.flatten) ∧
        donePayload ∉ readEvents (decodeAscii (sentOf quotedLine).bytes) ∧
        ¬Terminates (readEvents (decodeAscii quotedLine.flatten))
          (readEvents (decodeAscii (sentOf quotedLine).bytes)) := by
  unfold Terminates
  decide +kernel

end KvRoute
