import KvRoute.Core.Config

set_option relaxedAutoImplicit false
set_option autoImplicit false

/-!
# Chat requests

The part of a chat completion request that routing reads (`crates/router-core/src/request.rs`):
its messages, and the one string that stands for them.

## Main definitions

* `KvRoute.ChatMessage`, `KvRoute.ChatCompletionRequest`.
* `ChatCompletionRequest.canonicalPrompt` — the string whose chain of block hashes is matched.

## Main results

* `ChatCompletionRequest.canonicalPrompt_prefix` — a continuation only appends to the prompt.
-/

namespace KvRoute

/-- One chat message. -/
structure ChatMessage where
  /-- `system`, `user`, or `assistant`. -/
  role : String
  /-- Message text. -/
  content : String
deriving DecidableEq, Repr

/-- A chat completion request, as far as routing reads it. -/
structure ChatCompletionRequest where
  /-- Conversation so far; feeds the canonical prompt. -/
  messages : List ChatMessage
deriving DecidableEq, Repr

/-- One turn of the loop of `canonical_prompt`. -/
def pushMessage (prompt : String) (m : ChatMessage × ℕ) : String :=
  let prompt := if m.2 > 0 then prompt.push '\n' else prompt
  prompt ++ m.1.role ++ ": " ++ m.1.content

/-- Canonical prompt serialization: one `role: content` line per message, joined by newlines. -/
def ChatCompletionRequest.canonicalPrompt (request : ChatCompletionRequest) : String :=
  request.messages.zipIdx.foldl pushMessage ""

/-- A turn of the loop appends to the prompt. -/
theorem prefix_pushMessage (prompt : String) (m : ChatMessage × ℕ) :
    prompt.toList <+: (pushMessage prompt m).toList := by
  unfold pushMessage
  split_ifs
  · simp [List.append_assoc]
  · simp [List.append_assoc]

theorem prefix_foldl_pushMessage (prompt : String) (ms : List (ChatMessage × ℕ)) :
    prompt.toList <+: (ms.foldl pushMessage prompt).toList := by
  induction ms generalizing prompt with
  | nil => exact List.prefix_refl _
  | cons m ms ih => exact (prefix_pushMessage prompt m).trans (ih _)

/-- The prompt of a conversation is a prefix of that of every continuation. -/
theorem ChatCompletionRequest.canonicalPrompt_prefix (messages continuation : List ChatMessage) :
    (canonicalPrompt ⟨messages⟩).toList <+:
      (canonicalPrompt ⟨messages ++ continuation⟩).toList := by
  rw [canonicalPrompt, canonicalPrompt, List.zipIdx_append, List.foldl_append]
  exact prefix_foldl_pushMessage _ _

example : ChatCompletionRequest.canonicalPrompt
    ⟨[⟨"user", "first"⟩, ⟨"assistant", "second"⟩]⟩ = "user: first\nassistant: second" := by
  decide

end KvRoute
