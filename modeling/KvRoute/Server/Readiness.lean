import Mathlib.Data.Set.Basic
import KvRoute.Server.Discovery

set_option relaxedAutoImplicit false
set_option autoImplicit false

/-!
# Which endpoints of a slice are workers

In Kubernetes an endpoint is ready unless it says that it is not: both the conditions and their
`ready` field may be absent, and either absence counts as ready.  `endpoint_is_ready`
(`crates/router-server/src/discovery.rs`) has that default for endpoints without conditions, and
the opposite one for conditions without the field, so that the addresses of such endpoints are
left out of `endpoint_urls`.

## Main definitions

* `KvRoute.Endpoint.Ready` — the rule.
* `KvRoute.advertisedUrls` — the URLs of the ready endpoints.

## Main results

* `KvRoute.endpointUrls_eq_iff` — when `endpoint_urls` returns them.
-/

namespace KvRoute

/-- An endpoint is ready unless it says that it is not. -/
def Endpoint.Ready (endpoint : Endpoint) : Prop :=
  endpoint.conditions.bind EndpointConditions.ready ≠ some false

/-- An endpoint has conditions that do not say whether it is ready. -/
def Endpoint.Unset (endpoint : Endpoint) : Prop :=
  ∃ conditions, endpoint.conditions = some conditions ∧ conditions.ready = none

/-- The port of the first entry, or the default if there is no entry or it has no port. -/
def advertisedPort (slice : EndpointSlice) : ℤ :=
  match slice.ports with
  | some (some port :: _) => port
  | some (none :: _) | some [] | none => 8001

/-- The URL of an address. -/
def workerUrl (address : String) (port : ℤ) : String := s!"http://{address}:{port}"

/-- The URLs of the ready endpoints of a slice. -/
def advertisedUrls (slice : EndpointSlice) : Set String :=
  {url | ∃ endpoint ∈ slice.endpoints, endpoint.Ready ∧
    ∃ address ∈ endpoint.addresses, url = workerUrl address (advertisedPort slice)}

lemma workerUrl_injective (port : ℤ) : Function.Injective (workerUrl · port) := by
  intro address address' h
  simpa [workerUrl, toString] using h

lemma slicePort_eq (slice : EndpointSlice) : slicePort slice = advertisedPort slice := by
  unfold slicePort advertisedPort
  rcases slice.ports with _ | (_ | ⟨_ | port, ports⟩) <;> rfl

/-- What the code takes for ready: an endpoint that is ready, and not for want of the field. -/
lemma endpointIsReady_iff {endpoint : Endpoint} :
    endpointIsReady endpoint = true ↔ endpoint.Ready ∧ ¬endpoint.Unset := by
  obtain ⟨addresses, conditions⟩ := endpoint
  simp only [endpointIsReady, Endpoint.Ready, Endpoint.Unset]
  rcases conditions with _ | ⟨_ | _ | _⟩ <;> simp

/-- An endpoint is taken for ready if it has no conditions, or if they say that it is. -/
lemma endpointIsReady_iff_says {endpoint : Endpoint} :
    endpointIsReady endpoint = true ↔ endpoint.conditions = none ∨
      ∃ conditions, endpoint.conditions = some conditions ∧ conditions.ready = some true := by
  obtain ⟨addresses, conditions⟩ := endpoint
  simp only [endpointIsReady]
  rcases conditions with _ | ⟨_ | _ | _⟩ <;> simp

/-- An endpoint that does not say is ready. -/
lemma Endpoint.Unset.ready {endpoint : Endpoint} (h : endpoint.Unset) : endpoint.Ready := by
  obtain ⟨conditions, hconditions, hready⟩ := h
  rw [Endpoint.Ready, hconditions, Option.bind_some, hready]
  exact nofun

/-- The URLs that the code collects. -/
lemma containsKey_endpointUrls {slice : EndpointSlice} {url : String} :
    (endpointUrls slice).containsKey url = true ↔
      ∃ endpoint ∈ slice.endpoints, endpointIsReady endpoint = true ∧
        ∃ address ∈ endpoint.addresses, url = workerUrl address (advertisedPort slice) := by
  rw [endpointUrls, UrlSet.containsKey_ofList, slicePort_eq]
  simp only [List.mem_flatMap, List.mem_filter, List.mem_map, and_assoc, workerUrl, eq_comm]

/-- **When the URLs of a slice are those of its ready endpoints.**  Only URLs of ready endpoints are
collected, and they are all collected exactly if every address of an endpoint whose conditions do
not say whether it is ready is also the address of an endpoint without conditions, or of one that
says it is ready. -/
theorem endpointUrls_eq_iff (slice : EndpointSlice) :
    {url | (endpointUrls slice).containsKey url = true} ⊆ advertisedUrls slice ∧
    ({url | (endpointUrls slice).containsKey url = true} = advertisedUrls slice ↔
      ∀ endpoint ∈ slice.endpoints, endpoint.Unset → ∀ address ∈ endpoint.addresses,
        ∃ other ∈ slice.endpoints,
          (other.conditions = none ∨
            ∃ conditions, other.conditions = some conditions ∧ conditions.ready = some true) ∧
          address ∈ other.addresses) := by
  have hsub : {url | (endpointUrls slice).containsKey url = true} ⊆ advertisedUrls slice := by
    intro url hurl
    obtain ⟨endpoint, hendpoint, hready, haddress⟩ := containsKey_endpointUrls.mp hurl
    exact ⟨endpoint, hendpoint, (endpointIsReady_iff.mp hready).1, haddress⟩
  refine ⟨hsub, fun heq endpoint hendpoint hunset address haddress => ?_, fun h => ?_⟩
  · have hadvertised : workerUrl address (advertisedPort slice) ∈ advertisedUrls slice :=
      ⟨endpoint, hendpoint, hunset.ready, address, haddress, rfl⟩
    rw [← heq] at hadvertised
    obtain ⟨other, hother, hready, address', haddress', hurl⟩ :=
      containsKey_endpointUrls.mp hadvertised
    obtain rfl := workerUrl_injective _ hurl
    exact ⟨other, hother, endpointIsReady_iff_says.mp hready, haddress'⟩
  · refine hsub.antisymm ?_
    rintro url ⟨endpoint, hendpoint, hready, address, haddress, rfl⟩
    refine containsKey_endpointUrls.mpr ?_
    by_cases hunset : endpoint.Unset
    · obtain ⟨other, hother, hsays, haddress'⟩ := h endpoint hendpoint hunset address haddress
      exact ⟨other, hother, endpointIsReady_iff_says.mpr hsays, address, haddress', rfl⟩
    · exact ⟨endpoint, hendpoint, endpointIsReady_iff.mpr ⟨hready, hunset⟩, address, haddress, rfl⟩

/-- A slice with an endpoint whose conditions do not say whether it is ready. -/
def unsetSlice : EndpointSlice :=
  ⟨"workers-1", some [some 8001], [⟨["10.0.0.1"], some ⟨some true⟩⟩, ⟨["10.0.0.4"], some ⟨none⟩⟩]⟩

/-- The second endpoint is ready by the rule, and its URL is left out. -/
theorem endpointUrls_leaves_out_unset :
    "http://10.0.0.4:8001" ∈ advertisedUrls unsetSlice ∧
      (endpointUrls unsetSlice).containsKey "http://10.0.0.4:8001" = false ∧
      ¬∀ slice : EndpointSlice,
        {url | (endpointUrls slice).containsKey url = true} = advertisedUrls slice := by
  have hready : "http://10.0.0.4:8001" ∈ advertisedUrls unsetSlice :=
    ⟨⟨["10.0.0.4"], some ⟨none⟩⟩, by decide, nofun, "10.0.0.4", by decide, by decide⟩
  have hleft : (endpointUrls unsetSlice).containsKey "http://10.0.0.4:8001" = false := by
    decide +kernel
  refine ⟨hready, hleft, fun h => ?_⟩
  rw [← h unsetSlice] at hready
  exact absurd (hleft.symm.trans hready) (by decide)

end KvRoute
