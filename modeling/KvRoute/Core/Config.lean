import KvRoute.Lib.Float64

set_option relaxedAutoImplicit false
set_option autoImplicit false

/-!
# Configuration and errors

The configuration types of `crates/router-core/src/config.rs` and the error type of
`error.rs`, as far as routing reads them: the polling intervals, the scrape settings and the
transfer cost only parametrise timers and are left out.

## Main definitions

* `KvRoute.Pool`, `KvRoute.RoutingPolicy` — which phase a worker serves, how workers are picked.
* `KvRoute.RouterConfig` — the settings, with the check that `from_yaml` makes after parsing.
* `KvRoute.RouterError` — the errors of the core, with their messages.
-/

namespace KvRoute

/-- Which inference phase a worker is provisioned for. -/
inductive Pool where
  /-- Prefill-heavy workers. -/
  | prefill
  /-- Decode-heavy workers. -/
  | decode
  /-- Workers that can serve both phases. -/
  | both
deriving DecidableEq, Repr

instance : ToString Pool where
  toString
    | .prefill => "prefill"
    | .decode => "decode"
    | .both => "both"

/-- How the router picks a worker for an incoming request. -/
inductive RoutingPolicy where
  /-- Strictly cyclic among healthy workers. -/
  | roundRobin
  /-- The best score of cache affinity and load. -/
  | cacheAware
  /-- Prefill and decode on different pools. -/
  | disaggregated
deriving DecidableEq, Repr

instance : ToString RoutingPolicy where
  toString
    | .roundRobin => "round_robin"
    | .cacheAware => "cache_aware"
    | .disaggregated => "disaggregated"

/-- A backend worker as declared in the configuration. -/
structure WorkerConfig where
  /-- Base URL of the worker. -/
  url : String
  /-- Which inference phase the worker is provisioned for. -/
  pool : Pool
deriving DecidableEq, Repr

/-- Kubernetes worker discovery. -/
structure DiscoveryConfig where
  /-- Whether to watch Kubernetes endpoints instead of using the static list. -/
  enabled : Bool := false

/-- The settings that routing reads, with the defaults of the YAML form. -/
structure RouterConfig where
  /-- Static worker list; may be empty when `discovery.enabled`. -/
  workers : List WorkerConfig
  /-- How the router picks workers. -/
  routingPolicy : RoutingPolicy
  /-- Character block size of the prefix-hash chains. -/
  promptBlockChars : ℕ := 512
  /-- Score multiplier for matched cache blocks. -/
  cacheWeight : F64 := .finite 1
  /-- Score penalty per in-flight request on a worker. -/
  loadWeight : F64 := .finite (1 / 2)
  /-- Prefix-index entries expire after this many seconds without being written or matched. -/
  prefixIndexTtlSecs : ℕ := 300
  /-- Cap on prefix-index entries. -/
  prefixIndexMaxEntries : ℕ := 100000
  /-- Live worker discovery. -/
  discovery : DiscoveryConfig := {}

/-- Errors produced by the routing core. -/
inductive RouterError where
  /-- No worker is currently marked healthy. -/
  | noHealthyWorkers (policy : String)
  /-- No healthy worker exists in the pool a disaggregated phase needs. -/
  | noHealthyWorkersInPool (pool policy : String)
  /-- The KV transfer between the phases failed. -/
  | kvTransfer (src dst : ℕ) (reason : String)
  /-- `select_for_chat` cannot serve the two-phase disaggregated policy. -/
  | disaggregatedRequiresTwoPhase
  /-- The selected routing policy exists but is not implemented yet. -/
  | policyNotImplemented (policy : String)
  /-- Configuration could not be loaded or is invalid. -/
  | config (message : String)
deriving DecidableEq, Repr

instance : ToString RouterError where
  toString
    | .noHealthyWorkers policy => s!"no healthy workers available (policy: {policy})"
    | .noHealthyWorkersInPool pool policy =>
      s!"no healthy workers in pool `{pool}` (policy: {policy})"
    | .kvTransfer src dst reason =>
      s!"KV transfer from worker {src} to worker {dst} failed: {reason}"
    | .disaggregatedRequiresTwoPhase =>
      "policy `disaggregated` requires two-phase routing via `select_in_pool`; " ++
      "`select_for_chat` cannot serve disaggregated requests"
    | .policyNotImplemented policy => s!"routing policy `{policy}` is not implemented yet"
    | .config message => s!"invalid configuration: {message}"

/-- The check that `from_yaml` makes on a parsed configuration. -/
def RouterConfig.validate (config : RouterConfig) : Except RouterError RouterConfig :=
  if config.workers.isEmpty && !config.discovery.enabled then
    .error (.config ("`workers` must contain at least one entry, or enable `discovery` " ++
      "to populate workers from Kubernetes"))
  else .ok config

end KvRoute
