import KvRoute.Bench.Tracegen
import KvRoute.Bench.Workloads
import KvRoute.Core.CandidateOrder
import KvRoute.Core.CanonicalPrompt
import KvRoute.Core.ChainOrder
import KvRoute.Core.ConcurrentDecisions
import KvRoute.Core.ConcurrentIndex
import KvRoute.Core.Config
import KvRoute.Core.Conservation
import KvRoute.Core.Credits
import KvRoute.Core.Eviction
import KvRoute.Core.EvictionTask
import KvRoute.Core.FlatIndex
import KvRoute.Core.Hashing
import KvRoute.Core.Inflight
import KvRoute.Core.Panics
import KvRoute.Core.Payload
import KvRoute.Core.Prefix
import KvRoute.Core.PrefixClosure
import KvRoute.Core.PrefixHistory
import KvRoute.Core.PrefixRuns
import KvRoute.Core.PrefixStamps
import KvRoute.Core.Request
import KvRoute.Core.RoundRobin
import KvRoute.Core.Router
import KvRoute.Core.RoutingEffect
import KvRoute.Core.Scoring
import KvRoute.Core.Sections
import KvRoute.Core.Sweep
import KvRoute.Core.Turns
import KvRoute.Core.Worker
import KvRoute.Lib.Checked
import KvRoute.Lib.Float64
import KvRoute.Lib.HashTable
import KvRoute.Lib.Interleaving
import KvRoute.Lib.Json
import KvRoute.Lib.JsonText
import KvRoute.Lib.KeyMap
import KvRoute.Lib.Moments
import KvRoute.Lib.Occurrences
import KvRoute.Lib.OrderedDict
import KvRoute.Lib.PrefixTree
import KvRoute.Lib.Records
import KvRoute.Lib.Rotation
import KvRoute.Lib.Runs
import KvRoute.Lib.RustText
import KvRoute.Lib.Serde
import KvRoute.Lib.Sha256
import KvRoute.Lib.SipHash
import KvRoute.Lib.Slices
import KvRoute.Lib.TextLines
import KvRoute.Lib.ThreadHistory
import KvRoute.Mock.Belief
import KvRoute.Mock.Completions
import KvRoute.Mock.Engine
import KvRoute.Mock.Mirror
import KvRoute.Mock.TokenCounts
import KvRoute.Py.Forecast
import KvRoute.Py.Isolation
import KvRoute.Py.Native
import KvRoute.Py.Simulate
import KvRoute.Py.Surface
import KvRoute.Sdk.Client
import KvRoute.Sdk.Requests
import KvRoute.Sdk.RoundTrip
import KvRoute.Server.Accounting
import KvRoute.Server.Api
import KvRoute.Server.Chunking
import KvRoute.Server.Disaggregated
import KvRoute.Server.Discovery
import KvRoute.Server.DiscoveryRuns
import KvRoute.Server.Dispatch
import KvRoute.Server.Gauges
import KvRoute.Server.Handlers
import KvRoute.Server.HitRates
import KvRoute.Server.Identity
import KvRoute.Server.MalformedLines
import KvRoute.Server.Occupancy
import KvRoute.Server.Outcomes
import KvRoute.Server.PrometheusText
import KvRoute.Server.ProxyStream
import KvRoute.Server.Races
import KvRoute.Server.Readiness
import KvRoute.Server.Reconciliation
import KvRoute.Server.Replacement
import KvRoute.Server.Requests
import KvRoute.Server.Reuse
import KvRoute.Server.Selection
import KvRoute.Server.SseTermination
import KvRoute.Server.Staircase
import KvRoute.Server.State
import KvRoute.Server.Tasks
import KvRoute.Server.Truncation
