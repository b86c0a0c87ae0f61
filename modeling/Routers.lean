import Routers.Library.Layered
import Routers.Library.Frontier
import Routers.Library.PriorityQueue
import Routers.Library.ReadThrough
import Routers.Trellis.Basic
import Routers.Trellis.Invariant
import Routers.Trellis.Viterbi
import Routers.Trellis.Table
import Routers.Trellis.Solution
import Routers.Trellis.Brute
import Routers.Trellis.Conformance
import Routers.Trellis.Window
import Routers.Trellis.Convergence
import Routers.Trellis.Cut
import Routers.Trellis.Pruning
import Routers.Network
import Routers.Transition.Dijkstra
import Routers.Transition.Search
import Routers.Transition.Candidate
import Routers.Transition.Cache
import Routers.Transition.Reach
import Routers.Transition.Expansion
import Routers.Transition.Costing
import Routers.Transition.Weigher
import Routers.Transition.Trip
import Routers.Transition.Matcher
import Routers.Transition.Streaming
import Routers.Transition.Continuation
import Routers.Transition.Snapshot
import Routers.Transition.Greedy
import Routers.Library.CheapestFirst
import Routers.Transition.Shortest
import Routers.Library.CutOff
import Routers.Transition.WithinReach
import Routers.Library.MaxByKey
import Routers.Realtime.Placement
import Routers.Geo
import Routers.Library.DeltaCoding
import Routers.Library.GraphMap
import Routers.DataPlane
import Routers.Codec.Element
import Routers.Library.Text
import Routers.Codec.Graph
import Routers.Library.IndexMap
import Routers.Shard.Network
import Routers.Shard.Composite
import Routers.Shard.Order
import Routers.Library.Subdivision
import Routers.Shard.Strategy
import Routers.Shard.Geohash
import Routers.Shard.QuadTree
import Routers.Shard.Neighbours
import Routers.Shard.Window
import Routers.Transition.Picks
import Routers.Realtime.DateTime
import Routers.Realtime.Event
import Routers.Realtime.Payload
import Routers.Viewer.Store
import Routers.Shard.Source
import Routers.Realtime.Matching
import Routers.Viewer.Rebuild
import Routers.Realtime.Lane
import Routers.Realtime.Worker
import Routers.Realtime.Context
import Routers.Realtime.Redelivery
import Routers.Realtime.LaneSafety
import Routers.Transition.ParentTree
import Routers.Transition.Pruning
import Routers.Transition.Breaks
import Routers.Library.FirstSeen
import Routers.Discovery
import Routers.Codec.Discovery
import Routers.Shard.Discovery
import Routers.Shard.Union
import Routers.Codec.Blob
import Routers.Codec.Block
import Routers.Codec.OpeningHours
import Routers.Codec.Transport
import Routers.Codec.Access
import Routers.Shard.GeohashName
import Routers.Codec.OpeningHoursText
import Routers.Codec.Condition
import Routers.Codec.ConditionOrder
import Routers.Codec.ConditionPanics
import Routers.Codec.ConditionText
import Routers.Codec.ConditionPrinted
import Routers.Codec.ConditionRoundTrip
import Routers.Codec.SpeedLimit
import Routers.Trellis.Calls
import Routers.Trellis.Arithmetic
import Routers.Library.Newest
import Routers.Realtime.CachedStore
import Routers.Library.Worklist
import Routers.Library.Components
import Routers.Library.Grouping
import Routers.Cluster.Basic
import Routers.Cluster.Classes
import Routers.Cluster.Groups
import Routers.Library.KeyedQueue
import Routers.Realtime.Ingest
import Routers.Realtime.Fleet
import Routers.Realtime.FleetHomes
import Routers.Realtime.FleetLane
import Routers.Realtime.FleetOnward
import Routers.Realtime.FleetRecovery
import Routers.Realtime.FleetSafety
import Routers.Realtime.Service
import Routers.Library.ForkJoin
import Routers.Codec.Parallel
import Routers.Library.Framed
import Routers.Codec.Saved
import Routers.Shard.Published
import Routers.Library.SharedMemory
import Routers.Transition.SharedCache
import Routers.Realtime.SharedMatching
