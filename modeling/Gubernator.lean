import Gubernator.Lib.ExactFloat
import Gubernator.Lib.Calendar
import Gubernator.Lib.Machine
import Gubernator.Lib.Gcra
import Gubernator.Lib.CappedLine
import Gubernator.Lib.Interleaving
import Gubernator.Lib.Replica
import Gubernator.Lib.Ring
import Gubernator.Lib.LinkedList
import Gubernator.Lib.Lru
import Gubernator.Types
import Gubernator.Interval
import Gubernator.Interval.Tiling
import Gubernator.Cache
import Gubernator.Charges
import Gubernator.LruCache
import Gubernator.TokenBucket
import Gubernator.LeakyBucket
import Gubernator.Instance
import Gubernator.Leaky.Balance
import Gubernator.Leaky.Call
import Gubernator.Leaky.Debt
import Gubernator.Leaky.MaxWait
import Gubernator.Leaky.Query
import Gubernator.Leaky.Spend
import Gubernator.Leaky.Table
import Gubernator.Leaky.Conformance
import Gubernator.Leaky.Solvency
import Gubernator.Leaky.Settle
import Gubernator.Leaky.Expiry
import Gubernator.Leaky.FreeQueries
import Gubernator.Leaky.UpToDate
import Gubernator.Leaky.ResetTime
import Gubernator.Leaky.Slots
import Gubernator.Leaky.Entry
import Gubernator.Leaky.Creation
import Gubernator.Token.Window
import Gubernator.Failure
import Gubernator.Writes
import Gubernator.Eviction
import Gubernator.KeyView
import Gubernator.Interval.Boundary
import Gubernator.WorkerPool
import Gubernator.Isolation
import Gubernator.WorkerPool.Contents
import Gubernator.WorkerPool.SaveLoad
import Gubernator.WorkerPool.Dispatch
import Gubernator.Deployment
import Gubernator.Lib.FixedWindow
import Gubernator.Deployment.Network
import Gubernator.Deployment.TokenRate
import Gubernator.WorkerPool.Reshard
import Gubernator.Lib.Gather
import Gubernator.GetPeerRateLimits
import Gubernator.Etcd
import Gubernator.Ownership
import Gubernator.Global
import Gubernator.Global.Bucket
import Gubernator.Global.Refinement
import Gubernator.Global.Convergence
import Gubernator.Global.StatusRead
import Gubernator.Global.Aggregation
import Gubernator.Window.Token
import Gubernator.Window.Leaky
import Gubernator.Global.OrderKept
import Gubernator.ReplicatedHash
import Gubernator.GetRateLimits
import Gubernator.SetPeers
import Gubernator.SetPeers.Pickers
import Gubernator.SetPeers.Sound
import Gubernator.SetPeers.Installs
import Gubernator.PeerClient
import Gubernator.Batching
import Gubernator.BatchLoop
import Gubernator.BatchLoop.Ticks
import Gubernator.BatchLoop.BatchSize
import Gubernator.MemberList
import Gubernator.Lib.Int64
import Gubernator.Wrapped
import Gubernator.Wrapped.Overflow
