import Zodiac.Lib.Channel
import Zodiac.Lib.Fairness
import Zodiac.Lib.GoMap
import Zodiac.Lib.Linearizable
import Zodiac.Lib.Lines
import Zodiac.Lib.Machine
import Zodiac.Lib.MixedOrder
import Zodiac.Lib.Mutex
import Zodiac.Lib.Paging
import Zodiac.Lib.Replica
import Zodiac.Lib.RingBuffer
import Zodiac.Lib.TypedJson
import Zodiac.Lib.Updates
import Zodiac.Lib.UrlQuery
import Zodiac.Api
import Zodiac.DataStore
import Zodiac.Service
import Zodiac.Pagination
import Zodiac.Threshold
import Zodiac.LeaseInvariant
import Zodiac.Revocation
import Zodiac.LeaseExpiry
import Zodiac.LeaseTime
import Zodiac.Convergence
import Zodiac.LeaseRemoval
import Zodiac.Log
import Zodiac.LeasedKeys
import Zodiac.Dedup
import Zodiac.ClientOrder
import Zodiac.ClientIdentity
import Zodiac.Cadence
import Zodiac.EventFold
import Zodiac.Transaction
import Zodiac.TxnEvents
import Zodiac.Watch
import Zodiac.EventBuffer
import Zodiac.Resume
import Zodiac.WatchStream
import Zodiac.WatchPrefix
import Zodiac.Sse
import Zodiac.WatchQuery
import Zodiac.EventJson
import Zodiac.JsonText
import Zodiac.EventStream
import Zodiac.Updater
import Zodiac.Handlers
import Zodiac.Revision
import Zodiac.KeepAlive
import Zodiac.Cluster
import Zodiac.NodeStep
import Zodiac.Origin
import Zodiac.NodeInvariant
import Zodiac.Acknowledge
import Zodiac.ClusterReplicas
import Zodiac.Subscriptions
import Zodiac.FailedCommit
import Zodiac.Membership
import Zodiac.PeerBook
import Zodiac.PeerList
import Zodiac.Locking
import Zodiac.Joins
import Zodiac.CommitChannels
import Zodiac.ServerChannels
import Zodiac.JoinCluster
import Zodiac.Spec
import Zodiac.SpecRefinement
import Zodiac.SpecRuns
import Zodiac.Linearizable
import Zodiac.ClientGuarantees
import Zodiac.Mirror
import Zodiac.WatchProgress
import Zodiac.Progress
import Zodiac.Answers
import Zodiac.LeaseProgress
import Zodiac.LeaseSafety
import Zodiac.Client
import Zodiac.Session
import Zodiac.Wire
import Zodiac.WireSend
import Zodiac.Startup
