import YfsRpc.Foundation.Machine
import YfsRpc.Foundation.CondVar
import YfsRpc.Foundation.Block
import YfsRpc.Foundation.Words
import YfsRpc.Foundation.Formats
import YfsRpc.Rpc.Marshall
import YfsRpc.Rpc.MarshallBuffer
import YfsRpc.Rpc.Unmarshall
import YfsRpc.Rpc.Types
import YfsRpc.Rpc.MarshallGrowth
import YfsRpc.Rpc.RoundTrip
import YfsRpc.Rpc.MarshallRuns
import YfsRpc.Rpc.DecodeBounds
import YfsRpc.Rpc.WireFormat
import YfsRpc.Rpc.Containers
import YfsRpc.Foundation.Frames
import YfsRpc.Rpc.Connection
import YfsRpc.Rpc.Framing
import YfsRpc.Rpc.PduSize
import YfsRpc.Rpc.ReadEnd
import YfsRpc.Rpc.ReadBounds
import YfsRpc.Rpc.ReadView
import YfsRpc.Rpc.EndOfStream
import YfsRpc.Foundation.Ascending
import YfsRpc.Rpc.Timespec
import YfsRpc.Rpc.CallLoop
import YfsRpc.Rpc.XidRep
import YfsRpc.Rpc.ReplyWindow
import YfsRpc.Rpc.Client
import YfsRpc.Rpc.Messages
import YfsRpc.Rpc.Handlers
import YfsRpc.Rpc.Overwrite
import YfsRpc.Rpc.ClientInvariant
import YfsRpc.Rpc.Server
import YfsRpc.Rpc.ServerInvariant
import YfsRpc.Rpc.System
import YfsRpc.Rpc.SystemInvariant
import YfsRpc.Rpc.AtMostOnce
import YfsRpc.Rpc.RawServer
import YfsRpc.Rpc.RawView
import YfsRpc.Rpc.RawSafety
import YfsRpc.Rpc.RawSystem
import YfsRpc.Rpc.ReplyIntegrity
import YfsRpc.Rpc.LatestConn
import YfsRpc.Rpc.Retention
import YfsRpc.Rpc.Forgotten
import YfsRpc.Rpc.Instances
import YfsRpc.Rpc.Isolation
import YfsRpc.Rpc.Lineage
import YfsRpc.Foundation.Linearization
import YfsRpc.Rpc.Linearizability
import YfsRpc.Rpc.TypedCalls
import YfsRpc.Rpc.Patient
import YfsRpc.Rpc.Standing
import YfsRpc.Rpc.Settled
import YfsRpc.Foundation.Progress
import YfsRpc.Rpc.Answerable
import YfsRpc.Rpc.Cancellation
import YfsRpc.Rpc.CancelComplete
import YfsRpc.Rpc.PollMgr
import YfsRpc.Rpc.Removal
import YfsRpc.Rpc.SelectScan
import YfsRpc.Rpc.WakePipe
import YfsRpc.Foundation.Component
import YfsRpc.Rpc.EPollAio
import YfsRpc.Rpc.Endpoint
import YfsRpc.Rpc.Stranding
import YfsRpc.Rpc.Polled
import YfsRpc.Rpc.WriteCallback
import YfsRpc.Rpc.Registration
import YfsRpc.Foundation.Holders
import YfsRpc.Foundation.LockOrder
import YfsRpc.Rpc.ConnLocks
import YfsRpc.Rpc.ConnRefs
import YfsRpc.Foundation.OrderedMap
import YfsRpc.Rpc.AcceptGc
import YfsRpc.Rpc.ClientConns
import YfsRpc.Rpc.ClientBalance
import YfsRpc.Rpc.Retransmission
import YfsRpc.Rpc.ServerConns
import YfsRpc.Rpc.ServerBalance
import YfsRpc.Rpc.ReplyConns
import YfsRpc.Rpc.ReplyBuffers
import YfsRpc.Rpc.WindowSpec
import YfsRpc.Rpc.BufferLedger
import YfsRpc.Rpc.BufferSafety
import YfsRpc.Rpc.BufferLoss
import YfsRpc.Foundation.SignalVar
import YfsRpc.Rpc.Fifo
import YfsRpc.Foundation.Assignment
import YfsRpc.Rpc.ThrPool
import YfsRpc.Rpc.PoolShutdown
import YfsRpc.LockService.LockServer
import YfsRpc.LockService.LockClient
import YfsRpc.LockService.LockInvariant
import YfsRpc.LockService.MutualExclusion
import YfsRpc.LockService.Acquisitions
import YfsRpc.LockService.XidWrap
import YfsRpc.LockService.RawLocks
import YfsRpc.LockService.RawGrants
import YfsRpc.LockService.Waiters
import YfsRpc.LockService.LockObject
import YfsRpc.LockService.LockTester
import YfsRpc.LockService.LockHeap
import YfsRpc.LockService.StandingAcquires
import YfsRpc.LockService.WorkerPool
