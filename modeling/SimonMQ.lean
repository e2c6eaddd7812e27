import SimonMQ.Attempts
import SimonMQ.Bodies
import SimonMQ.Dist.AckLaws
import SimonMQ.Dist.Answers
import SimonMQ.Dist.Attended
import SimonMQ.Dist.Causal
import SimonMQ.Dist.Client
import SimonMQ.Dist.Cluster
import SimonMQ.Dist.Command
import SimonMQ.Dist.DeliverOnce
import SimonMQ.Dist.Delivery
import SimonMQ.Dist.Exchange
import SimonMQ.Dist.Fleet
import SimonMQ.Dist.ForCause
import SimonMQ.Dist.Fsm
import SimonMQ.Dist.Linear
import SimonMQ.Dist.Listing
import SimonMQ.Dist.Outstanding
import SimonMQ.Dist.Passes
import SimonMQ.Dist.Publish
import SimonMQ.Dist.Queue
import SimonMQ.Dist.Reapply
import SimonMQ.Dist.Redirect
import SimonMQ.Dist.Server
import SimonMQ.Dist.Sink
import SimonMQ.Dist.Snapshot
import SimonMQ.Dist.Storage
import SimonMQ.Dist.Sweep
import SimonMQ.Dist.Tenure
import SimonMQ.Dist.Verdict
import SimonMQ.Dist.Verify
import SimonMQ.Dist.Wakeup
import SimonMQ.Dist.WellFormed
import SimonMQ.Dist.Worklist
import SimonMQ.Durable.Account
import SimonMQ.Durable.Append
import SimonMQ.Durable.BoundedRead
import SimonMQ.Durable.Broker
import SimonMQ.Durable.Checkpoint
import SimonMQ.Durable.Compaction
import SimonMQ.Durable.Coordinator
import SimonMQ.Durable.Custody
import SimonMQ.Durable.Decoding
import SimonMQ.Durable.Discipline
import SimonMQ.Durable.Disk
import SimonMQ.Durable.Drift
import SimonMQ.Durable.Follow
import SimonMQ.Durable.ForCause
import SimonMQ.Durable.History
import SimonMQ.Durable.InStep
import SimonMQ.Durable.Keeping
import SimonMQ.Durable.Layout
import SimonMQ.Durable.Ledger
import SimonMQ.Durable.Limit
import SimonMQ.Durable.Listing
import SimonMQ.Durable.Live
import SimonMQ.Durable.Model
import SimonMQ.Durable.ParseSize
import SimonMQ.Durable.Partition
import SimonMQ.Durable.Pass
import SimonMQ.Durable.Reading
import SimonMQ.Durable.Record
import SimonMQ.Durable.Recovery
import SimonMQ.Durable.Registry
import SimonMQ.Durable.Replacement
import SimonMQ.Durable.Replay
import SimonMQ.Durable.Requests
import SimonMQ.Durable.Restart
import SimonMQ.Durable.Resume
import SimonMQ.Durable.Rings
import SimonMQ.Durable.Segment
import SimonMQ.Durable.SegmentNames
import SimonMQ.Durable.Serving
import SimonMQ.Durable.Sessions
import SimonMQ.Durable.Stranding
import SimonMQ.Durable.Tally
import SimonMQ.Durable.Wal
import SimonMQ.Go.Binary
import SimonMQ.Go.Counts
import SimonMQ.Go.Crc32
import SimonMQ.Go.Directory
import SimonMQ.Go.Json
import SimonMQ.Go.JsonCodec
import SimonMQ.Go.JsonString
import SimonMQ.Go.Map
import SimonMQ.Go.Slice
import SimonMQ.Go.Strconv
import SimonMQ.Go.Strings
import SimonMQ.Go.Utf8
import SimonMQ.Model.SubPolicy
import SimonMQ.Push.Agreement
import SimonMQ.Push.Broker
import SimonMQ.Push.Drain
import SimonMQ.Push.History
import SimonMQ.Push.Pass
import SimonMQ.Push.Queue
import SimonMQ.Push.Registry
import SimonMQ.Push.Rings
import SimonMQ.Push.Routing
import SimonMQ.Push.Steps
import SimonMQ.Settlement
import SimonMQ.SharedObject
import SimonMQ.Simple.Agreement
import SimonMQ.Simple.Buffers
import SimonMQ.Simple.Ring
import SimonMQ.Transition
