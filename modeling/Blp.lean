import Blp.Aof.Account
import Blp.Aof.Bounds
import Blp.Aof.Durable
import Blp.Aof.Grammar
import Blp.Aof.Lifecycle
import Blp.Aof.Offset
import Blp.Aof.Rounds
import Blp.Aof.Slices
import Blp.Aof.Space
import Blp.Aof.Tail
import Blp.Common.Config
import Blp.Common.RingBuffer
import Blp.Common.SequenceNumber
import Blp.Core.Acts
import Blp.Core.Atomic
import Blp.Core.Cleanup
import Blp.Core.Concurrent
import Blp.Core.Deadline
import Blp.Core.Expiry
import Blp.Core.Keys
import Blp.Core.Linear
import Blp.Core.Past
import Blp.Core.ReadWrite
import Blp.Core.Reference
import Blp.Core.Replay
import Blp.Core.Reported
import Blp.Core.Timeless
import Blp.Lib.BigEndian
import Blp.Replica.Codec
import Blp.Replica.Converge
import Blp.Replica.Delivery
import Blp.Replica.Departed
import Blp.Replica.Failover
import Blp.Replica.Fanout
import Blp.Replica.Heartbeat
import Blp.Replica.Order
import Blp.Replica.Pipeline
import Blp.Replica.Receive
import Blp.Replica.Reconnect
import Blp.Replica.Senders
import Blp.Service.Handlers
import Blp.Service.ReadOnly
import Blp.Service.Server
import Blp.Service.Session
