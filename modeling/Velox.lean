import Velox.Lib.Probing
import Velox.Lib.Chain
import Velox.Lib.Bitset
import Velox.Common.Types
import Velox.Common.ObjectPool
import Velox.Engine.PriceLevel
import Velox.Book.LevelMap
import Velox.Engine.OrderBook
import Velox.Engine.QueueCalls
import Velox.Engine.Represents
import Velox.Engine.Matching
import Velox.Engine.Calls
import Velox.Engine.FillOrKill
import Velox.Engine.Sharp
import Velox.Engine.Reference
import Velox.Engine.PriceTime
import Velox.Engine.Invariants
import Velox.Engine.Ledger
import Velox.Common.Crc32
import Velox.Engine.Canonical
import Velox.Ipc.Command
import Velox.Sequencer.Snapshot
import Velox.Recovery.Restore
import Velox.Lib.Storage
import Velox.Lib.Runs
import Velox.Engine.Sweep
import Velox.Runtime.Events
import Velox.Marketdata.BookMirror
import Velox.Lib.Framing
import Velox.Protocol.Decoder
import Velox.Gateway.Session
import Velox.Gateway.Submission
import Velox.Engine.Others
import Velox.Gateway.Requests
import Velox.Gateway.Router
import Velox.Gateway.Routing
import Velox.Gateway.Delivery
import Velox.Marketdata.Naming
import Velox.Marketdata.Publisher
import Velox.Marketdata.Restart
import Velox.Lib.Replay
import Velox.Marketdata.SnapshotSource
import Velox.Viz.Ladder
import Velox.Viz.LateJoin
import Velox.Marketdata.Resync
import Velox.Lib.Memory
import Velox.Protocol.FrameBuffer
import Velox.Protocol.Frames
import Velox.Protocol.Encoder
import Velox.Marketdata.FeedCodec
import Velox.Gateway.Backpressure
import Velox.Runtime.Pipeline
import Velox.Gateway.Acks
import Velox.Audit.Replayer
import Velox.Audit.Ingest
import Velox.Sequencer.JournalFormat
import Velox.Lib.Digits
import Velox.Sequencer.JournalReader
import Velox.Sequencer.JournalWriter
import Velox.Sequencer.JournalLayout
import Velox.Sequencer.Contents
import Velox.Sequencer.JournalScan
import Velox.Sequencer.JournalTailer
import Velox.Sequencer.JournalWrites
import Velox.Sequencer.Tailing
import Velox.Sequencer.Durable
import Velox.Sequencer.Detection
import Velox.Engine.Prescan
import Velox.Engine.Replace
import Velox.Engine.Work
import Velox.Recovery.Recover
import Velox.Recovery.Replay
import Velox.Recovery.Lifetimes
import Velox.Recovery.Drift
import Velox.Ipc.MulticastRing
import Velox.Viz.Totals
import Velox.Audit.Failures
import Velox.Engine.Balance
import Velox.Audit.OrderCurrent
import Velox.Book.Occupancy
import Velox.Viz.MdClient
import Velox.Common.Base64
import Velox.Lib.WebSocket
import Velox.Viz.WsServer
import Velox.Gateway.Credentials
import Velox.Ipc.SpscThreads
import Velox.Lib.ProbingOrder
import Velox.Book.OrderIdMap
import Velox.Admin.Sha256
import Velox.Lib.Json
import Velox.Admin.Jwt
import Velox.Admin.Store
import Velox.Lib.Paging
import Velox.Admin.Routes
import Velox.Admin.Pages
