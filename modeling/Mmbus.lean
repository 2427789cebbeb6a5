import Mmbus.Lib.Transition
import Mmbus.Lib.FlagBit
import Mmbus.Lib.Chapters
import Mmbus.Lib.ByteMemory
import Mmbus.Lib.Replays
import Mmbus.Lib.Framing
import Mmbus.Lib.Exposition
import Mmbus.Prometheus
import Mmbus.BridgeFrame
import Mmbus.BridgeReaders
import Mmbus.BridgeMesh
import Mmbus.BridgeLoops
import Mmbus.Ring
import Mmbus.RingCreation
import Mmbus.Publish
import Mmbus.Receive
import Mmbus.Seqlock
import Mmbus.SliceReceive
import Mmbus.Subscriber
import Mmbus.Backpressure
import Mmbus.Bus
import Mmbus.Ownership
import Mmbus.CursorTable
import Mmbus.Delivery
import Mmbus.Connections
import Mmbus.Acceptance
import Mmbus.Drain
import Mmbus.StartPosition
import Mmbus.Faults
import Mmbus.Generations
import Mmbus.Wakeup
import Mmbus.NextWakeup
import Mmbus.Wal
import Mmbus.WalV2
import Mmbus.Logging
import Mmbus.MappedSegment
import Mmbus.LiveSegment
import Mmbus.MappedCalls
import Mmbus.MappedLog
import Mmbus.MappedSessions
import Mmbus.DamagedLog
import Mmbus.Durability
import Mmbus.DurabilityV2
import Mmbus.Sessions
import Mmbus.SessionsV2
import Mmbus.Handover
import Mmbus.FileLog
import Mmbus.FileReplay
import Mmbus.FileSessions
import Mmbus.Replay
import Mmbus.ProducerLock
import Mmbus.Codec
import Mmbus.Recovery
import Mmbus.Lifecycle
import Mmbus.Entries
import Mmbus.ChannelNames
import Mmbus.Presence
import Mmbus.PresenceRecords
import Mmbus.PublishMany
import Mmbus.Overrun
import Mmbus.Retention
import Mmbus.CatchUp
import Mmbus.MixedCalls
import Mmbus.FanOut
import Mmbus.SlowConsumer
import Mmbus.Reconnect
import Mmbus.Shutdown
import Mmbus.Refusals
import Mmbus.RefusalsV2
import Mmbus.RetentionV2
import Mmbus.RingLayout
import Mmbus.BridgeWire
import Mmbus.CertPin
import Mmbus.BridgeQueue
import Mmbus.SegmentBounds
import Mmbus.BridgeSequences
import Mmbus.BridgeProvenance
import Mmbus.ChannelDelivery
import Mmbus.BridgeHandle
import Mmbus.AsyncReceive
import Mmbus.PyBus
import Mmbus.PySubscription
import Mmbus.PresenceChanges
