import Hyper4k.Runs.Guarded
import Hyper4k.Runs.Threads
import Hyper4k.Runs.Channel
import Hyper4k.Cells.Assign
import Hyper4k.Bridge.Abi
import Hyper4k.Bridge.Retry
import Hyper4k.Bridge.Slot
import Hyper4k.Bridge.Exec
import Hyper4k.Bridge.Client
import Hyper4k.Bridge.Projection
import Hyper4k.Bridge.Gate
import Hyper4k.Bridge.Feed
import Hyper4k.Bridge.Delivery
import Hyper4k.Bridge.Parking
import Hyper4k.Bridge.Resume
import Hyper4k.Bridge.Wakeup
import Hyper4k.Bridge.Cancel
import Hyper4k.Bridge.Slices
import Hyper4k.Bridge.Permit
import Hyper4k.Bridge.Registry
import Hyper4k.Bridge.Publication
import Hyper4k.Bridge.Accounting
import Hyper4k.Bridge.Quiescence
import Hyper4k.Bridge.Executor
import Hyper4k.Bridge.Backlog
import Hyper4k.Bridge.Limits
import Hyper4k.Bridge.ReadyQueue
import Hyper4k.Bridge.PauseGuards
import Hyper4k.Bridge.Submit
import Hyper4k.Bridge.Versioned
import Hyper4k.Bridge.Stores
import Hyper4k.Bridge.Settings
import Hyper4k.Bridge.Refusal
import Hyper4k.Pooling.Acquire
import Hyper4k.Pooling.Reservation
import Hyper4k.Pooling.Steps
import Hyper4k.Pooling.Senders
import Hyper4k.Pooling.Leasing
import Hyper4k.Pooling.SingleDial
import Hyper4k.Pooling.Shutdown
import Hyper4k.Pooling.Waiters
import Hyper4k.Pooling.Exhaustive
import Hyper4k.Pooling.Exchange
import Hyper4k.Pooling.Records
import Hyper4k.Pooling.Failures
import Hyper4k.Pooling.Transport
import Hyper4k.Pooling.Outgoing
import Hyper4k.Pooling.Isolation
import Hyper4k.Proxy.Tunnel
import Hyper4k.Server.Headers
import Hyper4k.Server.HeaderLines
import Hyper4k.Server.RoundTrip
import Hyper4k.Server.RequestHeaders
import Hyper4k.Server.HeaderLookup
import Hyper4k.Server.Responder
import Hyper4k.Server.Stepped
import Hyper4k.Server.Orderly
import Hyper4k.Server.SingleUse
import Hyper4k.Server.Provenance
import Hyper4k.Server.Streaming
import Hyper4k.Server.StreamOwner
import Hyper4k.Server.Serial
import Hyper4k.Server.BodyFrames
import Hyper4k.Server.CallView
import Hyper4k.Server.Integrity
import Hyper4k.Server.Registry
import Hyper4k.Server.Settled
import Hyper4k.Kotlin.Backpressure
import Hyper4k.Kotlin.Watermark
import Hyper4k.Kotlin.Dispatcher
import Hyper4k.Kotlin.Drain
import Hyper4k.Kotlin.Slots
import Hyper4k.Kotlin.ExactlyOnce
import Hyper4k.Kotlin.Drops
import Hyper4k.Kotlin.Backend
import Hyper4k.Kotlin.CallProgress
import Hyper4k.Kotlin.Jobs
import Hyper4k.Kotlin.RequestView
import Hyper4k.Kotlin.Tied
import Hyper4k.Kotlin.Agreement
import Hyper4k.Kotlin.Answers
import Hyper4k.Kotlin.EndToEnd
import Hyper4k.Kotlin.Written
import Hyper4k.Kotlin.Marshal
import Hyper4k.Kotlin.Construction
import Hyper4k.Kotlin.Lifecycle
import Hyper4k.Bridge.Upcalls
import Hyper4k.Kotlin.Frontend
import Hyper4k.Kotlin.Executed
import Hyper4k.Kotlin.Heard
import Hyper4k.Kotlin.Sending
import Hyper4k.Kotlin.Linked
import Hyper4k.Kotlin.Received
import Hyper4k.Kotlin.References
import Hyper4k.Kotlin.RequestIds
