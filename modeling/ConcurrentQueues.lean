import ConcurrentQueues.Support.Lts
import ConcurrentQueues.Support.Pool
import ConcurrentQueues.Support.Object
import ConcurrentQueues.Support.Duo
import ConcurrentQueues.Support.Ring
import ConcurrentQueues.Support.Monitor
import ConcurrentQueues.Support.Tickets
import ConcurrentQueues.Support.Refinement
import ConcurrentQueues.Support.Sections
import ConcurrentQueues.Support.Lifetimes
import ConcurrentQueues.Support.Abandon
import ConcurrentQueues.Support.Sync
import ConcurrentQueues.Support.Stamps
import ConcurrentQueues.Support.Clients
import ConcurrentQueues.Support.Waiting
import ConcurrentQueues.Support.StopFlags
import ConcurrentQueues.Support.Counters
import ConcurrentQueues.Core.Memory
import ConcurrentQueues.Core.Signed
import ConcurrentQueues.Core.RingBuffer
import ConcurrentQueues.Core.DropOldest
import ConcurrentQueues.Mpmc.Model
import ConcurrentQueues.Mpmc.Invariant
import ConcurrentQueues.Mpmc.Preservation
import ConcurrentQueues.Mpmc.Linearizable
import ConcurrentQueues.Mpmc.Exclusion
import ConcurrentQueues.Mpmc.Progress
import ConcurrentQueues.Mpmc.Word
import ConcurrentQueues.Mpmc.Bounded
import ConcurrentQueues.Mpmc.Refusals
import ConcurrentQueues.Mpmc.Retried
import ConcurrentQueues.Mpmc.Throwing
import ConcurrentQueues.Mpmc.Unwrapped
import ConcurrentQueues.Spsc.Model
import ConcurrentQueues.Spsc.Invariant
import ConcurrentQueues.Spsc.Linearizable
import ConcurrentQueues.Spsc.Calls
import ConcurrentQueues.Spsc.Wrap
import ConcurrentQueues.Spsc.Exclusion
import ConcurrentQueues.Spsc.Delta
import ConcurrentQueues.Spsc.Equivalence
import ConcurrentQueues.Spsc.Lifetime
import ConcurrentQueues.Spsc.Emptiness
import ConcurrentQueues.Mutex.Model
import ConcurrentQueues.Mutex.Wakeup
import ConcurrentQueues.Mutex.Fifo
import ConcurrentQueues.Mutex.Exceptions
import ConcurrentQueues.Bench.Barrier
import ConcurrentQueues.Bench.Threads
import ConcurrentQueues.Bench.Drain
import ConcurrentQueues.Bench.SingleConsumer
import ConcurrentQueues.Bench.Queues
import ConcurrentQueues.Bench.Interval
import ConcurrentQueues.Support.Views
import ConcurrentQueues.Spsc.Orders
import ConcurrentQueues.Support.Serial
import ConcurrentQueues.Spsc.RaceFree
import ConcurrentQueues.Spsc.Races
import ConcurrentQueues.Spsc.Hesitant
import ConcurrentQueues.Spsc.Agreement
import ConcurrentQueues.Mpmc.Orders
import ConcurrentQueues.Mpmc.RaceFree
import ConcurrentQueues.Mpmc.WeakFifo
import ConcurrentQueues.Mpmc.Races
import ConcurrentQueues.Mpmc.Agreement
import ConcurrentQueues.Support.Bag
import ConcurrentQueues.Support.Histories
import ConcurrentQueues.Support.Overtaking
import ConcurrentQueues.Atomic.Layout
import ConcurrentQueues.Atomic.Model
import ConcurrentQueues.Atomic.Bag
import ConcurrentQueues.Atomic.Single
import ConcurrentQueues.Atomic.Overtaking
import ConcurrentQueues.Support.Overcommit
import ConcurrentQueues.Support.Bulk
import ConcurrentQueues.Moodycamel.Producer
import ConcurrentQueues.Moodycamel.Dealing
import ConcurrentQueues.Moodycamel.BulkFifo
import ConcurrentQueues.Support.Below
import ConcurrentQueues.Moodycamel.BlockIndex
import ConcurrentQueues.Moodycamel.Explicit
import ConcurrentQueues.Moodycamel.Storage
import ConcurrentQueues.Moodycamel.Reuse
import ConcurrentQueues.Moodycamel.Emptying
import ConcurrentQueues.Moodycamel.Gathering
import ConcurrentQueues.Moodycamel.Blocks
import ConcurrentQueues.Moodycamel.Window
import ConcurrentQueues.Moodycamel.Indexing
import ConcurrentQueues.Moodycamel.Entries
import ConcurrentQueues.Moodycamel.Lookup
import ConcurrentQueues.Moodycamel.Circular
