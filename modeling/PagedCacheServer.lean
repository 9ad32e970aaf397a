import PagedCacheServer.Library.StepMachine
import PagedCacheServer.Library.Nodes
import PagedCacheServer.Library.Spans
import PagedCacheServer.Library.Recency
import PagedCacheServer.Library.Paging
import PagedCacheServer.Library.Framing
import PagedCacheServer.Library.BitQueue
import PagedCacheServer.Library.Chances
import PagedCacheServer.Library.Census
import PagedCacheServer.Bytes
import PagedCacheServer.Cache.Defs
import PagedCacheServer.Cache.FreeList
import PagedCacheServer.Cache.Allocate
import PagedCacheServer.Cache.Invariant
import PagedCacheServer.Cache.Store
import PagedCacheServer.Cache.Steps
import PagedCacheServer.Cache.Refine
import PagedCacheServer.Cache.Ownership
import PagedCacheServer.Cache.Fragmentation
import PagedCacheServer.Cache.PageSpec
import PagedCacheServer.Cache.Contiguous
import PagedCacheServer.Cache.Atomic
import PagedCacheServer.Cache.History
import PagedCacheServer.Cache.Eviction
import PagedCacheServer.Cache.Noninterference
import PagedCacheServer.Cache.Admission
import PagedCacheServer.Cache.Recovery
import PagedCacheServer.Cache.HighWater
import PagedCacheServer.Cache.PlainMap
import PagedCacheServer.Cache.Pointers
import PagedCacheServer.Cache.PointerPages
import PagedCacheServer.Cache.PointerRefine
import PagedCacheServer.Cache.PointerSessions
import PagedCacheServer.Protocol.Defs
import PagedCacheServer.Protocol.RoundTrip
import PagedCacheServer.Protocol.Reordering
import PagedCacheServer.Server.Defs
import PagedCacheServer.Server.Sessions
import PagedCacheServer.Server.Isolation
import PagedCacheServer.Server.Streams
import PagedCacheServer.Server.Specification
import PagedCacheServer.Server.Chunking
import PagedCacheServer.Server.EventLoop
import PagedCacheServer.Server.Settling
import PagedCacheServer.Server.Fidelity
import PagedCacheServer.Server.Acceptance
import PagedCacheServer.Server.Responses
import PagedCacheServer.Server.Wire
import PagedCacheServer.Benchmark.Defs
import PagedCacheServer.Benchmark.Books
import PagedCacheServer.Benchmark.Sweeps
import PagedCacheServer.Benchmark.Invariant
import PagedCacheServer.Benchmark.Bookkeeping
import PagedCacheServer.Benchmark.Hand
import PagedCacheServer.Benchmark.Reuse
import PagedCacheServer.Benchmark.Reference
import PagedCacheServer.Benchmark.Sieve
import PagedCacheServer.Benchmark.Clock
import PagedCacheServer.Benchmark.SecondChance
import PagedCacheServer.Benchmark.Values
import PagedCacheServer.Benchmark.Window
import PagedCacheServer.Benchmark.WorkingSet
import PagedCacheServer.Benchmark.Competitive
import PagedCacheServer.Pool.Defs
import PagedCacheServer.Pool.Steps
import PagedCacheServer.Pool.Accounting
import PagedCacheServer.Pool.Shutdown
import PagedCacheServer.Pool.Wakeup
import PagedCacheServer.Pool.Progress
import PagedCacheServer.Pool.Scripts
import PagedCacheServer.Pool.Herd
import PagedCacheServer.Trace.Defs
import PagedCacheServer.Trace.Requests
import PagedCacheServer.Trace.Run
import PagedCacheServer.Trace.Summary
import PagedCacheServer.Trace.CommandLine
