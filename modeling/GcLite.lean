import GcLite.Library.Run
import GcLite.Library.TriColor
import GcLite.Library.Buckets
import GcLite.Library.Spans
import GcLite.Library.Mirror
import GcLite.Library.Gather
import GcLite.Library.Bfs
import GcLite.Library.Links
import GcLite.Library.Queues
import GcLite.Library.Bytes
import GcLite.Library.ObjectGraph
import GcLite.Library.Tenancy
import GcLite.Library.BitRecord
import GcLite.Layout
import GcLite.Arena
import GcLite.ArenaInvariant
import GcLite.Heap
import GcLite.Mem
import GcLite.Scope
import GcLite.MarkSweep
import GcLite.Barrier
import GcLite.Teardown
import GcLite.System
import GcLite.MarkState
import GcLite.MarkMutate
import GcLite.MarkRun
import GcLite.MarkView
import GcLite.Frame
import GcLite.Store
import GcLite.MarkOps
import GcLite.Sweep
import GcLite.Collect
import GcLite.MemInvariant
import GcLite.MarkMachine
import GcLite.Incremental
import GcLite.StopTheWorld
import GcLite.BarrierSoundness
import GcLite.Destruction
import GcLite.Reclaim
import GcLite.SweepEquivalence
import GcLite.ScopeInvariant
import GcLite.ScopeProtection
import GcLite.ScopeTeardown
import GcLite.WeakInvariant
import GcLite.WeakVersion
import GcLite.DropWindow
import GcLite.TeardownWindow
import GcLite.ArenaAlignment
import GcLite.Placement
import GcLite.Accounting
import GcLite.ExactCollection
import GcLite.CollectionOrder
import GcLite.GrayLists
import GcLite.CycleStart
import GcLite.Slicing
import GcLite.CollectionFrame
import GcLite.ArenaSpace
import GcLite.Admission
import GcLite.SizeArithmetic
import GcLite.PartitionIds
import GcLite.WeakCapacity
import GcLite.Derive
import GcLite.Tracing
import GcLite.Traverse
import GcLite.Threshold
import GcLite.NodeLayout
import GcLite.NodeLink
import GcLite.LinkedHeap
import GcLite.ArenaBytes
import GcLite.ArenaByteRuns
import GcLite.FloatingGarbage
import GcLite.Transparency
import GcLite.JointCycle
import GcLite.JointProgress
import GcLite.Lifetimes
import GcLite.PackedHead
import GcLite.PackedRuns
