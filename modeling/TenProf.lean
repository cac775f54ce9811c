import TenProf.Library.OrderedMap
import TenProf.Library.NestedMap
import TenProf.Library.Runs
import TenProf.Library.Loops
import TenProf.Library.While
import TenProf.Library.Intervals
import TenProf.Library.Bytes
import TenProf.Library.Forest
import TenProf.Library.Strided
import TenProf.Library.Bisect
import TenProf.Library.Predecessor
import TenProf.Library.BubbleSort
import TenProf.Library.Counts
import TenProf.Library.PriorityQueue
import TenProf.Library.Bitonic
import TenProf.Library.Clusters
import TenProf.Library.Scan
import TenProf.Library.Sweep
import TenProf.Library.ChainedHash
import TenProf.Library.Levels
import TenProf.Library.LockOrder
import TenProf.Library.Matching
import TenProf.Words
import TenProf.TorchMonitor.Callback
import TenProf.Operation.Memory
import TenProf.Operation.MergeMemoryRange
import TenProf.Operation.Memcpy
import TenProf.Common.Graph
import TenProf.Common.Hash
import TenProf.Common.Digest
import TenProf.Binutils.Symbol
import TenProf.Binutils.Instruction
import TenProf.Binutils.SearchFrame
import TenProf.Binutils.Walk
import TenProf.Binutils.AccessKinds
import TenProf.Binutils.Dependencies
import TenProf.Binutils.SearchRuns
import TenProf.Binutils.SearchAlone
import TenProf.Binutils.Caching
import TenProf.DataFlow.State
import TenProf.DataFlow.Kernel
import TenProf.DataFlow.Callbacks
import TenProf.DataFlow.Dump
import TenProf.DataFlow.LastWriter
import TenProf.DataFlow.NodeHash
import TenProf.DataFlow.Shadow
import TenProf.DataFlow.Metrics
import TenProf.DataFlow.Duplicate
import TenProf.DataFlow.ContentHash
import TenProf.GpuPatch.Search
import TenProf.GpuPatch.AuxTorchview
import TenProf.GpuPatch.AddressDict
import TenProf.GpuPatch.AuxPatch
import TenProf.GpuPatch.Queue
import TenProf.GpuPatch.QueueInvariant
import TenProf.GpuPatch.QueueSafety
import TenProf.GpuAnalysis.Cub
import TenProf.GpuAnalysis.IntervalMergeImpl
import TenProf.GpuAnalysis.IntervalMerge
import TenProf.GpuAnalysis.Warp
import TenProf.GpuAnalysis.IntervalCompact
import TenProf.MemoryLiveness.DependencyGraph
import TenProf.MemoryLiveness.State
import TenProf.MemoryLiveness.Builders
import TenProf.MemoryLiveness.Accesses
import TenProf.MemoryLiveness.Callbacks
import TenProf.MemoryLiveness.Acyclic
import TenProf.MemoryLiveness.Ordering
import TenProf.MemoryLiveness.Marks
import TenProf.MemoryLiveness.BuiltGraph
import TenProf.MemoryLiveness.Rounds
import TenProf.MemoryLiveness.Schedule
import TenProf.MemoryLiveness.SizeList
import TenProf.MemoryProfile.State
import TenProf.MemoryProfile.Chunks
import TenProf.MemoryProfile.Accesses
import TenProf.MemoryProfile.Objects
import TenProf.MemoryProfile.Kernels
import TenProf.MemoryProfile.Gaps
import TenProf.MemoryProfile.Fragmentation
import TenProf.MemoryProfile.Report
import TenProf.Redshow.MemorySnapshot
import TenProf.Redshow.Arrival
import TenProf.Redshow.MemoryQuery
import TenProf.Redshow.AnalysisEnd
import TenProf.Redshow.AddressAnalysis
import TenProf.Redshow.AddressPatch
import TenProf.Redshow.CompactedTrace
import TenProf.TorchMonitor.Analysis
import TenProf.TorchMonitor.Profiler
import TenProf.TorchMonitor.NestedLevel
import TenProf.Redshow.LiveObjects
import TenProf.Redshow.Agreement
import TenProf.Redshow.KernelPeak
import TenProf.Redshow.Session
import TenProf.Redshow.CubinRegister
import TenProf.TorchView.State
import TenProf.TorchView.PcRangeMap
import TenProf.TorchView.ViewLookup
import TenProf.TorchView.Strides
import TenProf.TorchView.Forest
import TenProf.TorchView.Snapshot
import TenProf.TorchView.Kernel
import TenProf.TorchView.Callback
import TenProf.TorchView.SortStrides
import TenProf.TorchView.Frames
import TenProf.TorchView.Update
import TenProf.TorchView.Delete
import TenProf.TorchView.Invariant
import TenProf.TorchView.Exactness
import TenProf.TorchView.Coverage
import TenProf.TorchView.RootSearch
import TenProf.TorchView.Footprint
import TenProf.TorchView.Free
import TenProf.TorchView.DeleteLoop
import TenProf.TorchView.Context
import TenProf.TorchView.WellFormed
import TenProf.TorchView.Liveness
import TenProf.TorchView.Attribution
import TenProf.TorchView.DelayedAccess
import TenProf.TorchView.DelayedLookup
import TenProf.TorchView.AccessLog
import TenProf.TorchView.DeadWrites
import TenProf.TorchView.WriteFlags
import TenProf.TorchView.AtenCopy
import TenProf.TorchView.Insertion
import TenProf.TorchView.History
import TenProf.TorchView.InputCache
import TenProf.TorchView.Threads
import TenProf.ValuePattern.TypeOveruse
import TenProf.Operation.ThreadAccess
import TenProf.Redundancy.Temporal
import TenProf.Redundancy.Record
import TenProf.Redundancy.Details
import TenProf.TorchMonitor.PythonStates
import TenProf.ValuePattern.UnitAccess
import TenProf.ValuePattern.FloatOveruse
import TenProf.MemoryHeatmap.UnitAccess
import TenProf.MemoryLiveness.SubMemories
import TenProf.GpuPatch.HostSearch
import TenProf.TorchView.LocalSearch
import TenProf.Common.Path
import TenProf.ValuePattern.Approximation
import TenProf.Library.CString
import TenProf.TorchView.FunctionName
import TenProf.TorchView.StateHash
import TenProf.TorchView.Capacity
import TenProf.Redshow.DefaultTrace
import TenProf.Redshow.CubinCache
import TenProf.Redshow.Locks
import TenProf.GpuPatch.DefaultPatch
import TenProf.GpuPatch.QueueAccounts
import TenProf.GpuPatch.QueueProgress
import TenProf.GpuPatch.AddressPatch
import TenProf.GpuPatch.AddressAccounts
import TenProf.GpuAnalysis.Rounds
import TenProf.Redshow.RecordPath
import TenProf.Redshow.AnalysisPath
