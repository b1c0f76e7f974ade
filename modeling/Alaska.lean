import Alaska.Lib.Run
import Alaska.Lib.Loop
import Alaska.Lib.Memory
import Alaska.Lib.ListHead
import Alaska.Lib.Chain
import Alaska.Lib.Ownership
import Alaska.Lib.Collect
import Alaska.Lib.CyclicBarrier
import Alaska.Lib.Rendezvous
import Alaska.Lib.Holes
import Alaska.Lib.BitScan
import Alaska.Lib.BoundedSearch
import Alaska.Lib.ForestOrder
import Alaska.Lib.ChaoticIteration
import Alaska.Lib.Liveness
import Alaska.Lib.FirstFit
import Alaska.Lib.Dominance
import Alaska.Lib.Intervals
import Alaska.Lib.DoublyLinked
import Alaska.Lib.CircularList
import Alaska.Lib.ByteString
import Alaska.Runtime.Mapping
import Alaska.Runtime.ShardedFreeList
import Alaska.Runtime.ConcurrentFreeList
import Alaska.Runtime.SizedAllocator
import Alaska.Runtime.SizeClass
import Alaska.Runtime.SizedPage
import Alaska.Runtime.SizedPageCompaction
import Alaska.Runtime.SizedPagePacking
import Alaska.Runtime.SizedPageRuns
import Alaska.Runtime.LocalityPage
import Alaska.Runtime.LocalityPageAllocs
import Alaska.Runtime.LocalityPageCompaction
import Alaska.Runtime.LocalityPageSlides
import Alaska.Runtime.LocalityPageRuns
import Alaska.Runtime.LocalityPagePasses
import Alaska.Runtime.Heap
import Alaska.Runtime.HeapPage
import Alaska.Runtime.HandleTable
import Alaska.Runtime.HugeObjectAllocator
import Alaska.Runtime.HugeObjectList
import Alaska.Runtime.ThreadCache
import Alaska.Runtime.HandleTableRuns
import Alaska.Runtime.PageOwners
import Alaska.Runtime.PageOwnerRuns
import Alaska.Runtime.Places
import Alaska.Runtime.Client
import Alaska.Runtime.Invariant
import Alaska.Runtime.HeapSteps
import Alaska.Runtime.MappingSteps
import Alaska.Runtime.HugeSteps
import Alaska.Runtime.RelocationSteps
import Alaska.Runtime.BackingSteps
import Alaska.Runtime.AllocationSteps
import Alaska.Runtime.ReallocationSteps
import Alaska.Runtime.LocalizationSteps
import Alaska.Runtime.ClientRuns
import Alaska.Runtime.HugeRuns
import Alaska.Runtime.Interface
import Alaska.Runtime.Progress
import Alaska.Runtime.BarrierMoves
import Alaska.Runtime.Liballoc
import Alaska.Runtime.LiballocSteps
import Alaska.Runtime.LiballocInvariant
import Alaska.Runtime.LiballocReleases
import Alaska.Runtime.LiballocRuns
import Alaska.Runtime.LiballocLimits
import Alaska.Runtime.HashTable
import Alaska.Runtime.HashTableRuns
import Alaska.Runtime.Magazine
import Alaska.Runtime.MagazineRuns
import Alaska.Runtime.HandleSlabQueue
import Alaska.Runtime.PageManager
import Alaska.Runtime.Stub
import Alaska.Runtime.Queue
import Alaska.Runtime.WalkStructure
import Alaska.Runtime.LocalizeStructure
import Alaska.Runtime.Translate
import Alaska.Runtime.Barrier
import Alaska.Runtime.BarrierTurns
import Alaska.Runtime.BarrierProtocol
import Alaska.Sim.Htlb
import Alaska.Sim.HtlbTransparency
import Alaska.Compiler.SimpleFunction
import Alaska.Compiler.PointerFlowGraph
import Alaska.Compiler.TranslationForest
import Alaska.Compiler.HoistedAddresses
import Alaska.Compiler.Cfg
import Alaska.Compiler.ReleasePlacement
import Alaska.Compiler.PinTracking
import Alaska.Compiler.PinnedTranslations
import Alaska.Compiler.PlaceSafepoints
import Alaska.Compiler.Types
import Alaska.Compiler.Graph
import Alaska.Compiler.TopologicalOrder
import Alaska.Compiler.TarjanScc
import Alaska.Compiler.Condensation
import Alaska.Compiler.AccessAutomata
import Alaska.Compiler.MemoryAccessOffsets
import Alaska.Compiler.LatticePoint
import Alaska.Compiler.OptimisticTypes
import Alaska.Compiler.TypeMetadata
import Alaska.Runtime.BarrierSignals
import Alaska.Runtime.BarrierTranslation
