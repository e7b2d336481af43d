import Gem5.Runs
import Gem5.Types
import Gem5.Rob
import Gem5.RobPartition
import Gem5.RegClass
import Gem5.RenameMap
import Gem5.RenameHistory
import Gem5.Counting
import Gem5.RenameSteps
import Gem5.InitialMap
import Gem5.RegisterConservation
import Gem5.ZeroReg
import Gem5.Ordered
import Gem5.RenameRollback
import Gem5.CircularQueue
import Gem5.LsqUnit
import Gem5.LsqPolicy
import Gem5.LsqAccess
import Gem5.StoreForwarding
import Gem5.LsqSteps
import Gem5.MemOrder
import Gem5.LinkedList
import Gem5.EventQueue
import Gem5.EventBins
import Gem5.EventAgenda
import Gem5.EventTime
import Gem5.Bitfield
import Gem5.AddrRange
import Gem5.Interleave
import Gem5.AddrRangeMerge
import Gem5.AddrRangeMap
import Gem5.RangeLookup
import Gem5.PacketQueue
import Gem5.PacketDelivery
import Gem5.PrefetchQueue
import Gem5.PrefetchTranslation
import Gem5.FetchPort
import Gem5.FetchSharing
import Gem5.TimeBuffer
import Gem5.ThreadRemoval
import Gem5.DispatchStage
import Gem5.DispatchProgress
import Gem5.MemCmd
import Gem5.Mshr
import Gem5.MshrTargets
import Gem5.MshrOrder
import Gem5.DecodeStage
import Gem5.DecodeOrder
import Gem5.VecModeSwitch
import Gem5.AbstractMemory
import Gem5.Reservations
import Gem5.XBarLayer
import Gem5.Bridge
import Gem5.RingIndex
import Gem5.VirtQueue
import Gem5.VirtQueueFifo
import Gem5.VirtCheckpoint
import Gem5.VirtTransfer
import Gem5.BPredUnit
import Gem5.RasRollback
import Gem5.DescCache
import Gem5.DescRing
import Gem5.RangeUnion
import Gem5.XBarRoutes
import Gem5.XBarAddressMap
import Gem5.WayPart
import Gem5.MissQueue
import Gem5.ReadyList
import Gem5.NextQueueEntry
import Gem5.DoublyLinked
import Gem5.FALRU
import Gem5.FALRUTracking
import Gem5.FALRUMoves
import Gem5.LruStack
import Gem5.FALRUContent
import Gem5.FALRUStats
import Gem5.SuperBlk
import Gem5.SuperBlkCapacity
import Gem5.ShiftRegister
import Gem5.SkewedAssociative
import Gem5.BitString
import Gem5.Huffman
import Gem5.DictionaryCompressor
import Gem5.Compressors
import Gem5.DictionaryBounds
import Gem5.FPCSize
import Gem5.MshrFlags
import Gem5.Loop
import Gem5.CommandBus
import Gem5.BitTree
import Gem5.TreePLRU
import Gem5.SectorTags
import Gem5.SectorConsistency
import Gem5.IewRedirect
import Gem5.SnoopFilter
import Gem5.SnoopTracking
import Gem5.FetchPolicy
import Gem5.Burst
import Gem5.FetchDelivery
import Gem5.SkidFits
import Gem5.PrefetchOrder
import Gem5.PrefetchFilter
import Gem5.MixedRadix
import Gem5.DramAddress
import Gem5.Binning
import Gem5.HistStor
import Gem5.HistGrowth
import Gem5.HistSamples
import Gem5.HistMerge
import Gem5.IntIndex
import Gem5.FoldedBits
import Gem5.TageHistory
import Gem5.TageFold
import Gem5.RubyCache
import Gem5.RubyIndex
import Gem5.TrimmedList
import Gem5.SimpleIndirect
import Gem5.IndirectHistory
import Gem5.PacketFifo
import Gem5.DropClasses
import Gem5.ChunkGenerator
import Gem5.DmaPort
import Gem5.DmaAtomic
import Gem5.DmaActions
import Gem5.DmaBackdoor
import Gem5.CircleBuf
import Gem5.DmaReadFifo
import Gem5.EtherPort
import Gem5.EtherSwitch
import Gem5.StoreSet
import Gem5.OldestReady
import Gem5.RobSquash
import Gem5.LsqCapacity
import Gem5.ReadyLists
import Gem5.DependencyGraph
import Gem5.InstQueue
import Gem5.IssueOrder
import Gem5.SlotAccounting
import Gem5.ChainExactness
import Gem5.FunctionalReads
import Gem5.PcapReplay
import Gem5.LoadGenerator
import Gem5.WideMul
import Gem5.EventCheckpoint
import Gem5.LegacyRange
import Gem5.RangeOffset
import Gem5.RangeSubset
import Gem5.CircleStream
import Gem5.CircularDeque
import Gem5.DelayLine
import Gem5.ChunkTiling
import Gem5.QueueEntries
import Gem5.LsqFrames
import Gem5.LsqPipeline
import Gem5.LsqRepresentation
import Gem5.LsqOperations
import Gem5.LsqWriteBack
import Gem5.LsqStalls
