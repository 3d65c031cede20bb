import Enigma.Foundation.SortedMap
import Enigma.Foundation.Layers
import Enigma.Foundation.FaultLogic
import Enigma.Foundation.ByteBuffer
import Enigma.Foundation.PriorityQueue
import Enigma.Foundation.OrderedCode
import Enigma.Foundation.ShiftRegister
import Enigma.Foundation.TiedSort
import Enigma.Foundation.GreedyRuns
import Enigma.Foundation.IntrusiveRing
import Enigma.Foundation.ChainedTable
import Enigma.Foundation.ThreadedChains
import Enigma.Foundation.RingBuffer
import Enigma.Foundation.Interleaving
import Enigma.Catalog.KeyEncoding
import Enigma.Codec.Corruption
import Enigma.Storage.Memtable
import Enigma.Storage.ByteAccounting
import Enigma.Io.PosixIoEngine
import Enigma.Clock.ClockReadings
import Enigma.Log.SinkProgress
import Enigma.Log.RingInOrder
import Enigma.Wal.Segment
import Enigma.Wal.RecordAccess
import Enigma.Wal.TornSegment
import Enigma.SSTable.PointLookup
import Enigma.SSTable.MalformedFiles
import Enigma.Compaction.Policy
import Enigma.Compaction.SizeTiered
import Enigma.Compaction.MergeInvariant
import Enigma.Compaction.MergePointers
import Enigma.Cache.Contract
import Enigma.Cache.Eviction
import Enigma.Cache.MapRefinement
import Enigma.Engine.ClientRuns
import Enigma.Engine.CompactionCompleteness
import Enigma.Engine.CrashRecovery
import Enigma.Engine.FailedCalls
import Enigma.Engine.CompactionFaults
import Enigma.Engine.FailedUnlinks
import Enigma.Engine.InterruptedWork
import Enigma.Engine.Openable
import Enigma.Engine.PinnedVersions
import Enigma.Engine.RacingCompactions
import Enigma.Engine.LostRaces
import Enigma.Engine.Lifetimes
import Enigma.Engine.WalRotation
import Enigma.Engine.FreshSequences
import Enigma.Engine.FailedWrites
import Enigma.Engine.RecoveredMemory
import Enigma.Engine.ReadErrors
import Enigma.Engine.SnapshotReads
import Enigma.Engine.Discovery
