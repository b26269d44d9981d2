import EquivChecker.VibeLock
import EquivChecker.SwitchPoints
import EquivChecker.Exploration
import EquivChecker.OrderEnumeration
import EquivChecker.StartQueue
import EquivChecker.ThreadPlaces
import EquivChecker.ScheduleFidelity
import EquivChecker.ScheduleReport
import EquivChecker.NullReads
import EquivChecker.Retrieval
import EquivChecker.SystemCalls
import EquivChecker.StaleTracker
import EquivChecker.SetRefinement
import EquivChecker.SharedMemory
import EquivChecker.SetForeach
import EquivChecker.Permutations
import EquivChecker.Verdict
import EquivChecker.SerialReference
import EquivChecker.SpinWait
import EquivChecker.DoublyLinked
import EquivChecker.Malloc
import EquivChecker.HeapLayout
import EquivChecker.FreeList
import EquivChecker.HeapStatistics
import EquivChecker.HeapBlocks
import EquivChecker.HeapCalls
import EquivChecker.HeapEffects
import EquivChecker.HeapSessions
import EquivChecker.HeapMoves
import EquivChecker.BestFit
import EquivChecker.PayloadAlignment
import EquivChecker.FreeListExactness
import EquivChecker.HeapValidation
import EquivChecker.HeapReads
import EquivChecker.SetSessions
import EquivChecker.SetInvariant
import EquivChecker.SetEnumeration
import EquivChecker.WordMixing
import EquivChecker.XXHash
import EquivChecker.MemoryHash
import EquivChecker.AtomicIncrement
import EquivChecker.TouchedBytes
import EquivChecker.BitFields
import EquivChecker.PageTable
import EquivChecker.ArmCore
import EquivChecker.FullExcept
import EquivChecker.BitSetters
import EquivChecker.DebugRegisters
import EquivChecker.KernelMap
import EquivChecker.DataFaults
import EquivChecker.TrapMachine
import EquivChecker.CircularArray
import EquivChecker.RingBuffer
import EquivChecker.RingBufferThreads
import EquivChecker.CircularQueue
import EquivChecker.CircularQueueThreads
import EquivChecker.LockedSections
import EquivChecker.AtomicStack
import EquivChecker.InterleavingVerdict
import EquivChecker.FoundConflicts
