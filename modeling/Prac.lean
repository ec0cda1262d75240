import Prac.RdpfKeygen
import Prac.CdpfCompare
import Prac.DuoramRead
import Prac.DuoramRun
import Prac.WideUpdate
import Prac.BasicSearch
import Prac.StreamLeaf
import Prac.KeygenThreads
import Prac.ScaledLeaf
import Prac.HeapRun
import Prac.CacheHeapify
import Prac.HeapSamplerReuse
import Prac.CdpfOnce
import Prac.Context
import Prac.LockStep
import Prac.TriplesMatched
import Prac.Slots
import Prac.SingleIoRun
import Prac.DpfFile
import Prac.BitonicSort
import Prac.Nesting
import Prac.MpcShares
import Prac.UnitVector
import Prac.FoundFlag
import Prac.AvlRotate
import Prac.AvlBudget
import Prac.AvlInitialize
import Prac.BstCapacity
import Prac.SharedHeapRun
import Prac.ParallelSort
import Prac.Independent
import Prac.PreprocStats
import Prac.StoredKeys
import Prac.TreeDictionary
import Prac.SharedBstRun
import Prac.LamportClock
