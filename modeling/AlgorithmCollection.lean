import AlgorithmCollection.Queue.CASLockFreeQueueFifo
import AlgorithmCollection.Queue.LLSCLockFreeQueueAlone
import AlgorithmCollection.Queue.LLSCLockFreeQueueVersions
import AlgorithmCollection.Queue.CASLockFreeQueueProgress
import AlgorithmCollection.List.FineGrainedSynchroListMap
import AlgorithmCollection.List.LazySynchroListMap
import AlgorithmCollection.List.LazySkiplistMap
import AlgorithmCollection.List.SkiplistMap
import AlgorithmCollection.List.LockFreeListFlags
import AlgorithmCollection.List.FineGrainedSynchroListLocks
import AlgorithmCollection.List.LazySkiplistLocks
import AlgorithmCollection.List.LockFreeSkiplistIndex
import AlgorithmCollection.List.CoarseGrainedSynchroList
import AlgorithmCollection.List.NonBlockingListCalls
import AlgorithmCollection.List.NonBlockingListSearch
import AlgorithmCollection.List.LockFreeSkiplistFind
import AlgorithmCollection.List.LazySynchroListLocks
import AlgorithmCollection.Hash.StripedHashLookup
import AlgorithmCollection.Hash.StripedHashRetire
import AlgorithmCollection.Hash.FailedResize
import AlgorithmCollection.Hash.HashCodes
import AlgorithmCollection.Hash.OpenAddressHashLoad
import AlgorithmCollection.Hash.CuckooHashNests
import AlgorithmCollection.Hash.AbsentDelete
import AlgorithmCollection.Hash.ConcurrentCuckooHashDeadlock
import AlgorithmCollection.Hash.ConcurrentCuckooHashGrowth
