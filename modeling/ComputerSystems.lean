import ComputerSystems.StateProgram
import ComputerSystems.ByteMemory
import ComputerSystems.NufsImage
import ComputerSystems.NufsInode
import ComputerSystems.NufsOwnership
import ComputerSystems.NufsResize
import ComputerSystems.NufsPath
import ComputerSystems.NufsDirectory
import ComputerSystems.NufsStorage
import ComputerSystems.NufsCalls
import ComputerSystems.NufsFailure
import ComputerSystems.NufsFrame
import ComputerSystems.NufsEntry
import ComputerSystems.NufsSound
import ComputerSystems.NufsIsolation
import ComputerSystems.NufsExhaustion
import ComputerSystems.NufsLeak
import ComputerSystems.PackedList
import ComputerSystems.KeyedList
import ComputerSystems.DirectoryTree
import ComputerSystems.NufsListing
import ComputerSystems.NufsMap
import ComputerSystems.NufsCatalog
import ComputerSystems.NufsNamespace
import ComputerSystems.NufsLifetime
import ComputerSystems.NufsRefinement
import ComputerSystems.UpdateSum
import ComputerSystems.TransitionSystem
import ComputerSystems.SortBarrier
import ComputerSystems.ByteFile
import ComputerSystems.SortInput
import ComputerSystems.SortOutput
import ComputerSystems.NufsContent
import ComputerSystems.NufsWrite
import ComputerSystems.NufsRead
import ComputerSystems.NufsAccounting
import ComputerSystems.NufsStored
import ComputerSystems.NufsGap
import ComputerSystems.NufsFolders
import ComputerSystems.NufsSettled
import ComputerSystems.NufsNames
import ComputerSystems.NufsSpill
import ComputerSystems.NufsReplace
import ComputerSystems.Xv6File
import ComputerSystems.Xv6IoStats
import ComputerSystems.Xv6Descriptors
import ComputerSystems.ShellTokens
import ComputerSystems.ProcessTree
import ComputerSystems.ShellExecute
import ComputerSystems.RangePartition
import ComputerSystems.SampleSort
import ComputerSystems.BlockList
import ComputerSystems.LinkedBlocks
import ComputerSystems.PagedHeap
import ComputerSystems.BlockHeap
import ComputerSystems.HeapMemory
import ComputerSystems.RoutedHeap
import ComputerSystems.OptMalloc
import ComputerSystems.HuskyMalloc
import ComputerSystems.HuskySizes
import ComputerSystems.HwxRealloc
import ComputerSystems.HwxFreeList
import ComputerSystems.SampleIndices
import ComputerSystems.StableSort
import ComputerSystems.LengthSort
import ComputerSystems.ArrayRange
import ComputerSystems.QuickSort
import ComputerSystems.BlockCover
import ComputerSystems.FreeListInsert
import ComputerSystems.NufsLookup
import ComputerSystems.NufsParent
import ComputerSystems.FreeListFit
import ComputerSystems.NufsSplit
import ComputerSystems.TopTriples
import ComputerSystems.ProcessCalls
import ComputerSystems.ShellStages
import ComputerSystems.ShellWords
import ComputerSystems.ShellBounds
import ComputerSystems.RedoLog
import ComputerSystems.Xv6Log
import ComputerSystems.Xv6LogHead
import ComputerSystems.Xv6LogInvariant
import ComputerSystems.Xv6LogRefinement
import ComputerSystems.Xv6LogProgress
import ComputerSystems.RingBuffer
import ComputerSystems.Xv6Pipe
import ComputerSystems.Xv6PipeInvariant
import ComputerSystems.Xv6PipeStream
import ComputerSystems.Xv6PipeSleep
import ComputerSystems.CollatzTasks
import ComputerSystems.CollatzResult
import ComputerSystems.CollatzProgress
import ComputerSystems.OrderedCycle
import ComputerSystems.Xv6Malloc
import ComputerSystems.Xv6MallocHeap
import ComputerSystems.Xv6MallocFree
import ComputerSystems.Xv6MallocRun
import ComputerSystems.Xv6MallocCalls
import ComputerSystems.LinkedRing
import ComputerSystems.LockedMemory
import ComputerSystems.Xv6Cache
import ComputerSystems.Xv6CacheList
import ComputerSystems.Xv6CacheInvariant
import ComputerSystems.Xv6CacheExclusion
import ComputerSystems.Xv6CachePanics
import ComputerSystems.Xv6CacheProgress
import ComputerSystems.Xv6CacheMemory
import ComputerSystems.Xv6Shell
import ComputerSystems.Xv6ShellParser
import ComputerSystems.Xv6ShellWords
import ComputerSystems.Xv6ShellTrees
import ComputerSystems.Xv6ShellLine
