import Leetcode.Lib.CString
import Leetcode.Lib.Words
import Leetcode.Lib.Scan
import Leetcode.Lib.Interleave
import Leetcode.Lib.Run
import Leetcode.Lib.Trace
import Leetcode.Lib.Linear
import Leetcode.Lib.Tally
import Leetcode.Lib.Cycle
import Leetcode.Lib.Ring
import Leetcode.Lib.Chain
import Leetcode.Lib.Exchange
import Leetcode.Lib.PtrTree
import Leetcode.Lib.RedBlack
import Leetcode.Lib.Inorder
import Leetcode.Lib.Rotation
import Leetcode.Lib.Rank
import Leetcode.Lib.Pairs
import Leetcode.Lib.Fenwick
import Leetcode.Lib.SearchTree
import Leetcode.Lib.CArray
import Leetcode.Lib.Loop
import Leetcode.Lib.CInt
import Leetcode.Lib.MonoQueue
import Leetcode.Lib.CommonSublist
import Leetcode.Lib.Brackets
import Leetcode.Lib.BalancedTree
import Leetcode.Lib.Qsort
import Leetcode.Lib.File
import Leetcode.Lib.Heap
import Leetcode.Lib.Mutex
import Leetcode.Wal.Model
import Leetcode.Wal.Replay
import Leetcode.Wal.Records
import Leetcode.Wal.Crash
import Leetcode.Wal.Recovery
import Leetcode.Wal.Concurrent
import Leetcode.Wal.TornTail
import Leetcode.Wal.Framing
import Leetcode.Mvcc.Model
import Leetcode.Mvcc.History
import Leetcode.Mvcc.Snapshot
import Leetcode.Mvcc.Reuse
import Leetcode.Mvcc.LockPeriods
import Leetcode.Mvcc.Serial
import Leetcode.Mvcc.Detect
import Leetcode.Mvcc.Deadlock
import Leetcode.Mvcc.Isolation
import Leetcode.Mvcc.Erase
import Leetcode.ThirdMax.Model
import Leetcode.ThirdMax.Fix
import Leetcode.ThirdMax.Refine
import Leetcode.ThirdMax.Insert
import Leetcode.ThirdMax.Valid
import Leetcode.ThirdMax.Order
import Leetcode.ThirdMax.Third
import Leetcode.ThirdMax.Safe
import Leetcode.ThirdMax.Rotation
import Leetcode.MedianFinder.Model
import Leetcode.MedianFinder.Fix
import Leetcode.MedianFinder.Refine
import Leetcode.MedianFinder.Insert
import Leetcode.MedianFinder.Median
import Leetcode.MedianFinder.Rotation
import Leetcode.Rotations
import Leetcode.LruCache.Model
import Leetcode.LruCache.Rep
import Leetcode.LruCache.Refine
import Leetcode.LruCache.Range
import Leetcode.SkipList.Model
import Leetcode.SkipList.Rep
import Leetcode.SkipList.Refine
import Leetcode.SkipList.Levels
import Leetcode.HashMap.Model
import Leetcode.HashMap.Refine
import Leetcode.HashMap.Ownership
import Leetcode.HashMap.Contents
import Leetcode.HashMap.Concurrent
import Leetcode.HashMap.Guarded
import Leetcode.HashMap.Steps
import Leetcode.HashMap.Atomic
import Leetcode.HashMap.Progress
import Leetcode.BoundedQueue.Model
import Leetcode.BoundedQueue.Lock
import Leetcode.BoundedQueue.Queue
import Leetcode.BoundedQueue.Wakeup
import Leetcode.BoundedQueue.Return
import Leetcode.WordCount.Model
import Leetcode.WordCount.Chunks
import Leetcode.WordCount.Parallel
import Leetcode.FileMerge.Model
import Leetcode.FileMerge.Complete
import Leetcode.CopyFile.Model
import Leetcode.CopyFile.Exact
import Leetcode.MemAllocator.Model
import Leetcode.MemAllocator.FirstFit
import Leetcode.MemAllocator.Live
import Leetcode.TinyUrl.Model
import Leetcode.TinyUrl.Issued
import Leetcode.TinyUrl.Accepted
import Leetcode.BenchCounter.Model
import Leetcode.BenchCounter.Total
import Leetcode.GroupAnagrams.Model
import Leetcode.GroupAnagrams.Exact
import Leetcode.GroupAnagrams.SortString
import Leetcode.RangeSum.Model
import Leetcode.RangeSum.Merge
import Leetcode.RangeSum.Count
import Leetcode.CreateSorted.Model
import Leetcode.CreateSorted.Cost
import Leetcode.CreateSorted.Prefix
import Leetcode.CountSmaller.Model
import Leetcode.CountSmaller.Exact
import Leetcode.SlidingWindow.Model
import Leetcode.SlidingWindow.Maximum
import Leetcode.CommonSubsequence.Model
import Leetcode.CommonSubsequence.Exact
import Leetcode.Bst.Model
import Leetcode.Bst.Delete
import Leetcode.Brackets.Model
import Leetcode.Brackets.Exact
import Leetcode.Traversal.Model
import Leetcode.Traversal.Exact
import Leetcode.TwoSum.Model
import Leetcode.TwoSum.Exact
import Leetcode.Duplicates.Model
import Leetcode.Duplicates.Exact
import Leetcode.ListToBst.Model
import Leetcode.ListToBst.Balanced
import Leetcode.Rebalance.Model
import Leetcode.Rebalance.Balanced
import Leetcode.HashMap.Schedules
import Leetcode.HashMap.Destroy
import Leetcode.HashMap.Program
import Leetcode.BoundedQueue.Progress
import Leetcode.Wal.Program
import Leetcode.SharedCounter.Model
import Leetcode.SharedCounter.Total
import Leetcode.SharedCounter.Progress
import Leetcode.BenchCounter.Progress
import Leetcode.FileMerge.Cleanup
import Leetcode.LruCache.Memory
import Leetcode.SkipList.Memory
import Leetcode.MedianFinder.Memory
import Leetcode.KeywordSearch.Exact
import Leetcode.Bst.Memory
import Leetcode.Bst.Balance
import Leetcode.Bst.Session
import Leetcode.AsyncIo.Outcome
import Leetcode.IoBench.Report
import Leetcode.IoBench.Success
import Leetcode.MiddleNode.Exact
import Leetcode.UniqueChar.Exact
import Leetcode.BinaryTrees.Depth
import Leetcode.WordCount.Schedule
import Leetcode.Mvcc.Capacity
