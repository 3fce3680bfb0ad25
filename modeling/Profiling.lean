import Profiling.Machine
import Profiling.Cyclic
import Profiling.Memory
import Profiling.Chain
import Profiling.Buckets
import Profiling.Tally
import Profiling.Runs
import Profiling.Lru
import Profiling.Ledger
import Profiling.ListHead
import Profiling.Perf.Ring
import Profiling.Perf.Termination
import Profiling.Sample
import Profiling.Sample.Bounds
import Profiling.CString
import Profiling.Hex
import Profiling.Snprintf
import Profiling.SqlLiteral
import Profiling.QueryString
import Profiling.Glob
import Profiling.Scanf
import Profiling.Scanf.Line
import Profiling.Config
import Profiling.Config.Options
import Profiling.Perf.Init
import Profiling.Perf.Ownership
import Profiling.Perf.MainLoop
import Profiling.Queue
import Profiling.Queue.Fifo
import Profiling.Queue.Wakeup
import Profiling.Mempool
import Profiling.Mempool.Ownership
import Profiling.Mempool.Destroy
import Profiling.Dispatch
import Profiling.Sample.Leftover
import Profiling.RbTree
import Profiling.RbTree.Balance
import Profiling.RbTree.Erase
import Profiling.RbTree.Rebalance
import Profiling.RbTree.Height
import Profiling.RbTree.Heap
import Profiling.RbTree.Heap.Insert
import Profiling.RbTree.Heap.Erase
import Profiling.RbTree.Heap.Walk
import Profiling.RbTree.Heap.Run
import Profiling.Elf.Symbols
import Profiling.Elf.Symbols.Malformed
import Profiling.Elf.Overlap
import Profiling.Elf.Vma
import Profiling.Elf.Vma.Search
import Profiling.Elf.Vma.Maps
import Profiling.Elf.Address
import Profiling.Elf.BuildId
import Profiling.Process
import Profiling.Process.StartTime
import Profiling.Process.Lifetime
import Profiling.Process.Links
import Profiling.Process.Creation
import Profiling.Database.Sqlite
import Profiling.Database.Writer
import Profiling.Database.Handle
import Profiling.Database.Pipeline
import Profiling.Database.Drain
import Profiling.Database.Capacity
import Profiling.Database.Batching
import Profiling.Database.Release
import Profiling.Profiler
import Profiling.Profiler.Settle
import Profiling.Elf.Cache
import Profiling.Elf.BlockCache
import Profiling.Elf.BlockCache.Index
import Profiling.Elf.BlockCache.Calls
import Profiling.Elf.BlockCache.Lru
import Profiling.Elf.BlockCache.Heap
import Profiling.Elf.BlockCache.Refinement
import Profiling.Elf.BlockCache.Freeing
import Profiling.Symbolize
import Profiling.Symbolize.Kallsyms
import Profiling.Symbolize.Fields
import Profiling.Symbolize.Room
import Profiling.Symbolize.References
import Profiling.Symbolize.Frames
import Profiling.Symbolize.Stack
import Profiling.Symbolize.Recycle
import Profiling.Symbolize.Display
import Profiling.Query
import Profiling.Query.Hours
import Profiling.Query.Command
import Profiling.Query.Sql
import Profiling.Query.Historical
import Profiling.Query.Url
import Profiling.Query.Live
import Profiling.Query.Sums
import Profiling.Query.Agreement
import Profiling.SmartQuery
import Profiling.Flamegraph
import Profiling.Flamegraph.Blocks
import Profiling.Flamegraph.Picture
import Profiling.Flamegraph.Drawing
import Profiling.SmartQuery.Flame
