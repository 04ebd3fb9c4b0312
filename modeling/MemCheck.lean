import MemCheck.Activations
import MemCheck.BlockLookup
import MemCheck.Bootmem
import MemCheck.CacheInvariant
import MemCheck.CacheLayout
import MemCheck.CacheLinking
import MemCheck.CodeBitmap
import MemCheck.CodeCache
import MemCheck.CodeFetch
import MemCheck.CodeInvalidation
import MemCheck.Coherence
import MemCheck.CoherentStores
import MemCheck.DebuggerReads
import MemCheck.Dispatch
import MemCheck.EmulatorRuns
import MemCheck.Exactness
import MemCheck.FlagExposure
import MemCheck.FlagLiveness
import MemCheck.FreshCode
import MemCheck.GuestCalls
import MemCheck.GuestLoads
import MemCheck.GuestMemory
import MemCheck.GuestStores
import MemCheck.HookTable
import MemCheck.IndependentBlocks
import MemCheck.InitPages
import MemCheck.Interceptor
import MemCheck.IntervalSearch
import MemCheck.KernelInit
import MemCheck.Lib.BackwardPass
import MemCheck.Lib.Bytes
import MemCheck.Lib.Extents
import MemCheck.Lib.FlatCode
import MemCheck.Lib.IntervalTree
import MemCheck.Lib.LinkedCells
import MemCheck.Lib.LongJump
import MemCheck.Lib.Run
import MemCheck.Lib.Scan
import MemCheck.Lib.SearchTree
import MemCheck.Lib.Stream
import MemCheck.Lib.Writes
import MemCheck.LoadedBytes
import MemCheck.MalformedFiles
import MemCheck.MemoryAccess
import MemCheck.MicroOps
import MemCheck.PageMapping
import MemCheck.PageTables
import MemCheck.PageWalk
import MemCheck.PhysAccess
import MemCheck.Placement
import MemCheck.Recursion
import MemCheck.Registration
import MemCheck.Registry
import MemCheck.Release
import MemCheck.ShadowInvariant
import MemCheck.ShadowMemory
import MemCheck.ShadowRuns
import MemCheck.ShadowSpec
import MemCheck.SoftMmu
import MemCheck.StackTrace
import MemCheck.SymbolTable
import MemCheck.TlbInvariant
import MemCheck.Translate
import MemCheck.Unchaining
