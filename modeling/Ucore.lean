import Ucore.Library.Ring
import Ucore.Library.Holders
import Ucore.Vm.PageEntry
import Ucore.Vm.PageTable
import Ucore.Vm.PageSlots
import Ucore.Vm.RefCount
import Ucore.Vm.PageOps
import Ucore.Vm.PageView
import Ucore.Vm.RangeOps
import Ucore.Vm.Vma
import Ucore.Library.Run
import Ucore.Vm.RefRuns
import Ucore.Vm.ExitRange
import Ucore.Vm.Fork
import Ucore.Vm.Cow
import Ucore.Vm.CowRefinement
import Ucore.Vm.TableScan
import Ucore.Vm.PartialFork
import Ucore.Library.Sweep
import Ucore.Vm.Teardown
import Ucore.Library.Tiling
import Ucore.Libs.ListH
import Ucore.Pmm.Pages
import Ucore.Pmm.DefaultPmm
import Ucore.Pmm.DefaultPmmOwnership
import Ucore.Library.Buddies
import Ucore.Pmm.BuddyPmm
import Ucore.Pmm.BuddyShape
import Ucore.Pmm.BuddyRequests
import Ucore.Pmm.BuddyOwnership
import Ucore.Pmm.BuddyCuts
import Ucore.Library.Call
import Ucore.Libs.Defs
import Ucore.Fs.Bitmap
import Ucore.Fs.Sfs
import Ucore.Fs.SfsInode
import Ucore.Library.Ledger
import Ucore.Library.Trace
import Ucore.Library.Pool
import Ucore.Fs.SfsOwners
import Ucore.Fs.SfsBlocks
import Ucore.Fs.SfsMap
import Ucore.Fs.Mount
import Ucore.Tools.Mksfs
import Ucore.Tools.ImageMount
import Ucore.Library.Tally
import Ucore.Fs.InodeCache
import Ucore.Fs.InodeReclaim
import Ucore.Process.Pgdir
import Ucore.Process.PgdirRuns
import Ucore.Process.GetPid
import Ucore.Vfs.Inode
import Ucore.Vfs.FileTable
import Ucore.Vfs.InodeCounts
import Ucore.Vfs.RefCounts
import Ucore.Vfs.OpenFiles
import Ucore.Vfs.RefCountRuns
import Ucore.Vm.UserMem
import Ucore.Vm.LoadIcode
import Ucore.Vm.KernelStore
import Ucore.Library.Window
import Ucore.Sync.Wait
import Ucore.Library.Headcount
import Ucore.Devs.Stdin
import Ucore.Sync.Sem
import Ucore.Sync.SemRuns
import Ucore.Sync.Monitor
import Ucore.Sync.MonitorRuns
import Ucore.Sync.PhiSema
import Ucore.Sync.PhiCondvar
import Ucore.Library.RingFamily
import Ucore.Library.Chain
import Ucore.Dou.Slub
import Ucore.Dou.SlabPages
import Ucore.Dou.SlubShape
import Ucore.Dou.SlubKmalloc
import Ucore.Dou.SlubKfree
import Ucore.Dou.SlubRuns
import Ucore.Dou.BuddyPmm
import Ucore.Dou.BuddyShape
import Ucore.Dou.BuddyRequests
import Ucore.Dou.BuddyInit
import Ucore.Dou.BuddyRuns
import Ucore.Dou.BuddyRestore
import Ucore.Dou.BestFitPmm
import Ucore.Dou.BuddyReach
import Ucore.Library.LinkedTree
import Ucore.Libs.SkewHeap
import Ucore.Libs.SkewHeapOrder
import Ucore.Schedule.Stride
import Ucore.Schedule.StridePool
import Ucore.Schedule.StrideShape
import Ucore.Schedule.StrideWindow
import Ucore.Schedule.StrideRuns
import Ucore.Schedule.StrideShare
import Ucore.Vfs.TableFrame
import Ucore.Process.FilesLife
import Ucore.Process.FilesLifeRuns
import Ucore.Library.DeltaList
import Ucore.Library.Around
import Ucore.Library.Circle
import Ucore.Schedule.Timer
import Ucore.Schedule.TimerRuns
import Ucore.Schedule.RoundRobin
import Ucore.Schedule.RoundRobinRuns
import Ucore.Vm.MapRequests
import Ucore.Vm.InitialMemory
import Ucore.Fs.SfsLoad
import Ucore.Fs.SfsTruncate
import Ucore.Fs.SfsImage
import Ucore.Fs.TruncateFailure
import Ucore.Fs.BlockMapFailure
import Ucore.Fs.SfsContent
import Ucore.Fs.SfsIo
import Ucore.Fs.SfsWrite
import Ucore.Fs.FileLimits
import Ucore.Fs.FileBytes
import Ucore.Fs.FreeMap
import Ucore.Fs.BitmapRuns
import Ucore.Fs.InodeSync
import Ucore.Fs.TruncateZeros
import Ucore.Vfs.DirTree
import Ucore.Vfs.TreeStore
import Ucore.Vfs.PathLookup
import Ucore.Vfs.Namefile
import Ucore.Vfs.OpenSafe
import Ucore.Vfs.SysOpen
import Ucore.Vfs.World
import Ucore.Vfs.OpenContent
import Ucore.Vm.UserAccess
import Ucore.Vm.CopyString
import Ucore.Schedule.StrideClass
import Ucore.Schedule.StrideBypass
import Ucore.Schedule.QueueOrder
import Ucore.Vm.ElfBinary
import Ucore.Vm.ElfReads
import Ucore.Vm.SegmentContent
import Ucore.Vfs.SysRead
import Ucore.Exec.SymbolScan
import Ucore.Mm.Slob
import Ucore.Mm.SlobList
import Ucore.Mm.SlobTiles
import Ucore.Mm.SlobAlloc
import Ucore.Mm.KmallocRuns
import Ucore.Fs.WriteBackRuns
import Ucore.Vfs.SharedFile
import Ucore.Vfs.SharedFileCalls
import Ucore.Vfs.SharedFileRuns
import Ucore.Process.WaitRuns
import Ucore.Vfs.SharedTableRuns
import Ucore.Process.TimeSlices
import Ucore.Devs.DiskRuns
import Ucore.Fs.SyncRuns
import Ucore.Tools.ImageWalk
import Ucore.Exec.Execve
import Ucore.Vfs.DevList
