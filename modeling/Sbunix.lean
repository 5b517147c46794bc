import Sbunix.Misc.Attempt
import Sbunix.Misc.BackLinks
import Sbunix.Misc.BumpRing
import Sbunix.Misc.ByteMemory
import Sbunix.Misc.ByteRuns
import Sbunix.Misc.Bytes
import Sbunix.Misc.Chain
import Sbunix.Misc.ChainFamily
import Sbunix.Misc.CharBuffer
import Sbunix.Misc.Digits
import Sbunix.Misc.Fibre
import Sbunix.Misc.Lines
import Sbunix.Misc.Numeral
import Sbunix.Misc.Polling
import Sbunix.Misc.PrefixFirst
import Sbunix.Misc.Reach
import Sbunix.Misc.RegisterStack
import Sbunix.Misc.Reversal
import Sbunix.Misc.Ring
import Sbunix.Misc.Roll
import Sbunix.Misc.RootedTree
import Sbunix.Misc.Runs
import Sbunix.Misc.Simulation
import Sbunix.Misc.TableForest
import Sbunix.Sys.AddressSpace
import Sbunix.Sys.Archive
import Sbunix.Sys.BackgroundChildren
import Sbunix.Sys.Boot
import Sbunix.Sys.Chdir
import Sbunix.Sys.Context
import Sbunix.Sys.CowRun
import Sbunix.Sys.CurrentDir
import Sbunix.Sys.Dialogue
import Sbunix.Sys.Dirs
import Sbunix.Sys.Elf
import Sbunix.Sys.ExecArgs
import Sbunix.Sys.ExecSegments
import Sbunix.Sys.ExitHistory
import Sbunix.Sys.Files
import Sbunix.Sys.Heap
import Sbunix.Sys.IsrWrapper
import Sbunix.Sys.KernHeap
import Sbunix.Sys.KeyboardMap
import Sbunix.Sys.Kill
import Sbunix.Sys.Kprintf
import Sbunix.Sys.Mmap
import Sbunix.Sys.OctToDec
import Sbunix.Sys.Output
import Sbunix.Sys.PageRun
import Sbunix.Sys.PageTree
import Sbunix.Sys.Paging
import Sbunix.Sys.Paper
import Sbunix.Sys.PathSearch
import Sbunix.Sys.PhyMemManager
import Sbunix.Sys.PrintNumber
import Sbunix.Sys.ProcRun
import Sbunix.Sys.Process
import Sbunix.Sys.Programs
import Sbunix.Sys.Proofs.AbsolutePath
import Sbunix.Sys.Proofs.ArchiveLookup
import Sbunix.Sys.Proofs.ArchiveOrder
import Sbunix.Sys.Proofs.BackgroundChildren
import Sbunix.Sys.Proofs.BootList
import Sbunix.Sys.Proofs.BootTables
import Sbunix.Sys.Proofs.ChdirRuns
import Sbunix.Sys.Proofs.Components
import Sbunix.Sys.Proofs.Context
import Sbunix.Sys.Proofs.ContextCalls
import Sbunix.Sys.Proofs.ContextCreation
import Sbunix.Sys.Proofs.ContextFrames
import Sbunix.Sys.Proofs.ContextPossible
import Sbunix.Sys.Proofs.ContextResumes
import Sbunix.Sys.Proofs.ContextRuns
import Sbunix.Sys.Proofs.CowOps
import Sbunix.Sys.Proofs.CreateSpace
import Sbunix.Sys.Proofs.Creation
import Sbunix.Sys.Proofs.CurrentSpace
import Sbunix.Sys.Proofs.Dialogue
import Sbunix.Sys.Proofs.DirBuffer
import Sbunix.Sys.Proofs.DirRuns
import Sbunix.Sys.Proofs.DispatchOrder
import Sbunix.Sys.Proofs.Echo
import Sbunix.Sys.Proofs.ElfHeaders
import Sbunix.Sys.Proofs.ElfSegments
import Sbunix.Sys.Proofs.ExactPaths
import Sbunix.Sys.Proofs.ExecArgs
import Sbunix.Sys.Proofs.ExecSegments
import Sbunix.Sys.Proofs.FaultPages
import Sbunix.Sys.Proofs.FileBounds
import Sbunix.Sys.Proofs.FileStreams
import Sbunix.Sys.Proofs.FirstProcess
import Sbunix.Sys.Proofs.ForkIsolation
import Sbunix.Sys.Proofs.ForkMap
import Sbunix.Sys.Proofs.ForkPages
import Sbunix.Sys.Proofs.FrameCounts
import Sbunix.Sys.Proofs.FreeBlocks
import Sbunix.Sys.Proofs.FreshPages
import Sbunix.Sys.Proofs.FullDirectory
import Sbunix.Sys.Proofs.HeapPlaces
import Sbunix.Sys.Proofs.HeapRuns
import Sbunix.Sys.Proofs.InodeTree
import Sbunix.Sys.Proofs.InsertRuns
import Sbunix.Sys.Proofs.IsrWrapper
import Sbunix.Sys.Proofs.KernHeap
import Sbunix.Sys.Proofs.KernelStacks
import Sbunix.Sys.Proofs.KeyRelease
import Sbunix.Sys.Proofs.KillFrame
import Sbunix.Sys.Proofs.KillQueue
import Sbunix.Sys.Proofs.KillTeardown
import Sbunix.Sys.Proofs.LeafCounts
import Sbunix.Sys.Proofs.LeafOps
import Sbunix.Sys.Proofs.LeafWord
import Sbunix.Sys.Proofs.LineInput
import Sbunix.Sys.Proofs.Listing
import Sbunix.Sys.Proofs.Lookup
import Sbunix.Sys.Proofs.LostFrames
import Sbunix.Sys.Proofs.Mmap
import Sbunix.Sys.Proofs.Mmu
import Sbunix.Sys.Proofs.NullReads
import Sbunix.Sys.Proofs.OctToDec
import Sbunix.Sys.Proofs.OneMapping
import Sbunix.Sys.Proofs.Output
import Sbunix.Sys.Proofs.PageRuns
import Sbunix.Sys.Proofs.PageTree
import Sbunix.Sys.Proofs.Paper
import Sbunix.Sys.Proofs.PathSearch
import Sbunix.Sys.Proofs.PrintNumber
import Sbunix.Sys.Proofs.ProcIdentity
import Sbunix.Sys.Proofs.ProcInvariant
import Sbunix.Sys.Proofs.ProcRuns
import Sbunix.Sys.Proofs.ProcStep
import Sbunix.Sys.Proofs.Programs
import Sbunix.Sys.Proofs.RamMap
import Sbunix.Sys.Proofs.RingMode
import Sbunix.Sys.Proofs.ScanTarfs
import Sbunix.Sys.Proofs.Screen
import Sbunix.Sys.Proofs.Script
import Sbunix.Sys.Proofs.Sleep
import Sbunix.Sys.Proofs.StatusLine
import Sbunix.Sys.Proofs.TableGrowth
import Sbunix.Sys.Proofs.Tables
import Sbunix.Sys.Proofs.TarWalk
import Sbunix.Sys.Proofs.TextArea
import Sbunix.Sys.Proofs.TlbRuns
import Sbunix.Sys.Proofs.Tokens
import Sbunix.Sys.Proofs.UnmapExact
import Sbunix.Sys.Proofs.UnmapRange
import Sbunix.Sys.Proofs.UserPages
import Sbunix.Sys.Proofs.UserReach
import Sbunix.Sys.Proofs.UserStacks
import Sbunix.Sys.Proofs.VmFork
import Sbunix.Sys.Proofs.VmRuns
import Sbunix.Sys.Proofs.VmStep
import Sbunix.Sys.Proofs.VmTotal
import Sbunix.Sys.Proofs.VmaFrame
import Sbunix.Sys.Proofs.VmaLists
import Sbunix.Sys.Proofs.WaitSignals
import Sbunix.Sys.Proofs.WriteShows
import Sbunix.Sys.ScreenCalls
import Sbunix.Sys.Script
import Sbunix.Sys.Sleep
import Sbunix.Sys.Stacks
import Sbunix.Sys.StatusLine
import Sbunix.Sys.SwitchReads
import Sbunix.Sys.Syscall
import Sbunix.Sys.TarWalk
import Sbunix.Sys.TaskManager
import Sbunix.Sys.Terminal
import Sbunix.Sys.Tlb
import Sbunix.Sys.Tokens
import Sbunix.Sys.Vfs
import Sbunix.Sys.VirtMem
import Sbunix.Sys.VirtualCpu
import Sbunix.Sys.VmRun
import Sbunix.Sys.VmaRun
import Sbunix.Sys.Yomama
