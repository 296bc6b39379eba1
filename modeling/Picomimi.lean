import Picomimi.Lib.Run
import Picomimi.Lib.Tiling
import Picomimi.Lib.Ring
import Picomimi.Lib.Levels
import Picomimi.Lib.Links
import Picomimi.Lib.Chain
import Picomimi.Fork
import Picomimi.ForkFrame
import Picomimi.ForkTrace
import Picomimi.SlabHeap
import Picomimi.SlabBlocks
import Picomimi.SlabStep
import Picomimi.SlabRun
import Picomimi.SlabCalls
import Picomimi.SlabServed
import Picomimi.SlabFrame
import Picomimi.Ramfs
import Picomimi.RamfsRun
import Picomimi.FdTable
import Picomimi.FileSize
import Picomimi.FileSizeRun
import Picomimi.RamfsBounds
import Picomimi.Readdir
import Picomimi.Transfer
import Picomimi.TransferRun
import Picomimi.RamfsFops
import Picomimi.Append
import Picomimi.Access
import Picomimi.Output
import Picomimi.Bulk
import Picomimi.FdLowest
import Picomimi.Cloexec
import Picomimi.Lib.Sparse
import Picomimi.Lib.Sweep
import Picomimi.Lib.Slist
import Picomimi.MmLife
import Picomimi.TaskShare
import Picomimi.Wait
import Picomimi.Select
import Picomimi.SigMask
import Picomimi.WaitLaw
import Picomimi.PipeWait
import Picomimi.PipeWaitRun
import Picomimi.Futex
import Picomimi.FutexRun
import Picomimi.FutexLaw
import Picomimi.Interrupt
import Picomimi.Pipe
import Picomimi.PipeRun
import Picomimi.SockRing
import Picomimi.Tcp
import Picomimi.Sbrk
import Picomimi.Sched
import Picomimi.SchedLists
import Picomimi.SchedPick
import Picomimi.SchedPolicy
import Picomimi.SchedRun
import Picomimi.SchedSlice
import Picomimi.SchedBalance
import Picomimi.SchedSleep
import Picomimi.SchedSmp
import Picomimi.Vma
import Picomimi.VmaGap
import Picomimi.VmaLists
import Picomimi.VmaStep
import Picomimi.VmaRun
import Picomimi.Paging
import Picomimi.AddrSpace
import Picomimi.PageFault
import Picomimi.StackGrowth
import Picomimi.Mprotect
import Picomimi.MmapFail
import Picomimi.Exec
import Picomimi.ExecSpace
import Picomimi.ExecKernel
import Picomimi.ExecView
import Picomimi.ExecImage
import Picomimi.ExecStack
import Picomimi.ExecStackImage
import Picomimi.ExecStackBounds
import Picomimi.ExecScript
import Picomimi.MachoWalk
import Picomimi.MachoEntry
import Picomimi.PagingTree
import Picomimi.PagingSpaces
import Picomimi.PagingMap
import Picomimi.PagingPhys
import Picomimi.VmaCopy
import Picomimi.PagingUnmap
import Picomimi.Vfs
import Picomimi.VfsOps
import Picomimi.VfsTree
import Picomimi.VfsRun
import Picomimi.VfsPath
import Picomimi.VfsLookup
import Picomimi.VfsRemove
import Picomimi.VfsRename
import Picomimi.Lib.Holders
import Picomimi.Ports
import Picomimi.PortsRun
import Picomimi.SockTable
import Picomimi.TcpAccept
import Picomimi.Cred
import Picomimi.CredLife
import Picomimi.Pid
import Picomimi.PidSearch
import Picomimi.Lib.Refs
import Picomimi.Files
import Picomimi.FilesRun
import Picomimi.PipeEnds
import Picomimi.Lib.Radix
import Picomimi.Lib.WordBytes
import Picomimi.ProcTree
import Picomimi.ProcTreeRun
import Picomimi.Skb
import Picomimi.NetCore
import Picomimi.NetReceive
import Picomimi.NetPayload
import Picomimi.NetRun
import Picomimi.NetListen
import Picomimi.NetAddress
import Picomimi.Alarm
import Picomimi.UdpLoop
import Picomimi.SockPair
import Picomimi.VfsAt
import Picomimi.VfsDots
import Picomimi.VfsLink
import Picomimi.VfsMount
import Picomimi.PathRefs
import Picomimi.VfsName
import Picomimi.VfsSibling
import Picomimi.Pmm
import Picomimi.SchedHyperRun
import Picomimi.Sh
import Picomimi.ShText
import Picomimi.ShQuote
import Picomimi.ShVerbatim
import Picomimi.Lib.Packed
import Picomimi.Kqueue
import Picomimi.MachPorts
import Picomimi.LibStr
import Picomimi.ShTokenize
import Picomimi.ShAndOr
import Picomimi.Lib.Lines
import Picomimi.Tty
import Picomimi.Lib.Checked
import Picomimi.Terminal
import Picomimi.TerminalSafe
import Picomimi.UserHeap
import Picomimi.Lib.Room
import Picomimi.Printk
import Picomimi.PrintkSafe
import Picomimi.LibPrintf
import Picomimi.ShBuffers
import Picomimi.ShHistory
import Picomimi.Lib.SpinLocks
import Picomimi.SchedLocks
import Picomimi.NetArp
