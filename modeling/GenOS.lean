import GenOS.Lib.Cells
import GenOS.Lib.RefPool
import GenOS.Mm.Pmm
import GenOS.Mm.PmmInv
import GenOS.Mm.PmmInit
import GenOS.Mm.PmmSafety
import GenOS.Lib.Radix
import GenOS.Mm.Ledger
import GenOS.Mm.Pte
import GenOS.Mm.Vmm
import GenOS.Mm.VmmMap
import GenOS.Mm.VmmUnmap
import GenOS.Mm.VmmRange
import GenOS.Mm.VmmSpace
import GenOS.Mm.VmmRefine
import GenOS.Lib.Bytes
import GenOS.Lib.FirstFit
import GenOS.Mm.Heap
import GenOS.Mm.HeapList
import GenOS.Mm.HeapInv
import GenOS.Mm.HeapSafety
import GenOS.Mm.KernelTree
import GenOS.Mm.HeapGrow
import GenOS.Mm.HeapStep
import GenOS.Mm.VmmCount
import GenOS.Lib.Machine
import GenOS.Kernel.Task
import GenOS.Kernel.TaskStep
import GenOS.Kernel.TaskFrame
import GenOS.Kernel.TaskEffect
import GenOS.Kernel.TaskPid
import GenOS.Kernel.TaskSafety
import GenOS.Kernel.TaskWait
import GenOS.Kernel.TaskAging
import GenOS.Kernel.TaskGroup
import GenOS.Fs.Cache
import GenOS.Lib.Chain
import GenOS.Fs.CacheInv
import GenOS.Fs.CacheOrder
import GenOS.Fs.CacheRead
import GenOS.Fs.Tmpfs
import GenOS.Fs.Vfs
import GenOS.Cpu.Preempt
import GenOS.Cpu.PreemptGuard
import GenOS.Fs.VfsCoherence
import GenOS.Drivers.IoRequest
import GenOS.Drivers.Virtio
import GenOS.Drivers.Block
import GenOS.Drivers.Net
import GenOS.Drivers.LockOrder
import GenOS.Drivers.Input
import GenOS.Drivers.InputSafety
import GenOS.Crypto.Fips180
import GenOS.Crypto.Sha256Stream
import GenOS.Crypto.Aes
import GenOS.Lib.Cbc
import GenOS.Crypto.AesBlock
import GenOS.Crypto.AesCbc
import GenOS.Fs.ElfValidate
import GenOS.Fs.ElfSound
import GenOS.Drivers.Admission
import GenOS.Cpu.Tlb
import GenOS.Cpu.TlbShootdown
import GenOS.Drivers.Virtqueue
import GenOS.Lib.Sequential
import GenOS.Drivers.Device
import GenOS.Drivers.NetInv
import GenOS.Drivers.NetSections
import GenOS.Drivers.NetRun
import GenOS.Drivers.NetSafety
import GenOS.Cpu.Uaccess
import GenOS.Mm.UserMemory
import GenOS.Mm.UserRange
import GenOS.Crypto.Hmac
import GenOS.Lib.Slots
import GenOS.Lib.CString
import GenOS.Security.Cred
import GenOS.Security.CredSafety
import GenOS.Security.Keystore
import GenOS.Security.KeystoreMap
import GenOS.Mm.Cow
import GenOS.Mm.Spaces
import GenOS.Mm.CowExact
import GenOS.Mm.HeapPhys
import GenOS.Mm.HeapFailure
import GenOS.Lib.WordBytes
import GenOS.Mm.SpaceRules
import GenOS.Mm.FreshSpace
import GenOS.Mm.UserHeap
import GenOS.Mm.Memory
import GenOS.Mm.UserPages
import GenOS.Mm.UserLayout
import GenOS.Mm.UserAlloc
import GenOS.Mm.UserFree
import GenOS.Mm.UserRealloc
import GenOS.Fs.ElfLoad
import GenOS.Mm.VmmPlain
import GenOS.Mm.NewPage
import GenOS.Fs.ElfBuild
import GenOS.Fs.ElfImage
import GenOS.Mm.PmmFreeSet
import GenOS.Lib.Splice
import GenOS.Fs.TmpfsFile
import GenOS.Fs.VfsOpen
import GenOS.Fs.VfsSeek
import GenOS.Fs.TmpfsBounds
import GenOS.Fs.TmpfsArray
import GenOS.Fs.TmpfsHeap
import GenOS.Fs.Tar
import GenOS.Fs.TarWalk
import GenOS.Fs.TarArchive
import GenOS.Fs.Readdir
import GenOS.Fs.ReaddirRun
import GenOS.Drivers.Keyboard
import GenOS.Drivers.KeyboardStream
import GenOS.Fs.CacheSplit
import GenOS.Fs.VfsSplit
import GenOS.Fs.VfsReady
import GenOS.Fs.VfsIdentity
import GenOS.Fs.VfsIdentityRun
import GenOS.Cpu.SyscallIo
import GenOS.Cpu.SyscallIoRun
import GenOS.Cpu.SyscallIoExact
import GenOS.Lib.XorShift
import GenOS.Crypto.Random
import GenOS.Lib.Circular
import GenOS.Kernel.TaskSelect
import GenOS.Kernel.TaskBypass
import GenOS.Lib.Cursor
import GenOS.Shell.Terminal
import GenOS.Shell.TerminalSafety
import GenOS.Mm.Shm
import GenOS.Mm.CowClone
import GenOS.Kernel.Process
import GenOS.Mm.Sharing
import GenOS.Mm.World
import GenOS.Mm.ShmSafety
import GenOS.Mm.WorldCalls
import GenOS.Mm.OwnerEnd
import GenOS.Mm.VmmVisit
import GenOS.Mm.CloneVisit
import GenOS.Mm.ShmInherit
import GenOS.Mm.CloneSpace
import GenOS.Kernel.ProcessInv
import GenOS.Kernel.ProcessCalls
import GenOS.Kernel.ProcessLife
import GenOS.Kernel.ProcessFork
import GenOS.Kernel.ProcessCreate
import GenOS.Kernel.ProcessRun
import GenOS.Kernel.ProcessReap
import GenOS.Kernel.ProcessSafety
import GenOS.Kernel.ProcessStats
import GenOS.Kernel.ProcessExact
import GenOS.Mm.UserText
