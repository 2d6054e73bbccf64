import HyperCore.Lib.Scan
import HyperCore.Lib.MachineInt
import HyperCore.Lib.Segregated
import HyperCore.Core.Bitmap
import HyperCore.Core.BitmapWords
import HyperCore.Core.PageAlloc
import HyperCore.Core.ArchPage
import HyperCore.Core.TableMap
import HyperCore.Core.TableGrow
import HyperCore.AArch64.Lpae
import HyperCore.AArch64.PageTableS2
import HyperCore.AArch64.Stage2Map
import HyperCore.AArch64.ConcatRoot
import HyperCore.Core.TableShrink
import HyperCore.Core.TableReach
import HyperCore.Riscv64.Mmu
import HyperCore.Riscv64.PgMap
import HyperCore.Riscv64.HugeMap
import HyperCore.Core.Kmalloc
import HyperCore.AllocFailure
import HyperCore.AArch64.GuestMemory
import HyperCore.AArch64.Isolation
import HyperCore.Lib.ByteMem
import HyperCore.Vgic.State
import HyperCore.Vgic.Containment
import HyperCore.Vgic.Refinement
import HyperCore.Vgic.Virq
import HyperCore.Vgic.Burst
import HyperCore.Vgic.Discovery
import HyperCore.Vgic.Irouter
import HyperCore.Lib.Ring
import HyperCore.Lib.RingFifo
import HyperCore.Sched.Simple
import HyperCore.Sched.Psci
import HyperCore.Sched.Sgi
import HyperCore.Sched.Smp
import HyperCore.Sched.Findable
import HyperCore.Sched.Resume
import HyperCore.Sched.CpuOn
import HyperCore.Ipi.Sync
import HyperCore.Ipi.CallFunc
import HyperCore.Ipi.Target
import HyperCore.Riscv64.VcpuContext
import HyperCore.AArch64.VcpuContext
import HyperCore.Vplic.Index
import HyperCore.Vplic.VirtIrq
import HyperCore.Vplic.Lines
import HyperCore.Vplic.Uart
import HyperCore.Vplic.UartFifo
import HyperCore.Lib.Trace
import HyperCore.Vplic.Hvip
import HyperCore.Vplic.VTimer
import HyperCore.Vplic.Claim
import HyperCore.Lib.ReadLog
import HyperCore.Riscv64.GuestAccess
import HyperCore.Riscv64.PageWalk
import HyperCore.Core.TableTake
import HyperCore.Riscv64.GuestRam
import HyperCore.Riscv64.Stage2Contract
import HyperCore.Stage2Interface
import HyperCore.Lib.TrimTree
import HyperCore.Core.TableUndo
import HyperCore.AArch64.Stage2Unmap
import HyperCore.Core.Stage2Contract
import HyperCore.AArch64.Stage2Contract
import HyperCore.Lib.RvIsa
import HyperCore.Lib.RvPaging
import HyperCore.Riscv64.Emulate
import HyperCore.Riscv64.Mmio
import HyperCore.Riscv64.Redirect
import HyperCore.Riscv64.Sbi
import HyperCore.Riscv64.HartMask
import HyperCore.Riscv64.GuestTrap
import HyperCore.Boot.DeviceTree
import HyperCore.Boot.HyperConfig
import HyperCore.Boot.GuestConfig
import HyperCore.Vgic.Pl011
import HyperCore.Vgic.Pl011Fifo
import HyperCore.UartFifo
import HyperCore.Lib.FlatTree
import HyperCore.Riscv64.GuestDtb
import HyperCore.Riscv64.DtbRoundTrip
import HyperCore.Riscv64.FdtScan
import HyperCore.Riscv64.Features
import HyperCore.Riscv64.FdtBounds
import HyperCore.AArch64.Emulate
import HyperCore.Riscv64.RoundTrip
import HyperCore.AArch64.Stage2RoundTrip
import HyperCore.AArch64.PageTable
import HyperCore.AArch64.HostRoundTrip
import HyperCore.MapUnmap
import HyperCore.AArch64.GuestExact
import HyperCore.Core.AreaSearch
import HyperCore.Core.PageSummary
import HyperCore.Core.Frames
import HyperCore.AArch64.BootTables
import HyperCore.AArch64.RootBlock
import HyperCore.Core.PoolRoundTrip
import HyperCore.AArch64.HostPages
import HyperCore.Remap
import HyperCore.DirectMap
import HyperCore.Riscv64.HugeTree
import HyperCore.LargeLeaf
import HyperCore.Ioremap
import HyperCore.AArch64.RegionList
import HyperCore.Log
import HyperCore.LogRing
import HyperCore.Lib.Tokens
import HyperCore.Lib.CString
import HyperCore.Lib.NullAlloc
import HyperCore.Riscv64.Bootargs
import HyperCore.Boot.RegReaders
import HyperCore.Sched.Runnable
import HyperCore.Sched.Order
import HyperCore.Sched.VcpuCreate
import HyperCore.Sched.RoundRobin
import HyperCore.Core.SoftWalk
import HyperCore.AArch64.SoftWalk
import HyperCore.Riscv64.SoftWalk
import HyperCore.SoftWalk
import HyperCore.Core.Tlsf.Heap
import HyperCore.Core.Tlsf.Mapping
import HyperCore.Core.Tlsf.Tiles
import HyperCore.Core.Tlsf.Blocks
import HyperCore.Core.Tlsf.Index
import HyperCore.Core.Tlsf.Pool
import HyperCore.Core.Tlsf.Alloc
import HyperCore.Core.Tlsf.Free
import HyperCore.Core.Tlsf.Realloc
import HyperCore.Core.Tlsf.Memalign
import HyperCore.Core.Tlsf.Setup
import HyperCore.Core.Tlsf.Check
import HyperCore.Core.Tlsf.Run
import HyperCore.KernelHeap
import HyperCore.Lib.Exclusive
import HyperCore.AArch64.SpinLock
import HyperCore.Riscv64.SpinLock
