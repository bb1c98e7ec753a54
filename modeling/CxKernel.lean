import CxKernel.Lib.ByteMem
import CxKernel.Lib.CopyCells
import CxKernel.Lib.FiberCount
import CxKernel.Lib.Floor
import CxKernel.Lib.Forest
import CxKernel.Lib.Gaps
import CxKernel.Lib.LinkRing
import CxKernel.Lib.Numeral
import CxKernel.Lib.Placed
import CxKernel.Lib.RadixWalk
import CxKernel.Lib.RangeFor
import CxKernel.Lib.Runs
import CxKernel.Lib.Turns
import CxKernel.Lib.WordArray
import CxKernel.Lib.WordBytes
import CxKernel.Lib.Words
import CxKernel.Lib.ZeroByte
import CxKernel.Spec.Bit
import CxKernel.Spec.Boot
import CxKernel.Spec.Console
import CxKernel.Spec.Destroy
import CxKernel.Spec.Elf
import CxKernel.Spec.ElfFile
import CxKernel.Spec.Flags
import CxKernel.Spec.Guard
import CxKernel.Spec.Handoff
import CxKernel.Spec.Idt
import CxKernel.Spec.Interrupt
import CxKernel.Spec.Kmem
import CxKernel.Spec.LinkedList
import CxKernel.Spec.LoadElf
import CxKernel.Spec.Loader
import CxKernel.Spec.LongMode
import CxKernel.Spec.Main
import CxKernel.Spec.Mmu
import CxKernel.Spec.Multiboot
import CxKernel.Spec.Mutex
import CxKernel.Spec.Paging
import CxKernel.Spec.Panic
import CxKernel.Spec.Pmm
import CxKernel.Spec.RefPtr
import CxKernel.Spec.RefThreads
import CxKernel.Spec.Sequences
import CxKernel.Spec.Slab
import CxKernel.Spec.Spinlock
import CxKernel.Spec.SpinlockAsm
import CxKernel.Spec.Status
import CxKernel.Spec.Stdio
import CxKernel.Spec.Strings
import CxKernel.Spec.SwitchThread
import CxKernel.Spec.Util
import CxKernel.Spec.VmRegion
import CxKernel.Proofs.AddressSpace
import CxKernel.Proofs.ArmedResult
import CxKernel.Proofs.BitField
import CxKernel.Proofs.BootInfo
import CxKernel.Proofs.Bootstrap
import CxKernel.Proofs.Capabilities
import CxKernel.Proofs.Console
import CxKernel.Proofs.Deadlock
import CxKernel.Proofs.Destroy
import CxKernel.Proofs.DestroyTree
import CxKernel.Proofs.ElfFile
import CxKernel.Proofs.FirstFit
import CxKernel.Proofs.FitLimits
import CxKernel.Proofs.FormatScan
import CxKernel.Proofs.Guard
import CxKernel.Proofs.Handoff
import CxKernel.Proofs.Holes
import CxKernel.Proofs.Idt
import CxKernel.Proofs.Interrupt
import CxKernel.Proofs.KernelImage
import CxKernel.Proofs.KernelMaps
import CxKernel.Proofs.KernelPages
import CxKernel.Proofs.KernelSpace
import CxKernel.Proofs.KernelWindow
import CxKernel.Proofs.Kmem
import CxKernel.Proofs.LinkedList
import CxKernel.Proofs.ListPool
import CxKernel.Proofs.LoadElf
import CxKernel.Proofs.LoadFile
import CxKernel.Proofs.LoadLoop
import CxKernel.Proofs.LoaderFrame
import CxKernel.Proofs.LoaderPages
import CxKernel.Proofs.LoaderPaging
import CxKernel.Proofs.LongMode
import CxKernel.Proofs.Main
import CxKernel.Proofs.MapPages
import CxKernel.Proofs.MapSinglePage
import CxKernel.Proofs.Memmove
import CxKernel.Proofs.Mmu
import CxKernel.Proofs.Multiboot
import CxKernel.Proofs.Mutex
import CxKernel.Proofs.MutexRuns
import CxKernel.Proofs.NumFormat
import CxKernel.Proofs.NumText
import CxKernel.Proofs.Overlap
import CxKernel.Proofs.PageConservation
import CxKernel.Proofs.Paging
import CxKernel.Proofs.Panic
import CxKernel.Proofs.Placement
import CxKernel.Proofs.Pmm
import CxKernel.Proofs.PrintInt
import CxKernel.Proofs.Recursive
import CxKernel.Proofs.RefCount
import CxKernel.Proofs.RefPtr
import CxKernel.Proofs.RefThreads
import CxKernel.Proofs.ReservedPages
import CxKernel.Proofs.SearchRun
import CxKernel.Proofs.Slab
import CxKernel.Proofs.SlabChain
import CxKernel.Proofs.SlabLayout
import CxKernel.Proofs.SlabRun
import CxKernel.Proofs.Spinlock
import CxKernel.Proofs.SpinlockAsm
import CxKernel.Proofs.Strcmp
import CxKernel.Proofs.StringProducers
import CxKernel.Proofs.Strlen
import CxKernel.Proofs.Strstr
import CxKernel.Proofs.SwitchThread
import CxKernel.Proofs.Symbols
import CxKernel.Proofs.Template
import CxKernel.Proofs.Turns
import CxKernel.Proofs.VirtAddr
import CxKernel.Proofs.VmRegion
