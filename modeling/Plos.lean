import Plos.Lib.Path
import Plos.Lib.Word
import Plos.Lib.Run
import Plos.Lib.Dyadic
import Plos.Common.Dll
import Plos.Memory.Pmm.Basic
import Plos.Memory.Pmm.Invariant
import Plos.Memory.Pmm.Operations
import Plos.Memory.Pmm.Init
import Plos.Memory.Pmm.Runs
import Plos.Memory.Pmm.Accounting
import Plos.Memory.Pmm.Allocation
import Plos.Memory.Pmm.References
import Plos.Memory.Pmm.StaleFlags
import Plos.Scheduling.TicketLock
import Plos.Scheduling.Basic
import Plos.Scheduling.System
import Plos.Scheduling.Effects
import Plos.Scheduling.MutexProtocol
import Plos.Scheduling.LockDiscipline
import Plos.Scheduling.Rings
import Plos.Scheduling.RingSteps
import Plos.Scheduling.RoundRobin
import Plos.Scheduling.Reaper
import Plos.Scheduling.Shape
import Plos.Scheduling.Progress
import Plos.Memory.Vmm.Regions
import Plos.Memory.Vmm.FirstFit
import Plos.Lib.Radix
import Plos.Memory.Paging.Tables
import Plos.Memory.Paging.Mapping
import Plos.Memory.Paging.Refinement
import Plos.Memory.Pmm.Frames
import Plos.Memory.Vmm.Basic
import Plos.Memory.Vmm.Pages
import Plos.Memory.Vmm.Spaces
import Plos.Memory.Vmm.DemandPaging
import Plos.Memory.Vmm.Lifecycle
import Plos.Memory.Vmm.Isolation
import Plos.Lib.Chunks
import Plos.Memory.Kheap.Basic
import Plos.Memory.Kheap.Represent
import Plos.Memory.Kheap.Runs
import Plos.Memory.Kheap.Tiling
import Plos.Memory.Kheap.Mapped
import Plos.Memory.Vmm.KernelHalf
import Plos.Memory.Kheap.FailedExtension
import Plos.Memory.Kheap.Requests
import Plos.Memory.Kheap.Termination
import Plos.Memory.Kheap.DoubleFree
import Plos.Memory.Paging.Regions
import Plos.Memory.Paging.Flags
import Plos.Memory.Paging.DirectMap
import Plos.Lib.Bytes
import Plos.Libk.String
import Plos.Common.Logging
import Plos.Common.DllRuns
import Plos.Drivers.Acpi
import Plos.Scheduling.Sleep
import Plos.Lib.Cyclic
import Plos.Lib.Potential
import Plos.Scheduling.Fairness
import Plos.Lib.StackCode
import Plos.Interrupts.Frame
import Plos.Interrupts.Machine
import Plos.Scheduling.Switch
import Plos.Interrupts.Threads
import Plos.Interrupts.Runs
import Plos.Lib.Translation
import Plos.Memory.Vmm.VirtualMemory
import Plos.Lib.Numeral
import Plos.Lib.Scan
import Plos.Libk.Nanoprintf.Buffer
import Plos.Libk.Nanoprintf.Convert
import Plos.Libk.Nanoprintf.Format
import Plos.Libk.Nanoprintf.Numbers
