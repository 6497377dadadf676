import Utero.Lib.Fuel
import Utero.Lib.Run
import Utero.Lib.Program
import Utero.Lib.Search
import Utero.Lib.Hull
import Utero.Lib.Stack
import Utero.Lib.CString
import Utero.Lib.Numeral
import Utero.Lib.WrappedText
import Utero.Lib.DoubleRead
import Utero.Lib.PageWalk
import Utero.Lib.PageUpdate
import Utero.Lib.TableTree
import Utero.Core.Interrupt
import Utero.Core.InterruptFrame
import Utero.Core.Idt
import Utero.Core.Pic
import Utero.Core.Dispatch
import Utero.Core.IrqSystem
import Utero.Core.IrqService
import Utero.Core.Timer
import Utero.Core.Boot
import Utero.Core.BootBlock
import Utero.Core.TagSearch
import Utero.Core.KernelExtent
import Utero.Core.Cmos
import Utero.Core.RtcFormat
import Utero.Libk.Itoa
import Utero.Libk.Printfk
import Utero.Libk.Numbers
import Utero.Libk.Text
import Utero.Libk.Accesses
import Utero.Drivers.Screen
import Utero.Drivers.ScreenText
import Utero.Drivers.Console
import Utero.Drivers.Serial
import Utero.Drivers.SerialRun
import Utero.Mmu.Mmap
import Utero.Mmu.MemoryMap
import Utero.Mmu.ChunkLoop
import Utero.Mmu.Allocator
import Utero.Mmu.AllocatorRun
import Utero.Mmu.Exhaustion
import Utero.Mmu.Paging
import Utero.Mmu.BootTables
import Utero.Mmu.RecursiveMapping
import Utero.Mmu.MapPage
import Utero.Mmu.CreateTable
import Utero.Mmu.PageNumbers
import Utero.Mmu.Isolation
import Utero.Mmu.Unmap
import Utero.Mmu.Deallocate
import Utero.Mmu.MapRun
import Utero.Kernel.Start
import Utero.Kernel.Panic
import Utero.Kernel.Kmain
import Utero.Kernel.Placement
import Utero.Kernel.BootRun
import Utero.Kernel.Session
