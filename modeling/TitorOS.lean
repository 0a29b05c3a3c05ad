import TitorOS.Lib.Run
import TitorOS.Lib.Span
import TitorOS.Lib.WordStack
import TitorOS.Lib.PageWord
import TitorOS.Lib.Search
import TitorOS.Lib.Slots
import TitorOS.Lib.Budget
import TitorOS.Lib.Preserve
import TitorOS.Lib.Word
import TitorOS.Lib.Fill
import TitorOS.Lib.PageWalk
import TitorOS.Stage2.Memtable
import TitorOS.Stage2.Regions
import TitorOS.Stage2.Coverage
import TitorOS.Stage2.Loader
import TitorOS.Stage2.Slot
import TitorOS.Stage2.Image
import TitorOS.Stage2.Bios
import TitorOS.Stage2.Handover
import TitorOS.Stage2.Tables
import TitorOS.Lib.Ring
import TitorOS.Barrel.Vfs
import TitorOS.Barrel.Devfs
import TitorOS.Barrel.Nvme
import TitorOS.Barrel.Malloc
import TitorOS.Barrel.MallocList
import TitorOS.Barrel.Kheap
import TitorOS.Barrel.Scheduler
import TitorOS.Barrel.Fairness
import TitorOS.Barrel.Terminal
import TitorOS.Barrel.Isr
import TitorOS.Barrel.Pmm
import TitorOS.Barrel.Vmm
import TitorOS.Barrel.Walk
import TitorOS.Barrel.Ownership
import TitorOS.Barrel.Frames
import TitorOS.Barrel.Mapping
import TitorOS.Barrel.Paging
import TitorOS.Barrel.CopyOnWrite
import TitorOS.Barrel.Mmap
import TitorOS.Barrel.Demand
import TitorOS.Barrel.Exclusive
import TitorOS.Barrel.Isolation
import TitorOS.Barrel.Exec
import TitorOS.Barrel.Solitary
import TitorOS.Barrel.Getnode
import TitorOS.Barrel.Syscall
import TitorOS.Barrel.Volume
import TitorOS.Barrel.Directory
import TitorOS.Barrel.Enumerate
import TitorOS.Barrel.Ext2Read
import TitorOS.Barrel.Tree
import TitorOS.Barrel.Bound
import TitorOS.Barrel.Resolve
import TitorOS.Barrel.Identity
import TitorOS.Barrel.NvmeRead
import TitorOS.Barrel.Ext2Mount
import TitorOS.Barrel.Descriptors
import TitorOS.Barrel.LookupCost
import TitorOS.Barrel.Dirents
import TitorOS.Barrel.LineEdit
import TitorOS.Barrel.Listing
import TitorOS.Barrel.Tmpfs
import TitorOS.Barrel.WaitQueue
import TitorOS.Barrel.QueuePage
import TitorOS.Barrel.Screen
import TitorOS.Barrel.Rendering
import TitorOS.Barrel.Cursor
import TitorOS.Barrel.Switch
import TitorOS.Barrel.Dispatch
import TitorOS.Barrel.Printf
import TitorOS.Barrel.Resumption
import TitorOS.Barrel.PrintfScan
import TitorOS.Barrel.Pci
import TitorOS.Lib.Runs
import TitorOS.Barrel.Strtok
import TitorOS.Barrel.Keyboard
import TitorOS.Barrel.Strings
import TitorOS.Barrel.Shell
import TitorOS.Barrel.Boot
import TitorOS.Barrel.Mount
import TitorOS.Barrel.BringUp
import TitorOS.Barrel.Bootstrap
import TitorOS.Kernel.Report
