import Infos.Buddy.Code
import Infos.Lib.Blocks
import Infos.Buddy.Lists
import Infos.Buddy.Merge
import Infos.Buddy.Interface
import Infos.Lib.System
import Infos.Buddy.Runs
import Infos.Buddy.Safety
import Infos.Buddy.Canonical
import Infos.Buddy.PastEnd
import Infos.Mm.MemoryManager
import Infos.Mm.PageAllocator
import Infos.Mm.PageTypes
import Infos.Mm.PageRuns
import Infos.Lib.Bytes
import Infos.Lib.Radix
import Infos.Vma.Code
import Infos.Vma.Supply
import Infos.Vma.Entries
import Infos.Vma.Insert
import Infos.Vma.Map
import Infos.Vma.Virt
import Infos.Exec.Confined
import Infos.Vma.Frames
import Infos.Commons.LinkedList
import Infos.Commons.Rings
import Infos.Commons.SharedPointer
import Infos.Commons.Counts
import Infos.Commons.FibHeap
import Infos.Commons.HeapRings
import Infos.Commons.PriorityQueue
import Infos.Commons.HeapCalls
import Infos.Commons.HeapRuns
import Infos.Commons.PointerRuns
import Infos.Kernel.Algorithms
import Infos.Kernel.RoundRobin
import Infos.Kernel.Fair
import Infos.Kernel.Scheduler
import Infos.Kernel.Threads
import Infos.Kernel.Accounting
import Infos.Kernel.Mirror
import Infos.Kernel.Wake
import Infos.Kernel.Stopped
import Infos.Kernel.Machine
import Infos.Kernel.Changes
import Infos.Kernel.HalfWoken
import Infos.Kernel.Stacks
import Infos.Kernel.Waiting
import Infos.Kernel.Terminate
import Infos.Lib.RedBlack
import Infos.Util.Map
import Infos.Util.MapTree
import Infos.Util.MapCalls
import Infos.Util.MapRuns
import Infos.Kernel.ObjectManager
import Infos.Kernel.Syscalls
import Infos.Drivers.CmosRtc
import Infos.Drivers.VirtualConsole
import Infos.Lib.Circular
import Infos.Drivers.Terminal
import Infos.Fs.Tar
import Infos.Fs.Files
import Infos.Util.Strings
import Infos.Fs.TarFS
import Infos.Fs.TarTree
import Infos.Fs.Nodes
import Infos.Util.Tables
import Infos.Fs.Vfs
import Infos.Fs.TempFS
import Infos.Kernel.DeviceManager
import Infos.Fs.Directory
import Infos.Fs.Listings
import Infos.Lib.Keyed
import Infos.Fs.Names
import Infos.Arch.Context
import Infos.Arch.Trap
import Infos.Arch.Resume
import Infos.Drivers.Reader
import Infos.Util.Mutex
import Infos.Kernel.Masking
import Infos.Lib.Loop
import Infos.Arch.Acpi
import Infos.Util.Printf
import Infos.Drivers.Writes
import Infos.Lib.Page
import Infos.Arch.EarlyScreen
import Infos.Drivers.VgaConsole
import Infos.Drivers.Keyboard
import Infos.Drivers.Partition
import Infos.Commons.Range
import Infos.Kernel.Fifo
import Infos.Mm.SimplePageAlloc
import Infos.Fs.PathScan
import Infos.Vma.Copies
import Infos.Util.Numerals
import Infos.Util.Truncation
import Infos.Vma.Requests
import Infos.Fs.Octal
import Infos.Fs.Scan
import Infos.Fs.Positions
import Infos.Util.CString
import Infos.Util.Cmdline
import Infos.Kernel.BootOptions
import Infos.Lib.Addresses
import Infos.Arch.FastString
import Infos.Kernel.TimeOfDay
import Infos.Lib.Buffers
import Infos.Util.StringObjects
import Infos.Util.StringParts
import Infos.Util.StringHashes
import Infos.Arch.FastCopy
import Infos.Lib.BitFields
import Infos.Arch.Gates
import Infos.Drivers.AtaDevice
import Infos.Kernel.DeviceNames
import Infos.Commons.ListCalls
import Infos.Commons.ListSearch
import Infos.User.Strings
import Infos.User.Shell
import Infos.Util.Comparing
import Infos.Kernel.Settings
import Infos.Vma.Walk
import Infos.Vma.Windows
import Infos.Vma.Steps
import Infos.Vma.Machine
import Infos.Vma.Isolation
import Infos.Util.Lists
import Infos.Util.ListCells
import Infos.Util.ListEdits
import Infos.Util.ListRuns
import Infos.Arch.MemoryMap
import Infos.Vma.Booted
import Infos.Arch.Interrupts
import Infos.Fs.Namespace
import Infos.Fs.Mounts
import Infos.Kernel.FileCalls
import Infos.Kernel.FileStreams
import Infos.User.Calls
import Infos.User.Cat
import Infos.Lib.Image
import Infos.Exec.LoadedImage
import Infos.Exec.Segments
