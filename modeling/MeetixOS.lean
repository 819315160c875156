import MeetixOS.Kernel.Utils.MapRefinement
import MeetixOS.Kernel.Utils.ListRefinement
import MeetixOS.Kernel.Ramdisk.Image
import MeetixOS.Kernel.Filesystem.Waiters
import MeetixOS.Kernel.Filesystem.ProcessClosed
import MeetixOS.Kernel.Filesystem.FileContents
import MeetixOS.Kernel.Filesystem.ReadDirectory
import MeetixOS.Kernel.Filesystem.OpenResults
import MeetixOS.Kernel.Filesystem.PathBounds
import MeetixOS.Kernel.Ramdisk.FindAbsolute
import MeetixOS.Kernel.Tasking.RoundRobin
import MeetixOS.Kernel.Tasking.Communication.BufferPools
import MeetixOS.Kernel.Vm86.RoundTrips
import MeetixOS.Kernel.Memory.BitmapPageAllocator
import MeetixOS.Kernel.Memory.ShareMem
import MeetixOS.Kernel.Tasking.HeapBreak
import MeetixOS.Kernel.Tasking.Servers
import MeetixOS.Userspace.Spawner.Elf32Loader
import MeetixOS.LibUtils.OptionForms
import MeetixOS.Userspace.MxSh.Environment
import MeetixOS.Userspace.ZipNET.Progress
import MeetixOS.Kernel.Memory.RangeAreas
import MeetixOS.Kernel.Memory.KernelHeap
import MeetixOS.Kernel.Filesystem.TransactionStore
import MeetixOS.LibIO.InputArea
import MeetixOS.Userspace.Terminal.Screens
import MeetixOS.Userspace.Terminal.TypeAhead
import MeetixOS.Userspace.ZipNET.CanvasHandshake
import MeetixOS.LibTC.VectorRefinement
import MeetixOS.LibTC.MapRefinement
import MeetixOS.LibTC.Copies
import MeetixOS.LibTC.StringOrder
import MeetixOS.LibTC.StringNumbers
import MeetixOS.LibTC.StringSearch
import MeetixOS.LibTC.VectorSort
import MeetixOS.LibTC.MapIterator
import MeetixOS.LibC.Qsort
import MeetixOS.LibTC.ListRefinement
import MeetixOS.LibC.CommandLine
import MeetixOS.LibC.OptionRuns
import MeetixOS.LibC.Positions
import MeetixOS.LibC.OpenFiles
import MeetixOS.LibC.Memmove
import MeetixOS.LibC.Strstr
import MeetixOS.LibC.StrtolNumeral
import MeetixOS.LibC.PrintfCount
import MeetixOS.LibC.PrintfConformance
import MeetixOS.Userspace.MxSh.ParserRoundTrip
import MeetixOS.Userspace.MxSh.MXScriptComments
import MeetixOS.Userspace.MxSh.MXScriptRoundTrip
import MeetixOS.Userspace.MxSh.Pipes
import MeetixOS.Userspace.ZipNET.Stacking
import MeetixOS.Userspace.ZipNET.HitTesting
import MeetixOS.Userspace.ZipNET.Scrolling
import MeetixOS.Kernel.Tasking.ForkedWrites
import MeetixOS.Userspace.MxSh.InputLine
import MeetixOS.Kernel.Memory.AddressStack
import MeetixOS.LibTC.NonNullRef
import MeetixOS.Kernel.Utils.KernelString
import MeetixOS.Kernel.Tasking.ThreadNames
import MeetixOS.Userspace.ZipNET.Titles
import MeetixOS.Userspace.ZipNET.PointerEvents
import MeetixOS.Userspace.DyLd.ElfLoader
import MeetixOS.Userspace.ZipNET.TextField
