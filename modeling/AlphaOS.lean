import AlphaOS.BlockHeapRun
import AlphaOS.AddressSpace
import AlphaOS.KheapBlocks
import AlphaOS.ProcessFree
import AlphaOS.Task
import AlphaOS.TaskMemory
import AlphaOS.LinkedList
import AlphaOS.TaskList
import AlphaOS.Machine
import AlphaOS.ContextSwitch
import AlphaOS.Keyboard
import AlphaOS.CString
import AlphaOS.PathParser
import AlphaOS.PathParserSpec
import AlphaOS.Elf
import AlphaOS.ProcessLoad
import AlphaOS.ProcessMap
import AlphaOS.ElfLoad
import AlphaOS.ProcessLoadSpec
import AlphaOS.ProgramMap
import AlphaOS.ServedFile
import AlphaOS.ProgramReach
import AlphaOS.BlockPins
import AlphaOS.File
import AlphaOS.FileOpen
import AlphaOS.FileDescriptors
import AlphaOS.TaskFailure
import AlphaOS.HeapRequests
import AlphaOS.DiskStream
import AlphaOS.Fat16
import AlphaOS.Fat16Read
import AlphaOS.ElfResult
import AlphaOS.ElfReads
import AlphaOS.LoadFailure
import AlphaOS.SystemCommand
import AlphaOS.BlockKeeps
import AlphaOS.LoadKeeps
import AlphaOS.ProcessRegistry
import AlphaOS.RegistryLoad
import AlphaOS.RegistryRun
import AlphaOS.FrontierLoad
import AlphaOS.StarvedLoad
import AlphaOS.Fat16Entry
import AlphaOS.Fat16Directory
import AlphaOS.Fat16Files
import AlphaOS.OpenFile
import AlphaOS.Fat16Root
import AlphaOS.Fat16Items
import AlphaOS.PathText
import AlphaOS.LoadHeaders
import AlphaOS.Fat16Listing
import AlphaOS.Fat16Lookup
import AlphaOS.AccessLog
import AlphaOS.Fat16Making
import AlphaOS.Fat16Walk
import AlphaOS.DiskSectors
import AlphaOS.Fat16Geometry
import AlphaOS.PagingRange
import AlphaOS.TaskSchedule
import AlphaOS.ProcessAlloc
import AlphaOS.CommandArguments
import AlphaOS.TaskStrings
import AlphaOS.Fat16Faults
import AlphaOS.Fat16Resolve
import AlphaOS.Fat16Tags
import AlphaOS.Console
import AlphaOS.Decimal
import AlphaOS.Itoa
import AlphaOS.Printf
import AlphaOS.Readline
import AlphaOS.Strtok
import AlphaOS.ParseCommand
import AlphaOS.StartPath
import AlphaOS.ProgramArguments
import AlphaOS.Gdt
import AlphaOS.Compare
import AlphaOS.ElfExtent
import AlphaOS.ProcessRelease
import AlphaOS.TypedText
import AlphaOS.RoundRobin
import AlphaOS.KernelStart
import AlphaOS.Devices
import AlphaOS.StreamDriver
import AlphaOS.BootLoader
import AlphaOS.DiskProgram
