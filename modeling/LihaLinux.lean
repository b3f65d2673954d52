import LihaLinux.Block.BlockDev
import LihaLinux.Block.BufferLocks
import LihaLinux.Block.FinishedRequests
import LihaLinux.Block.Floppy
import LihaLinux.Block.FloppyRequests
import LihaLinux.Block.Geometry
import LihaLinux.Block.HardDisk
import LihaLinux.Block.LockRuns
import LihaLinux.Block.Machine
import LihaLinux.Block.ReadAhead
import LihaLinux.Block.RequestRuns
import LihaLinux.Block.Requests
import LihaLinux.Block.Retries
import LihaLinux.Block.TransferInvariant
import LihaLinux.Block.TransferSteps
import LihaLinux.Block.Transfers
import LihaLinux.Boot.Image
import LihaLinux.Boot.Loader
import LihaLinux.Boot.Paging
import LihaLinux.Boot.Start
import LihaLinux.Files.Access
import LihaLinux.Files.Attributes
import LihaLinux.Files.Balance
import LihaLinux.Files.BlockGrowth
import LihaLinux.Files.BufferCalls
import LihaLinux.Files.BufferRefs
import LihaLinux.Files.ByteCalls
import LihaLinux.Files.ByteFile
import LihaLinux.Files.ByteRuns
import LihaLinux.Files.CallRuns
import LihaLinux.Files.CopyProcess
import LihaLinux.Files.CreateBlock
import LihaLinux.Files.DemandLoad
import LihaLinux.Files.DirEntries
import LihaLinux.Files.DirMap
import LihaLinux.Files.ExecHeader
import LihaLinux.Files.FailedCalls
import LihaLinux.Files.FileBalance
import LihaLinux.Files.FileCalls
import LihaLinux.Files.InodeCalls
import LihaLinux.Files.InodeRefs
import LihaLinux.Files.InodeTable
import LihaLinux.Files.Inodes
import LihaLinux.Files.MountBalance
import LihaLinux.Files.Mounts
import LihaLinux.Files.NameCalls
import LihaLinux.Files.Namei
import LihaLinux.Files.Offsets
import LihaLinux.Files.PathWalk
import LihaLinux.Files.ReadWrite
import LihaLinux.Files.State
import LihaLinux.Files.SuperMaps
import LihaLinux.Files.TableFrames
import LihaLinux.Files.TaskBalance
import LihaLinux.Files.Truncate
import LihaLinux.Files.ZoneMap
import LihaLinux.Files.ZoneRuns
import LihaLinux.Files.Zones
import LihaLinux.Fs.Alone
import LihaLinux.Fs.Bmap
import LihaLinux.Fs.BmapPaths
import LihaLinux.Fs.BmapRuns
import LihaLinux.Fs.BufferInit
import LihaLinux.Fs.Cache
import LihaLinux.Fs.CacheQueues
import LihaLinux.Fs.CacheRuns
import LihaLinux.Fs.DirBlocks
import LihaLinux.Fs.DirNames
import LihaLinux.Fs.DirRuns
import LihaLinux.Fs.Directory
import LihaLinux.Fs.Frames
import LihaLinux.Fs.GetblkEnds
import LihaLinux.Fs.InodeLocks
import LihaLinux.Fs.InodeRuns
import LihaLinux.Fs.InodeSteps
import LihaLinux.Fs.Machine
import LihaLinux.Fs.NullLinks
import LihaLinux.Fs.Pipe
import LihaLinux.Fs.PipeFifo
import LihaLinux.Fs.PipeOrder
import LihaLinux.Kernel.DeviceNumbers
import LihaLinux.Kernel.DeviceRuns
import LihaLinux.Kernel.Fpu
import LihaLinux.Kernel.Identity
import LihaLinux.Kernel.InterruptibleSleep
import LihaLinux.Kernel.Kill
import LihaLinux.Kernel.Mktime
import LihaLinux.Kernel.ProcessTable
import LihaLinux.Kernel.Processes
import LihaLinux.Kernel.Scheduler
import LihaLinux.Kernel.Selection
import LihaLinux.Kernel.Signals
import LihaLinux.Kernel.SleepOn
import LihaLinux.Kernel.Timers
import LihaLinux.Kernel.WaitPid
import LihaLinux.Kernel.WakeUps
import LihaLinux.Lib.Bytes
import LihaLinux.Lib.Calendar
import LihaLinux.Lib.Chain
import LihaLinux.Lib.Counting
import LihaLinux.Lib.Ends
import LihaLinux.Lib.Exclusive
import LihaLinux.Lib.Extents
import LihaLinux.Lib.HashChains
import LihaLinux.Lib.IndexTree
import LihaLinux.Lib.Linked
import LihaLinux.Lib.Lists
import LihaLinux.Lib.Overlay
import LihaLinux.Lib.Owns
import LihaLinux.Lib.Processor
import LihaLinux.Lib.Prog
import LihaLinux.Lib.Regions
import LihaLinux.Lib.Ring
import LihaLinux.Lib.SlotTable
import LihaLinux.Lib.StringOps
import LihaLinux.Lib.Sweep
import LihaLinux.Lib.Transition
import LihaLinux.Lib.Walk
import LihaLinux.Malloc.Buckets
import LihaLinux.Malloc.Heap
import LihaLinux.Malloc.HeapRuns
import LihaLinux.Malloc.Objects
import LihaLinux.Malloc.Slots
import LihaLinux.Mm.ArgBound
import LihaLinux.Mm.ArgMap
import LihaLinux.Mm.ArgPages
import LihaLinux.Mm.ArgStack
import LihaLinux.Mm.ArgTables
import LihaLinux.Mm.CopyTables
import LihaLinux.Mm.ExecArgs
import LihaLinux.Mm.Faults
import LihaLinux.Mm.ForkFailure
import LihaLinux.Mm.FreeFrames
import LihaLinux.Mm.Functions
import LihaLinux.Mm.Images
import LihaLinux.Mm.Invariant
import LihaLinux.Mm.Isolation
import LihaLinux.Mm.KernelStores
import LihaLinux.Mm.Memory
import LihaLinux.Mm.Moves
import LihaLinux.Mm.References
import LihaLinux.Mm.SharedPages
import LihaLinux.Mm.Slots
import LihaLinux.Mm.System
import LihaLinux.Mm.Tables
import LihaLinux.Mm.TaskFaults
import LihaLinux.Mm.TaskInvariant
import LihaLinux.Mm.TaskSteps
import LihaLinux.Mm.TaskSystem
import LihaLinux.Mm.Tasks
import LihaLinux.Mm.Words
import LihaLinux.Print.Conversions
import LihaLinux.Print.FormatLanguage
import LihaLinux.Print.Formats
import LihaLinux.Print.NumberField
import LihaLinux.Print.Numbers
import LihaLinux.Print.Vsprintf
import LihaLinux.Screen.ConWrite
import LihaLinux.Screen.Geometry
import LihaLinux.Screen.SavedCursor
import LihaLinux.Screen.Scrolling
import LihaLinux.Strings.Scanners
import LihaLinux.Strings.Strtok
import LihaLinux.Strings.StrtokCalls
import LihaLinux.Strings.Tokens
import LihaLinux.Tty.Answers
import LihaLinux.Tty.Canonical
import LihaLinux.Tty.ConsoleWrite
import LihaLinux.Tty.Cooking
import LihaLinux.Tty.LineCount
import LihaLinux.Tty.Output
import LihaLinux.Tty.PutQueue
import LihaLinux.Tty.Queue
import LihaLinux.Tty.Read
import LihaLinux.Tty.ReadAlarm
import LihaLinux.Tty.ReadProgress
import LihaLinux.Tty.Serial
