import Nachos.Bin.BootedProgram
import Nachos.Bin.Coff2Noff
import Nachos.Bin.Conversion
import Nachos.Bin.SectionLoop
import Nachos.Devices.Clients
import Nachos.Devices.DiskFile
import Nachos.Devices.DiskLatency
import Nachos.Devices.LineBlock
import Nachos.Devices.SynchDisk
import Nachos.Devices.SynchRead
import Nachos.Devices.SynchWrite
import Nachos.Filesys.AtomicCreate
import Nachos.Filesys.BitMapSet
import Nachos.Filesys.Consistency
import Nachos.Filesys.CopyPrint
import Nachos.Filesys.Directory
import Nachos.Filesys.DiskOwnership
import Nachos.Filesys.FileHeader
import Nachos.Filesys.FileSizes
import Nachos.Filesys.FileStore
import Nachos.Filesys.FileSystem
import Nachos.Filesys.FullNames
import Nachos.Filesys.Layout
import Nachos.Filesys.OpenFile
import Nachos.Filesys.Requests
import Nachos.Filesys.Room
import Nachos.Filesys.StaleHandles
import Nachos.Filesys.StoreRefinement
import Nachos.Filesys.Stub
import Nachos.Filesys.TableAccess
import Nachos.Lib.Bytes
import Nachos.Lib.CArray
import Nachos.Lib.CInt
import Nachos.Lib.CString
import Nachos.Lib.Decimal
import Nachos.Lib.HostFile
import Nachos.Lib.Matching
import Nachos.Lib.Programs
import Nachos.Lib.Runs
import Nachos.Lib.Segments
import Nachos.Lib.Shares
import Nachos.Lib.StableQueue
import Nachos.Lib.Sums
import Nachos.Lib.Tilings
import Nachos.Machine.Architecture
import Nachos.Machine.ByteMemory
import Nachos.Machine.Crashes
import Nachos.Machine.Decode
import Nachos.Machine.DrainLoop
import Nachos.Machine.Exceptions
import Nachos.Machine.Instructions
import Nachos.Machine.Interrupt
import Nachos.Machine.Lockstep
import Nachos.Machine.Memory
import Nachos.Machine.MipsI
import Nachos.Machine.Mult
import Nachos.Machine.SameTick
import Nachos.Machine.UserSpace
import Nachos.Network.OrderedMail
import Nachos.Network.PostOffice
import Nachos.Test.Mergesort
import Nachos.Test.Quicksort
import Nachos.Threads.Carcasses
import Nachos.Threads.Conservation
import Nachos.Threads.Effects
import Nachos.Threads.Kernel
import Nachos.Threads.Levels
import Nachos.Threads.List
import Nachos.Threads.Scheduling
import Nachos.Threads.SortedList
import Nachos.Threads.TimeSlices
import Nachos.Userprog.AddrSpace
import Nachos.Userprog.Alternation
import Nachos.Userprog.BadExecutable
import Nachos.Userprog.BitMap
import Nachos.Userprog.CallSpecs
import Nachos.Userprog.ConsoleInput
import Nachos.Userprog.DeletedPcbs
import Nachos.Userprog.ExecSlots
import Nachos.Userprog.ExitRelease
import Nachos.Userprog.FileFormat
import Nachos.Userprog.FileReading
import Nachos.Userprog.FrameUse
import Nachos.Userprog.Frames
import Nachos.Userprog.Handshake
import Nachos.Userprog.InputBuffers
import Nachos.Userprog.IntCopies
import Nachos.Userprog.Isolation
import Nachos.Userprog.JoinExit
import Nachos.Userprog.JoinParent
import Nachos.Userprog.Loader
import Nachos.Userprog.LoaderAgreement
import Nachos.Userprog.LoaderLog
import Nachos.Userprog.LoaderWrites
import Nachos.Userprog.Multiprogram
import Nachos.Userprog.NumberStream
import Nachos.Userprog.Ownership
import Nachos.Userprog.PingPong
import Nachos.Userprog.PrintInt
import Nachos.Userprog.Process
import Nachos.Userprog.ProcessSteps
import Nachos.Userprog.ReadCalls
import Nachos.Userprog.ReadInt
import Nachos.Userprog.RegisterFile
import Nachos.Userprog.SchedulingCalls
import Nachos.Userprog.SemTable
import Nachos.Userprog.SlotTable
import Nachos.Userprog.StringCopies
import Nachos.Userprog.SystemCalls
import Nachos.Userprog.UserBuffers
import Nachos.Userprog.UserSemaphores
import Nachos.Userprog.WriteCall
import Nachos.Userprog.WriteInt
