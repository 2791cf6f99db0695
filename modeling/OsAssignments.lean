import OsAssignments.Lib.PartialMachine
import OsAssignments.MemoryManagement.Frames
import OsAssignments.MemoryManagement.JoinLiveness
import OsAssignments.MemoryManagement.JoinAsserts
import OsAssignments.MemoryManagement.Orphans
import OsAssignments.MemoryManagement.UserState
import OsAssignments.MemoryManagement.SchedulingOrder
import OsAssignments.MemoryManagement.FlatMemory
import OsAssignments.MemoryManagement.FrameReclamation
import OsAssignments.MemoryManagement.KernelBuffers
import OsAssignments.MemoryManagement.Replacement
import OsAssignments.MemoryManagement.ReadCall
import OsAssignments.MemoryManagement.MipsArithmetic
import OsAssignments.MemoryManagement.LinkedProgram
import OsAssignments.ProcessManagement.Join
import OsAssignments.ProcessManagement.Isolation
import OsAssignments.ProcessManagement.Loader
import OsAssignments.ProcessManagement.SystemCalls
import OsAssignments.ProcessManagement.CopyFromUser
import OsAssignments.ProcessManagement.ReadCall
import OsAssignments.ProcessManagement.ProgramCounters
import OsAssignments.ProcessManagement.Traps
import OsAssignments.ProcessManagement.TrapReturn
import OsAssignments.ProcessManagement.PageReuse
import OsAssignments.Filesys.DirectoryMap
import OsAssignments.Filesys.Navigation
import OsAssignments.Filesys.NamesRefinement
import OsAssignments.Filesys.Creation
import OsAssignments.Filesys.HeaderBounds
import OsAssignments.Filesys.OpenFiles
import OsAssignments.Filesys.OpenHandles
import OsAssignments.Filesys.SequentialAccess
import OsAssignments.Filesys.DiskRequests
import OsAssignments.Nachos.Devices
import OsAssignments.Nachos.ConsoleCalls
import OsAssignments.Rs232.Line
import OsAssignments.Rs232.BoundedQueue
import OsAssignments.Rs232.ReadErrors
import OsAssignments.Rs232.Sessions
