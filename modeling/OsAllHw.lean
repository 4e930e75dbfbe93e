import OsAllHw.Lib.Bytes
import OsAllHw.Lib.Dll
import OsAllHw.Lib.Run
import OsAllHw.Lib.Prog
import OsAllHw.Lib.Record
import OsAllHw.Lib.FirstFit
import OsAllHw.Lib.Stable
import OsAllHw.Lib.Words
import OsAllHw.Lib.Path
import OsAllHw.Lib.Lines
import OsAllHw.Lib.Exec
import OsAllHw.Lib.Bounded
import OsAllHw.Lib.Device
import OsAllHw.Lib.Message
import OsAllHw.Lib.Simulate
import OsAllHw.Malloc.Kernel
import OsAllHw.Malloc.Code
import OsAllHw.Malloc.Header
import OsAllHw.Malloc.Histo
import OsAllHw.Malloc.Blocks
import OsAllHw.Malloc.Rep
import OsAllHw.Malloc.Keeps
import OsAllHw.Malloc.Alloc
import OsAllHw.Malloc.Free
import OsAllHw.Malloc.Realloc
import OsAllHw.Malloc.Mapped
import OsAllHw.Malloc.World
import OsAllHw.Malloc.Shape
import OsAllHw.Malloc.Steps
import OsAllHw.Malloc.Runs
import OsAllHw.Malloc.Tiling
import OsAllHw.Malloc.Histogram
import OsAllHw.Malloc.Isolation
import OsAllHw.Malloc.Alignment
import OsAllHw.Malloc.BestFit
import OsAllHw.Malloc.Release
import OsAllHw.Malloc.Orders
import OsAllHw.Malloc.Undo
import OsAllHw.Malloc.Contents
import OsAllHw.Malloc.Failures
import OsAllHw.Malloc2.Code
import OsAllHw.Malloc2.Blocks
import OsAllHw.Malloc2.FreeList
import OsAllHw.Malloc2.Rep
import OsAllHw.Malloc2.Calls
import OsAllHw.Malloc2.Runs
import OsAllHw.Malloc2.Refines
import OsAllHw.Malloc2.Failures
import OsAllHw.Allocators
import OsAllHw.Server.Queue
import OsAllHw.Server.QueueCalls
import OsAllHw.Server.Model
import OsAllHw.Server.Spec
import OsAllHw.Server.Capacity
import OsAllHw.Server.Connections
import OsAllHw.Server.Random
import OsAllHw.Server.Request
import OsAllHw.Server.Headers
import OsAllHw.Server.Rio
import OsAllHw.Server.Response
import OsAllHw.Server.Replies
import OsAllHw.Server.Pool
import OsAllHw.Server.Unbounded
import OsAllHw.Server.Progress
import OsAllHw.Shell.Jobs
import OsAllHw.Shell.JobTable
import OsAllHw.Shell.Times
import OsAllHw.Shell.Expiry
import OsAllHw.Shell.Deadlines
import OsAllHw.Shell.Text
import OsAllHw.Shell.Operators
import OsAllHw.Shell.Arguments
import OsAllHw.Shell.Background
import OsAllHw.Shell.Model
import OsAllHw.Shell.Calls
import OsAllHw.Shell.Outline
import OsAllHw.Shell.Linked
import OsAllHw.Shell.Tracking
import OsAllHw.Shell.Discarded
import OsAllHw.Shell.Forks
import OsAllHw.Shell.Signals
import OsAllHw.Shell.Executions
import OsAllHw.Shell.Directory
import OsAllHw.Shell.JobCommands
import OsAllHw.Shell.Atomic
import OsAllHw.Shell.Quit
import OsAllHw.Shell.Numerals
import OsAllHw.Shell.Descriptors
import OsAllHw.Shell.Redirection
import OsAllHw.Shell.Cat
import OsAllHw.Shell.Pipeline
import OsAllHw.Shell.Plumbing
import OsAllHw.Shell.StandardFiles
import OsAllHw.Shell.PipelineRuns
import OsAllHw.Tasks.Weights
import OsAllHw.Tasks.Ancestor
import OsAllHw.Tasks.Descendants
import OsAllHw.Tasks.Calls
import OsAllHw.Lib.Arrays
import OsAllHw.Malloc.Statistics
import OsAllHw.Malloc.Memory
import OsAllHw.Malloc.Versions
import OsAllHw.Malloc1
import OsAllHw.Malloc2.Memory
