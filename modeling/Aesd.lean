import Aesd.Lib.CircularWindow
import Aesd.Lib.Blocks
import Aesd.Lib.Segments
import Aesd.Lib.BoundedFifo
import Aesd.Lib.Runs
import Aesd.Driver.CircularBuffer
import Aesd.Driver.Fifo
import Aesd.Driver.CharDriver
import Aesd.Driver.Device
import Aesd.Driver.WriteSpec
import Aesd.Driver.ReadSpec
import Aesd.Driver.DriverRuns
import Aesd.Driver.Refinement
import Aesd.Driver.Cleanup
import Aesd.Lib.Records
import Aesd.Server.Calls
import Aesd.Server.Worker
import Aesd.Server.WorkerStep
import Aesd.Server.MainLoop
import Aesd.Server.Kernel
import Aesd.Server.Descriptors
import Aesd.Server.Isolation
import Aesd.Server.History
import Aesd.Server.FileRecords
import Aesd.Server.FileEcho
import Aesd.Driver.RingAdds
import Aesd.Driver.ReadSlices
import Aesd.Driver.FailedCalls
import Aesd.Driver.WriteBounds
import Aesd.Server.BufferBounds
import Aesd.Server.FileSections
import Aesd.Server.CreateFailures
import Aesd.Server.TornWrites
import Aesd.Server.Startup
import Aesd.Server.FailedStartups
import Aesd.Server.DeviceFile
import Aesd.Server.DeviceRecords
import Aesd.Server.DeviceEcho
import Aesd.Driver.ReadPositions
import Aesd.Lib.Files
import Aesd.Finder.Writer
import Aesd.Finder.Overwrites
import Aesd.Lib.LinkedList
import Aesd.Server.ThreadJoins
import Aesd.Driver.ConcurrentCalls
import Aesd.Lib.Atomicity
import Aesd.Lib.Frames
import Aesd.Driver.CallProgress
import Aesd.Driver.ConcurrentLines
import Aesd.Driver.Sessions
import Aesd.Lib.Claims
import Aesd.Server.Progress
import Aesd.Server.Shutdown
import Aesd.Lib.DescriptorTables
import Aesd.Server.Daemon
import Aesd.Server.Streams
import Aesd.Examples.SystemCalls
import Aesd.Examples.ThreadRuns
import Aesd.Lib.Timers
import Aesd.Server.MemorySteps
import Aesd.Server.TimeStamps
import Aesd.Server.MemoryRefinement
