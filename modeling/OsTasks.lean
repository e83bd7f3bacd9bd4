import OsTasks.FileServer.PoolDelivered
import OsTasks.FileServer.DispatchActed
import OsTasks.Signal.Delivery
import OsTasks.Signal.Wakeups
import OsTasks.Signal.Acknowledgement
import OsTasks.Shell.Deadlock
import OsTasks.Echo.Content
import OsTasks.Transfer.SharedMemoryContent
import OsTasks.Transfer.MessageQueue
import OsTasks.Transfer.NamedFifo
import OsTasks.Integral.Partition
import OsTasks.Integral.GatherFirst
import OsTasks.Shell.Plumbing
import OsTasks.Shell.Composition
import OsTasks.Transfer.SharedMemoryRounds
import OsTasks.Transfer.SharedMemoryRepeat
import OsTasks.Echo.Progress
import OsTasks.Echo.Bounds
import OsTasks.FileServer.DispatchPasses
import OsTasks.Signal.Codec
import OsTasks.FileServer.DispatchReady
import OsTasks.Backup.Commands
import OsTasks.Backup.Daemon
import OsTasks.Backup.Steps
import OsTasks.Backup.Copies
import OsTasks.Backup.Watches
import OsTasks.Backup.WatchTable
import OsTasks.Backup.Vanished
import OsTasks.Backup.Traversal
import OsTasks.Backup.History
import OsTasks.Backup.Recovery
import OsTasks.Lib.ScanNumber
import OsTasks.Lib.CutNumber
import OsTasks.Integral.TaskText
import OsTasks.Integral.GatherPieces
import OsTasks.Integral.Segments
import OsTasks.Lib.Rounding
import OsTasks.Integral.RoundTrip
import OsTasks.Lib.Strtok
import OsTasks.Shell.Parser
import OsTasks.Lib.Words
import OsTasks.Shell.ParserWords
import OsTasks.Shell.ParserRoundTrip
import OsTasks.Shell.Spacing
import OsTasks.Shell.Session
import OsTasks.Shell.Cuts
import OsTasks.Shell.ExactCommands
import OsTasks.Integral.MonteCarlo
import OsTasks.Integral.Threads
import OsTasks.Integral.Estimate
import OsTasks.Integral.Load
import OsTasks.Integral.GatherReads
import OsTasks.Integral.GatherPasses
import OsTasks.Lib.Inet
import OsTasks.Integral.Registration
import OsTasks.Integral.Master
import OsTasks.Integral.MasterResult
import OsTasks.Integral.Shares
import OsTasks.Integral.WorkerInput
import OsTasks.Integral.Sampling
import OsTasks.Integral.Seeds
import OsTasks.FileServer.Decoding
import OsTasks.FileServer.Server
import OsTasks.FileServer.ClientTable
import OsTasks.FileServer.ReplyNames
import OsTasks.FileServer.MalformedCommands
import OsTasks.FileServer.Assertions
import OsTasks.Lib.Glob
import OsTasks.Lib.ShellWords
import OsTasks.Lib.ShellRoundTrip
import OsTasks.Lib.ShellPlain
import OsTasks.Backup.ShellText
import OsTasks.Lib.Mutex
import OsTasks.Lib.Ring
import OsTasks.Threads.Counting
import OsTasks.Threads.ProdCons
import OsTasks.Threads.ProdConsFifo
import OsTasks.Threads.ProdConsProgram
import OsTasks.Transfer.TokenAnswers
import OsTasks.Backup.EventBuffer
import OsTasks.Integral.Mean
import OsTasks.Integral.Distributed
import OsTasks.Backup.OpenDirs
import OsTasks.Backup.TreeWatches
import OsTasks.Lib.Grouping
import OsTasks.FileServer.BlockOrder
import OsTasks.Integral.DistributedMean
import OsTasks.Integral.Discovery
