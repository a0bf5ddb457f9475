import Mdfs.Lib.Trace
import Mdfs.Lib.Prog
import Mdfs.Lib.Pool
import Mdfs.Lib.Collection
import Mdfs.FileSystem.Content
import Mdfs.FileSystem.Interleave
import Mdfs.Lib.Document
import Mdfs.FileSystem.Documents
import Mdfs.Lib.Forest
import Mdfs.FileSystem.Console
import Mdfs.FileSystem.Places
import Mdfs.FileSystem.Names
import Mdfs.FileSystem.Tree
import Mdfs.Lib.Wire
import Mdfs.Lib.Memory
import Mdfs.Nodo.BlockStore
import Mdfs.MaRTA.JobConnection
import Mdfs.MaRTA.Nodes
import Mdfs.MaRTA.World
import Mdfs.MaRTA.Planning
import Mdfs.Job.Reduce
import Mdfs.Nodo.Reduce
import Mdfs.Relay
import Mdfs.MapRelay
import Mdfs.JobConfig
import Mdfs.Peers
import Mdfs.FileSystem.Paths
import Mdfs.FileSystem.Prompt
import Mdfs.FileSystem.Imports
import Mdfs.FileSystem.ResultPath
import Mdfs.FileSystem.CreatedDir
import Mdfs.Utils.Numbers
import Mdfs.FileSystem.BlockCommands
import Mdfs.FileSystem.ConsoleLine
import Mdfs.FileSystem.FullPath
import Mdfs.FileSystem.NodeStream
import Mdfs.FileBlocks
import Mdfs.FileSystem.NodePools
import Mdfs.MaRTA.FSConnection
import Mdfs.MaRTA.Ledger
import Mdfs.MaRTA.Turns
import Mdfs.MaRTA.MapPhase
import Mdfs.MaRTA.ReducePhase
import Mdfs.MaRTA.Steps
import Mdfs.MaRTA.Coverage
import Mdfs.MaRTA.Workload
import Mdfs.MaRTA.Placement
import Mdfs.MaRTA.JobIds
import Mdfs.Utils.Handshake
import Mdfs.Utils.Framing
import Mdfs.Job.Threads
import Mdfs.FailedNode
import Mdfs.Lib.Mapping
import Mdfs.Nodo.BinFile
import Mdfs.Nodo.TmpFile
import Mdfs.Routine
import Mdfs.Lib.Lines
import Mdfs.Nodo.Fetch
import Mdfs.Nodo.Joined
import Mdfs.FileSystem.Split
import Mdfs.Lib.Spread
import Mdfs.FileSystem.Capacity
import Mdfs.FileSystem.FileSize
import Mdfs.FileSystem.SplitRange
import Mdfs.FileSystem.NewCopy
import Mdfs.FileSystem.NodeBack
import Mdfs.FileSystem.DeleteTree
import Mdfs.Lib.Least
import Mdfs.Lib.Grouping
import Mdfs.MaRTA.Selection
import Mdfs.MaRTA.LeastLoaded
import Mdfs.MaRTA.Partition
import Mdfs.MaRTA.Rounds
import Mdfs.MaRTA.FinalNode
import Mdfs.MaRTA.MovedOff
import Mdfs.MaRTA.Amid
import Mdfs.MaRTA.PartialReduces
import Mdfs.MaRTA.CurrentCopies
import Mdfs.MaRTA.MostTemps
import Mdfs.FileSystem.Bitmap
import Mdfs.Nodo.Decoders
import Mdfs.Utils.ReceivedString
import Mdfs.MaRTA.TempNames
import Mdfs.Lib.MapReduce
import Mdfs.Lib.Runs
import Mdfs.Job.WordCount
import Mdfs.Nodo.Routines
import Mdfs.Nodo.Cluster
import Mdfs.JobResult
import Mdfs.FileSystem.Losses
import Mdfs.FileSystem.Space
import Mdfs.MaRTA.Session
import Mdfs.MaRTA.Crashes
import Mdfs.Lib.Links
import Mdfs.Connections
import Mdfs.Admission
