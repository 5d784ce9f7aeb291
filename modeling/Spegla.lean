import Spegla.BesideRuns
import Spegla.CalmDirs
import Spegla.CalmListings
import Spegla.CalmRemoval
import Spegla.CalmRuns
import Spegla.Container.CircularList
import Spegla.Container.CircularRuns
import Spegla.Container.Fifo
import Spegla.Container.FifoSearch
import Spegla.Container.Free
import Spegla.Container.HashClone
import Spegla.Container.HashTable
import Spegla.Container.Heap
import Spegla.Container.HeapWidth
import Spegla.Container.PatKeys
import Spegla.Container.PatWalk
import Spegla.Container.PatWalkRuns
import Spegla.Container.Patricia
import Spegla.Container.PatriciaRuns
import Spegla.Container.RandomLevel
import Spegla.Container.SkipList
import Spegla.Container.SkipMax
import Spegla.Container.SkipRuns
import Spegla.Container.Stack
import Spegla.Container.StackBlock
import Spegla.Container.Walks
import Spegla.Converges
import Spegla.CurDir
import Spegla.Directories
import Spegla.Download
import Spegla.ErrBuf
import Spegla.ErrFile
import Spegla.GetFile
import Spegla.Jftp.Calls
import Spegla.Jftp.Calm
import Spegla.Jftp.Commands
import Spegla.Jftp.Conn
import Spegla.Jftp.DataFds
import Spegla.Jftp.Directory
import Spegla.Jftp.Failures
import Spegla.Jftp.FileClose
import Spegla.Jftp.LocalFile
import Spegla.Jftp.Places
import Spegla.Jftp.Req
import Spegla.Jftp.Session
import Spegla.Jftp.Transfer
import Spegla.Jftp.WayBack
import Spegla.Lib.BitTree
import Spegla.Lib.Blocks
import Spegla.Lib.CString
import Spegla.Lib.EventLog
import Spegla.Lib.ExitState
import Spegla.Lib.Fields
import Spegla.Lib.FileTree
import Spegla.Lib.FtpReply
import Spegla.Lib.Gregorian
import Spegla.Lib.HeapOrder
import Spegla.Lib.Linked
import Spegla.Lib.LinkedRing
import Spegla.Lib.PathNormal
import Spegla.Lib.PathWalk
import Spegla.Lib.PosixCalls
import Spegla.Lib.PosixTotal
import Spegla.Lib.RingArray
import Spegla.Lib.ScratchFile
import Spegla.Lib.SortedJoin
import Spegla.Lib.StableSort
import Spegla.Lib.TreeRemoval
import Spegla.LineEnds
import Spegla.Listing
import Spegla.LocalDir
import Spegla.Merge
import Spegla.MirroredRuns
import Spegla.Names
import Spegla.NoDelete
import Spegla.NormalForm
import Spegla.NullPointers
import Spegla.Options.Argv
import Spegla.Options.CommentRows
import Spegla.Options.Comments
import Spegla.Options.ConfigFile
import Spegla.Options.ConfigRows
import Spegla.Options.Expand
import Spegla.Options.FileCalls
import Spegla.Options.FrontEnds
import Spegla.Options.GetOpt
import Spegla.Options.LastOpt
import Spegla.Options.Params
import Spegla.Options.Quotes
import Spegla.Options.RowRuns
import Spegla.Options.Sections
import Spegla.Options.Token
import Spegla.ParseRow
import Spegla.Patterns
import Spegla.Regex.Brackets
import Spegla.Regex.Code
import Spegla.Regex.Compile
import Spegla.Regex.Engine
import Spegla.Regex.Matcher
import Spegla.Regex.Must
import Spegla.Regex.Parser
import Spegla.Regex.Pass
import Spegla.Regex.Search
import Spegla.Regex.Total
import Spegla.Regex.Width
import Spegla.Regex.Writing
import Spegla.RemoteDir
import Spegla.Removing
import Spegla.Resume
import Spegla.Retries
import Spegla.RowFormat
import Spegla.RowMemory
import Spegla.RowYear
import Spegla.Runs
import Spegla.Settling
import Spegla.SkippedFiles
import Spegla.Skips
import Spegla.SpFile
import Spegla.SpfUtil
import Spegla.Steps
import Spegla.SymlinkResolve
import Spegla.SyncDir
import Spegla.TempFile
import Spegla.Updates
import Spegla.World
