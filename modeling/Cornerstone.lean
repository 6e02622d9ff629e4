import Cornerstone.CommitRule
import Cornerstone.VoteOnce
import Cornerstone.EntryOrigin
import Cornerstone.ConfigFlag
import Cornerstone.ConfigChange
import Cornerstone.ConsensusSafety
import Cornerstone.Cluster
import Cornerstone.Elections
import Cornerstone.ElectionSafety
import Cornerstone.ServeOnce
import Cornerstone.DurableVote
import Cornerstone.CatchUp
import Cornerstone.PreCommit
import Cornerstone.GapFree
import Cornerstone.UrgentCommit
import Cornerstone.WrittenImage
import Cornerstone.MemoryWindow
import Cornerstone.PackTransfer
import Cornerstone.Reconcile
import Cornerstone.CompactedLog
import Cornerstone.SnapshotTransfer
import Cornerstone.NewServer
import Cornerstone.LogPack
import Cornerstone.NextIndex
import Cornerstone.WireBlocks
import Cornerstone.PtrRun
import Cornerstone.Quorums
import Cornerstone.WireSound
import Cornerstone.PeerMoves
import Cornerstone.PeerSet
import Cornerstone.OneRequest
import Cornerstone.ServedAtOnce
import Cornerstone.LostAck
import Cornerstone.SnapshotConfig
import Cornerstone.StoreStreams
import Cornerstone.LogSlices
import Cornerstone.FailedReads
import Cornerstone.CompactFiles
import Cornerstone.CompactRun
import Cornerstone.AsyncResult
import Cornerstone.CommitWait
import Cornerstone.BufferCalls
import Cornerstone.BufferKept
import Cornerstone.TypedBuffer
import Cornerstone.ConfigDecode
import Cornerstone.Shares
import Cornerstone.ConsensusRun
import Cornerstone.LogMatching
import Cornerstone.MatchedLogs
import Cornerstone.ClusterVotes
import Cornerstone.StateMachineSafety
import Cornerstone.CommittedLogs
import Cornerstone.LeaderLog
import Cornerstone.LogSync
import Cornerstone.LogSyncRun
import Cornerstone.StopWait
import Cornerstone.OfficeMoves
import Cornerstone.DelayedTask
import Cornerstone.ElectionTimer
import Cornerstone.Heartbeats
import Cornerstone.Electable
import Cornerstone.Committable
import Cornerstone.Restarts
import Cornerstone.ClientCalls
