import SpkEditor.Agent.AgentTail
import SpkEditor.Agent.ColdSend
import SpkEditor.Agent.InjectedMeta
import SpkEditor.Agent.OneShot
import SpkEditor.Agent.QueueOrder
import SpkEditor.Agent.ResaveEntries
import SpkEditor.Agent.SafetyNet
import SpkEditor.Agent.SessionEntry
import SpkEditor.Agent.ShellScan
import SpkEditor.Agent.Stamps
import SpkEditor.Agent.UploadGates
import SpkEditor.Diff.ComputeHunks
import SpkEditor.Diff.LineOperations
import SpkEditor.Diff.StagingRight
import SpkEditor.Diff.StreamingProof
import SpkEditor.Display.InlayMapProof
import SpkEditor.Git.AggregatorRuns
import SpkEditor.Git.AiPlanner
import SpkEditor.Git.BackupRuns
import SpkEditor.Git.ChunksRecovery
import SpkEditor.Git.GraphLayout
import SpkEditor.Git.PatchFormat
import SpkEditor.Git.RebaseRetry
import SpkEditor.Git.RepoLock
import SpkEditor.Git.Shelf
import SpkEditor.Git.SolutionResults
import SpkEditor.Remote.WireCodec
import SpkEditor.Replica.Subscription
import SpkEditor.Replica.TimeTravel
import SpkEditor.Replica.UndoWalk
import SpkEditor.Replica.VersionedSeek
import SpkEditor.Rope.ChunksReversed
import SpkEditor.Rope.Convert
import SpkEditor.Shell.Strictness
import SpkEditor.Solutions.AddMemberRuns
import SpkEditor.Solutions.Protection
import SpkEditor.Solutions.Replication
import SpkEditor.Solutions.WriteThrough
import SpkEditor.SumTree.FilterCursor
import SpkEditor.SumTree.TreeMap
import SpkEditor.Text.LineEnding
import SpkEditor.Text.LineIndents
import SpkEditor.Text.LocatorGaps
