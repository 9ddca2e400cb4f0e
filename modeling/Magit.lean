import Magit.Client.ConfigGet
import Magit.Client.Registry
import Magit.Client.TagDescription
import Magit.Client.Untracked
import Magit.Client.Worktrees
import Magit.Diff.RegionSelection
import Magit.Diff.VisitOffset
import Magit.Protocol.System
import Magit.Client.RefreshCache
import Magit.Client.RefLabels
import Magit.Emacs.Display
import Magit.Section.Tree
import Magit.Section.Visibility
import Magit.Section.Commands
import Magit.Section.Buffer
import Magit.Section.Runs
import Magit.Diff.Wash
import Magit.Diff.WashHunks
import Magit.Diff.WashHeaders
import Magit.Diff.WashFiles
import Magit.Section.CachedCommands
import Magit.Section.CacheInvariant
import Magit.Section.SameSlots
import Magit.Client.ProcessFilter
import Magit.Section.Refreshes
import Magit.Blame.Parse
import Magit.Blame.Records
import Magit.Blame.Pieces
import Magit.Blame.Overlays
import Magit.Client.HooksInfo
import Magit.Client.ModeBuffers
import Magit.Client.BranchRecords
import Magit.Client.ShowUntracked
import Magit.Client.WashLog
import Magit.Git.Subjects
import Magit.Git.UpstreamSubject
import Magit.Server.RequestKeys
import Magit.Diff.AdjustStarts
import Magit.Diff.HunkLine
import Magit.Diff.GotoPosition
import Magit.Diff.CachedWash
import Magit.Git.CherryMove
import Magit.Client.ProcessLog
import Magit.Client.ProcessOutput
import Magit.Client.ProcessTree
import Magit.Client.ProcessSections
import Magit.Git.WipRefs
import Magit.Emacs.TextProperty
import Magit.Section.Insert
import Magit.Section.Layout
import Magit.Section.Frames
import Magit.Section.InsertSteps
import Magit.Section.InsertFinish
import Magit.Section.Laminar
import Magit.Section.InsertedTree
import Magit.Diff.WashNames
import Magit.Client.FileStatus
import Magit.Git.Ranges
import Magit.Section.Subsections
import Magit.Section.ToggleChildren
import Magit.Section.Levels
import Magit.Section.Headings
import Magit.Section.Identity
import Magit.Section.Traversal
import Magit.Section.Movement
import Magit.Client.ProcessTruncate
import Magit.Emacs.WhileLoop
import Magit.Emacs.LineAt
import Magit.Emacs.SearchLine
import Magit.Rebase.Todo
import Magit.Rebase.CommitLine
import Magit.Rebase.SetAction
import Magit.Rebase.InstructionArea
import Magit.Rebase.MoveLine
import Magit.Client.RegionLines
import Magit.Client.BlobHistory
import Magit.Client.FormatSpec
import Magit.Emacs.Version
import Magit.Client.RepoVersions
import Magit.Client.Releases
import Magit.Emacs.HashTable
import Magit.Client.RepoNames
import Magit.Section.Search
import Magit.Section.Reached
import Magit.Section.Headers
import Magit.Emacs.Pieces
import Magit.Git.BranchSplit
import Magit.Git.Tracked
import Magit.Git.WipTips
import Magit.Git.WipAgain
import Magit.Git.Spinoff
import Magit.Emacs.Ring
import Magit.Commit.Message
import Magit.Commit.MessageRing
import Magit.Rebase.LineCommands
import Magit.Rebase.TodoRun
import Magit.Commit.Trailers
import Magit.Client.LocalBranchRows
import Magit.Diff.PartialPatch
import Magit.Rebase.Sequence
import Magit.Rebase.InsertSequence
import Magit.Section.Match
