import Zeron.Lib.Lexicographic
import Zeron.Lib.BlockScan
import Zeron.Lib.Board
import Zeron.Lib.Machine
import Zeron.Lib.Versioned
import Zeron.Lib.Writes
import Zeron.Registry.Collect
import Zeron.Registry.Wipe
import Zeron.Registry.Agreement
import Zeron.Registry.Accepted
import Zeron.Engine.Drain
import Zeron.Lib.Utf8
import Zeron.Lib.ByteReads
import Zeron.Lib.Leb128
import Zeron.Lib.JsonString
import Zeron.Wire.ChatFrames
import Zeron.Wire.DeviceFrames
import Zeron.Relay.Room
import Zeron.Relay.Calls
import Zeron.Rpc.Transparency
import Zeron.Harness.JsonRpc
import Zeron.Harness.Steers
import Zeron.Harness.Turns
import Zeron.Harness.OpenTools
import Zeron.Harness.Boundaries
import Zeron.Engine.RunJournal
import Zeron.Chat.CatchUp
import Zeron.Chat.PushQueue
import Zeron.Registry.Reseed
import Zeron.Registry.Cascade
import Zeron.Registry.DeviceMerge
import Zeron.Engine.Watches
import Zeron.Engine.CheckpointFetch
import Zeron.Engine.Auth
import Zeron.Engine.AccountSwaps
import Zeron.Update.WayBack
import Zeron.Edge.Folds
import Zeron.Edge.Dedupe
import Zeron.Edge.Checkpoint
import Zeron.Edge.Fragments
import Zeron.Ios.Sends
import Zeron.Ios.Joins
import Zeron.Doc.Parts
import Zeron.Doc.Segment
import Zeron.Doc.Join
import Zeron.Doc.TranscriptDelta
import Zeron.Doc.Split
import Zeron.Doc.Rebuild
import Zeron.Engine.DrainOrders
import Zeron.Engine.Subscriptions
import Zeron.Engine.LocalImport
import Zeron.Relay.Nudges
import Zeron.Sync.Dial
import Zeron.Rpc.Settling
import Zeron.Engine.DiffSync
import Zeron.Engine.ChangeLists
import Zeron.Engine.PatchText
import Zeron.Ui.Changes
import Zeron.Engine.DiffCapture
import Zeron.Lib.Base64
import Zeron.Engine.Uploads
import Zeron.Engine.UploadRuns
import Zeron.Ui.Attachments
import Zeron.Engine.Terminals
import Zeron.Engine.FileSearch
import Zeron.Syntax.Highlight
import Zeron.Ui.History
import Zeron.Ui.Mentions
import Zeron.Ui.Projection
import Zeron.Ui.EditorOffsets
import Zeron.Ui.UndoHistory
import Zeron.Ui.Mend
import Zeron.Ui.BracketGroups
import Zeron.Engine.Profile
import Zeron.Engine.CommitHistory
import Zeron.Lib.ByteSlices
import Zeron.Lib.Percent
import Zeron.Ios.Reentrancy
import Zeron.Ios.DeviceRelay
import Zeron.Ios.RegistryPushes
import Zeron.Doc.Privacy
import Zeron.Doc.WriterPlace
import Zeron.Harness.Normalize
import Zeron.Harness.Models
import Zeron.Engine.OrphanSweep
import Zeron.Engine.RowCreation
import Zeron.Ios.WorkspaceStore
import Zeron.Ios.MarkdownModel
import Zeron.Ui.Incremental
import Zeron.Ui.MentionLabels
import Zeron.Edge.UpdateLog
import Zeron.Registry.HlcOrder
import Zeron.Ui.Autolink
import Zeron.Harness.CleanLabel
import Zeron.Ui.Selection
import Zeron.Registry.Visits
