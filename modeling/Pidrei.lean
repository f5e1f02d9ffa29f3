import Pidrei.ToolChanges
import Pidrei.SessionTree
import Pidrei.CompactionEffect
import Pidrei.WriteFailure
import Pidrei.ToolPairing
import Pidrei.EventProtocol
import Pidrei.MessageQueues
import Pidrei.ReplayPairing
import Pidrei.CompactionPartition
import Pidrei.ToolBatch
import Pidrei.SseChunking
import Pidrei.EditTool
import Pidrei.MutationQueue
import Pidrei.ReadTool
import Pidrei.OutputSnapshot
import Pidrei.FileLock
import Pidrei.SettingsProcesses
import Pidrei.SettingsFailures
import Pidrei.SettingsLoads
import Pidrei.SettingsReload
import Pidrei.MainScreenSession
import Pidrei.EditorVertical
import Pidrei.PasteExpansion
import Pidrei.AuthStorage
import Pidrei.StdioFraming
import Pidrei.AuthReads
import Pidrei.ResponseStream
import Pidrei.OverlayKeys
import Pidrei.RefreshLog
import Pidrei.RequestCorrelation
import Pidrei.SandboxCustody
import Pidrei.SessionRestructuring
import Pidrei.RunInput
import Pidrei.RetryBookkeeping
import Pidrei.NestedCallEvents
import Pidrei.QueueHandback
import Pidrei.ContextRecording
import Pidrei.TurnEvents
import Pidrei.GitCheckouts
import Pidrei.WirePairing
import Pidrei.MiddleTruncation
import Pidrei.TruncationHonesty
import Pidrei.AnchoredTools
import Pidrei.SessionMigration
import Pidrei.SessionHeaderScan
import Pidrei.DisplayDiff
import Pidrei.PatchMarkers
import Pidrei.FuzzyNormalization
import Pidrei.EditOverlay
import Pidrei.FuzzyEdits
import Pidrei.Library.JsonDecoder
import Pidrei.JsonRepair
import Pidrei.RepairedScan
import Pidrei.RepairedParse
import Pidrei.ToolValidation
import Pidrei.ToolArguments
import Pidrei.NestedCallRecord
import Pidrei.FullOutput
import Pidrei.FileTracking
import Pidrei.BranchSummary
import Pidrei.RecoveryOmission
import Pidrei.StdinBuffer
import Pidrei.SequenceExtraction
import Pidrei.StdinChunks
import Pidrei.RefusedKeys
import Pidrei.BracketedPaste
import Pidrei.AnsiCodes
import Pidrei.GraphemeWidth
import Pidrei.AnsiCodeTracker
import Pidrei.ColumnSlices
import Pidrei.AsciiFastPaths
import Pidrei.SliceContents
import Pidrei.SliceCells
import Pidrei.DefaultTools
import Pidrei.StackSizes
