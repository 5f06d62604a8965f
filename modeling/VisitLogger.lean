import VisitLogger.SealSound
import VisitLogger.ScanStop
import VisitLogger.ScanRace
import VisitLogger.PushOrder
import VisitLogger.Writers
import VisitLogger.History
import VisitLogger.Pull
import VisitLogger.PullQueue
import VisitLogger.PullSound
import VisitLogger.PullMirror
import VisitLogger.Settled
import VisitLogger.PullRebuild
import VisitLogger.LogRace
import VisitLogger.SealRuns
import VisitLogger.SealRunsSound
import VisitLogger.SealArrivals
import VisitLogger.PullAlone
import VisitLogger.MoverErrors
import VisitLogger.Auth
import VisitLogger.Verify
import VisitLogger.Mover
import VisitLogger.VerifySound
import VisitLogger.SealValid
import VisitLogger.MoverSound
import VisitLogger.Steps
import VisitLogger.Listing
import VisitLogger.Day
import VisitLogger.Drain
import VisitLogger.StragglerRace
import VisitLogger.Retry
import VisitLogger.MoveRetry
import VisitLogger.MergeRace
import VisitLogger.Sealer
import VisitLogger.SealerSound
import VisitLogger.ReplayAgain
import VisitLogger.DayFiles
import VisitLogger.MergeReplay
import VisitLogger.ReplayStep
import VisitLogger.ReadBack
import VisitLogger.Reconcile
import VisitLogger.ReplayAccounts
import VisitLogger.RebuildAgain
import VisitLogger.Spellings
import VisitLogger.MoveAttempts
import VisitLogger.RewriteStops
import VisitLogger.Migrate
import VisitLogger.MigrateSound
import VisitLogger.Background
import VisitLogger.BackgroundSound
import VisitLogger.VisitTitles
import VisitLogger.IconRace
import VisitLogger.Enrolled
import VisitLogger.HighWater
import VisitLogger.Escaping
import VisitLogger.ReadingList
import VisitLogger.MachineId
import VisitLogger.ReadingListSound
import VisitLogger.MachineIdSound
import VisitLogger.DbDiff
import VisitLogger.DbDiffSound
import VisitLogger.Raising
import VisitLogger.SyncMain
import VisitLogger.SyncMainSound
import VisitLogger.ReadonlySql
import VisitLogger.ReadonlySqlPasses
import VisitLogger.ReadonlySqlSound
import VisitLogger.HostLog
import VisitLogger.HostLogSound
import VisitLogger.MigrateRows
import VisitLogger.MigrateFrame
import VisitLogger.MigrateEvents
import VisitLogger.Network
import VisitLogger.NetworkSound
import VisitLogger.Converge
import VisitLogger.SyncCompletes
import VisitLogger.HostQuery
import VisitLogger.Popup
import VisitLogger.PopupSound
import VisitLogger.SnapshotFiles
import VisitLogger.Streaks
import VisitLogger.Verifier
import VisitLogger.VerifierCommands
import VisitLogger.VerifierSound
import VisitLogger.ReadingReplica
import VisitLogger.VmDiff
import VisitLogger.PullOrder
