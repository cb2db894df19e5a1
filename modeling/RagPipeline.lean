import RagPipeline.Stage2.IdsApart
import RagPipeline.Stage2.ServerIsolation
import RagPipeline.Stage2.UserIsolation
import RagPipeline.Lib.Ownership
import RagPipeline.Stage2.Compute
import RagPipeline.Stage2.Continuity
import RagPipeline.Stage2.Fingerprints
import RagPipeline.Stage2.Store
import RagPipeline.Stage2.Identity
import RagPipeline.Analytics.Fold
import RagPipeline.Analytics.Capture
import RagPipeline.Analytics.Exactness
import RagPipeline.Retention.Tearing
import RagPipeline.Retention.Frontier
import RagPipeline.Analytics.Tickets
import RagPipeline.Retention.Erasure
import RagPipeline.Lib.Decimals
import RagPipeline.Analytics.Roles
import RagPipeline.Analytics.RollupRows
import RagPipeline.Stage2.Regroup
import RagPipeline.Analytics.Publication
import RagPipeline.Stage2.Lossless
import RagPipeline.Stage2.SkipEquivalence
import RagPipeline.Analytics.Tally
import RagPipeline.Analytics.Reads
import RagPipeline.Analytics.TwoTier
import RagPipeline.Ingest.SourceQueue
import RagPipeline.Notifications.Cursor
import RagPipeline.Notifications.Alerts
import RagPipeline.Notifications.Rollup
import RagPipeline.Ingest.RemoteFetch
import RagPipeline.Lib.Gaps
import RagPipeline.Stage2.GapBound
import RagPipeline.Stage2.ResponseOwner
import RagPipeline.Chunking.MultiPass
import RagPipeline.Chunking.TextKept
import RagPipeline.Analytics.Reconcile
import RagPipeline.Ingest.ParseInsert
import RagPipeline.Ingest.ChunkCuts
import RagPipeline.Lib.Runs
import RagPipeline.Queueing.Coalesce
import RagPipeline.Stage2.Stability
import RagPipeline.Lib.KeyedRows
import RagPipeline.Queueing.Finalize
import RagPipeline.Queueing.Consume
import RagPipeline.Analytics.Ledger
import RagPipeline.Analytics.Records
import RagPipeline.Analytics.Counters
import RagPipeline.Analytics.SkipPath
import RagPipeline.Stage2.Parked
import RagPipeline.Stage2.StreamState
import RagPipeline.Stage2.HeadLane
import RagPipeline.Stage2.Interleaving
import RagPipeline.Analytics.PlanTiles
import RagPipeline.Analytics.Lookups
import RagPipeline.Analytics.LookupBatches
import RagPipeline.Analytics.LookupPeriods
import RagPipeline.Analytics.ExactFold
import RagPipeline.Analytics.Cascade
import RagPipeline.Analytics.Concerns
import RagPipeline.Analytics.RowOrder
import RagPipeline.Analytics.NormaliseTotal
import RagPipeline.Analytics.Settle
import RagPipeline.Analytics.SettleOrder
import RagPipeline.Analytics.FoldTotal
import RagPipeline.Analytics.SettleTotal
import RagPipeline.Analytics.CascadeFold
import RagPipeline.Analytics.SketchBytes
import RagPipeline.Lib.Interleave
import RagPipeline.Notifications.Pacing
import RagPipeline.Ingest.StageRange
import RagPipeline.Notifications.Drain
import RagPipeline.Analytics.LookupLatest
import RagPipeline.Ingest.PhysicalLines
import RagPipeline.Lib.Gregorian
import RagPipeline.Retention.Partitions
import RagPipeline.Analytics.Translate
import RagPipeline.Analytics.NumericKeys
import RagPipeline.Lib.Substitute
import RagPipeline.Notifications.Redact
import RagPipeline.Notifications.RedactNested
import RagPipeline.Analytics.Percentile
import RagPipeline.AtRisk.Model
import RagPipeline.AtRisk.Replay
import RagPipeline.AtRisk.Board
import RagPipeline.Chunking.SplitLimit
import RagPipeline.Analytics.StoredForms
import RagPipeline.Analytics.StoredRoundTrip
import RagPipeline.Web.Idempotency
import RagPipeline.Stage2.Sealer
import RagPipeline.Forecast.SeriesPages
import RagPipeline.Chunking.EmbeddingQueue
import RagPipeline.Analytics.Features
import RagPipeline.Retention.Purge
import RagPipeline.Forecast.Targets
import RagPipeline.Lib.Upserts
import RagPipeline.Forecast.Plan
import RagPipeline.Forecast.Nights
import RagPipeline.Teams.BindingMirror
import RagPipeline.Teams.Questions
import RagPipeline.Forecast.RunLedger
import RagPipeline.Chunking.Hierarchical
import RagPipeline.Stage2.TimeBounds
import RagPipeline.AtRisk.Archive
