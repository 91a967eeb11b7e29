import Hippo.AgenticRuns
import Hippo.AgenticStranding
import Hippo.AgenticRetries
import Hippo.AgenticProjection
import Hippo.ShellEnrichment
import Hippo.ShellRuns
import Hippo.FallbackFiles
import Hippo.FallbackRecovery
import Hippo.IngestBuffer
import Hippo.MemoryStore
import Hippo.MemoryRuns
import Hippo.MemoryLease
import Hippo.MemoryLinks
import Hippo.MemoryLinkRows
import Hippo.MemoryIngest
import Hippo.MemoryConsistency
import Hippo.MemoryRoutes
import Hippo.MemoryWedge
import Hippo.MemoryIndexTotal
import Hippo.MemoryPolls
import Hippo.MemoryWrites
import Hippo.MemoryAbsence
import Hippo.MemoryFleet
import Hippo.MemoryConfirmation
import Hippo.MemoryProjection
import Hippo.Classification
import Hippo.ClassificationRuns
import Hippo.ClassificationPublication
import Hippo.KnowledgeWriters
import Hippo.OrphanVectors
import Hippo.NodeOwnership
import Hippo.ProjectNames
import Hippo.ProjectAttribution
import Hippo.Interruption
import Hippo.PagedFile
import Hippo.Restore
import Hippo.RestoreSafety
import Hippo.Retention
import Hippo.Backup
import Hippo.BackupState
import Hippo.BackupShipping
import Hippo.BackupOutbox
import Hippo.BackupRuns
import Hippo.BackupArtifact
import Hippo.BackupReports
import Hippo.BackupSafety
import Hippo.Selection
import Hippo.RetentionPlan
import Hippo.Backtracking
import Hippo.Outline
import Hippo.MarkdownChunking
import Hippo.MarkdownOutline
import Hippo.ByteReader
import Hippo.PageDiff
import Hippo.PageDiffReading
import Hippo.PageDiffAgreement
import Hippo.PageDiffRoundTrip
import Hippo.Handout
import Hippo.ShellClaims
import Hippo.BrowserClaims
import Hippo.ClaudeClaims
import Hippo.EntityNames
import Hippo.EntityNamespaces
import Hippo.PagedSweep
import Hippo.OpencodePolling
import Hippo.OpencodeClaims
import Hippo.WindowedQueue
import Hippo.SettlingSweep
import Hippo.SkipSoundness
import Hippo.Segmenter
import Hippo.SegmentUsage
import Hippo.Transcript
import Hippo.CodexSession
import Hippo.CodexUsage
import Hippo.CodexTelescope
import Hippo.CursorSession
import Hippo.PiSession
import Hippo.FinishedSegments
import Hippo.ClaudeSession
import Hippo.ClaudeUsage
import Hippo.ClaudeContent
import Hippo.ClaudeVerification
import Hippo.BrainClaudeSession
import Hippo.PromptSegmentation
import Hippo.ClaudePrompts
import Hippo.BrainClaudePrompts
import Hippo.SegmentationAgreement
import Hippo.FileVersions
import Hippo.ClaudeWatcher
import Hippo.WatcherSafety
import Hippo.JsonComparison
import Hippo.AgentEvalSchema
import Hippo.AgentEval
import Hippo.AgentEvalRecords
import Hippo.AgentEvalLines
import Hippo.PayloadGc
import Hippo.PayloadSweep
import Hippo.TextSweep
import Hippo.PayloadExactness
import Hippo.AgentEvalRuns
import Hippo.AgentEvalReplay
import Hippo.TextRetention
import Hippo.Watchdog
import Hippo.AlarmLifecycle
import Hippo.AlarmRateLimit
import Hippo.AlarmLessons
import Hippo.AlarmLessonCounts
import Hippo.AlarmLessonRuns
import Hippo.UniqueIndex
import Hippo.LegacyBackfill
import Hippo.LegacyHistory
import Hippo.LegacyDrop
import Hippo.EnvelopeDelivery
import Hippo.EnvelopeIdempotence
import Hippo.EnvelopeRuns
import Hippo.JsonText
import Hippo.JsonReading
import Hippo.PauseState
import Hippo.PauseAgreement
import Hippo.MarginalRelevance
import Hippo.RevisionPruning
import Hippo.EscapeRepair
import Hippo.ConflictDetection
import Hippo.RagPrompt
import Hippo.RetrievalEligibility
import Hippo.ProjectFilter
import Hippo.Words
import Hippo.ProjectStability
import Hippo.RetrievalFilters
import Hippo.TopicCaps
import Hippo.RetrievalNoninterference
import Hippo.EntityStability
import Hippo.RedactionPasses
import Hippo.FreshnessScan
import Hippo.LessonClusters
import Hippo.WorkflowEnrichment
import Hippo.WorkflowRuns
import Hippo.WorkflowOnce
import Hippo.Worklist
import Hippo.LinkCycles
import Hippo.SelfDelimiting
import Hippo.ContentHash
import Hippo.JsonDicts
import Hippo.PythonLoads
import Hippo.RankingText
import Hippo.DecisionRules
import Hippo.JevResponse
import Hippo.Rerank
import Hippo.RerankSafety
import Hippo.JsonRedaction
import Hippo.RedactionNoninterference
import Hippo.Draining
import Hippo.PauseHandshake
import Hippo.PauseFlags
import Hippo.PauseSafety
import Hippo.PauseClient
import Hippo.SessionPolling
import Hippo.PollingSafety
import Hippo.MatchQuery
import Hippo.FtsQuery
import Hippo.Framing
import Hippo.EmbeddingStore
import Hippo.EmbeddingWrites
import Hippo.EmbeddingModels
import Hippo.EmbeddingDrift
import Hippo.GhPoll
import Hippo.GhNotices
import Hippo.GhDrillDown
import Hippo.EvalLinkage
import Hippo.EvalLinkageChange
import Hippo.EvalVerdictSafety
