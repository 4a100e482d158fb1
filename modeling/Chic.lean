import Chic.AbcXyz
import Chic.Aging
import Chic.Analytics
import Chic.ApiErrors
import Chic.AppDb
import Chic.AtomicConsolidation
import Chic.Backtrack
import Chic.Binary64
import Chic.Bridge
import Chic.BridgeDrivers
import Chic.BridgeOrder
import Chic.BridgeReconciliation
import Chic.CacheKey
import Chic.CacheMoves
import Chic.CacheStore
import Chic.CacheTransparency
import Chic.CachingClient
import Chic.Calendar
import Chic.Capture
import Chic.CaptureMarks
import Chic.Comparison
import Chic.Condense
import Chic.ConsolidatedReply
import Chic.Consolidation
import Chic.DayWalk
import Chic.DeadStock
import Chic.Dedupe
import Chic.DemandSource
import Chic.DemandStats
import Chic.Dialog
import Chic.DialogMoves
import Chic.Dict
import Chic.DriverEffects
import Chic.ForgetButton
import Chic.GapFree
import Chic.History
import Chic.Json
import Chic.Keyboards
import Chic.MatrixLaws
import Chic.MessageOrder
import Chic.Money
import Chic.Olap
import Chic.Pagination
import Chic.Pareto
import Chic.PartialWrites
import Chic.PercentChange
import Chic.Preferences
import Chic.PrefixSums
import Chic.ProductChanges
import Chic.Profile
import Chic.ProfileHygiene
import Chic.ProfileMoves
import Chic.Prompts
import Chic.Purchase
import Chic.PurchaseCoverage
import Chic.PyLines
import Chic.PyText
import Chic.RateLimiter
import Chic.RateWindow
import Chic.ReorderRule
import Chic.ReplyParser
import Chic.ReportLaws
import Chic.ReportLines
import Chic.Reports
import Chic.Retries
import Chic.RetryProtocol
import Chic.RingWindow
import Chic.Rounding
import Chic.Segments
import Chic.SessionIsolation
import Chic.SessionReads
import Chic.Snapshot
import Chic.SourceChunks
import Chic.StableSort
import Chic.StockValue
import Chic.SummaryFolding
import Chic.Tally
import Chic.TopItem
import Chic.Trace
import Chic.TurnAdjacency
import Chic.UserIsolation
import Chic.VipShare
import Chic.While
import Chic.Windowing
import Chic.WriteOnce
import Chic.Xyz
import Chic.DateText
import Chic.CoverageDates
import Chic.SinceFilter
import Chic.Moments
import Chic.PeriodDays
import Chic.Guardrail
import Chic.NumberReader
import Chic.DigitRuns
import Chic.Decimal
import Chic.DecimalContext
import Chic.NumberFormat
import Chic.SlipDetection
import Chic.StripSpans
import Chic.ToolResult
import Chic.KeptPieces
import Chic.TruncatedResult
import Chic.DecimalMoney
import Chic.Base64
import Chic.Bot
import Chic.BotPolicy
import Chic.WebhookRuns
import Chic.UpdateOnce
import Chic.Delivery
import Chic.Presses
import Chic.SessionKey
import Chic.AnswerReport
import Chic.Photos
import Chic.Html
import Chic.MemoryPage
import Chic.DocumentRequest
import Chic.PreviousMonth
import Chic.AppRuns
import Chic.Conversations
import Chic.SpanSessions
import Chic.Grouping
import Chic.StoreStock
import Chic.DocumentSearch
import Chic.DemandLineage
import Chic.Arithmetic
import Chic.Computed
import Chic.ComputedComparison
import Chic.ComputedAbc
import Chic.ComputedBridge
import Chic.CodePoints
