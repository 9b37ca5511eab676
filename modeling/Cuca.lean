import Cuca.Anthropic.Lossless
import Cuca.Client.Replay
import Cuca.Local.CachePaths
import Cuca.Local.CallsRoundTrip
import Cuca.Local.DownloadRuns
import Cuca.Local.EngineJobs
import Cuca.Local.EngineStreams
import Cuca.Local.Governor
import Cuca.Local.Model.DeltaScan
import Cuca.Local.Model.DensePlan
import Cuca.Local.Model.ExpertDots
import Cuca.Local.Model.QmmProduct
import Cuca.Local.Model.RamTierRuns
import Cuca.Local.Model.Rollback
import Cuca.Local.Model.RouteKernel
import Cuca.Local.OutputSplits
import Cuca.Local.Speculation
import Cuca.Local.TemplateJson
import Cuca.Local.TemplateTime
import Cuca.Local.Tokenizer.Lossless
import Cuca.Local.Tokenizer.Ranges
import Cuca.Local.Tokenizer.Specials
import Cuca.Local.Tokenizer.Table
import Cuca.Memory.CompactionPairs
import Cuca.Memory.FileReads
import Cuca.Memory.GraphSnapshot
import Cuca.Memory.Offload
import Cuca.Plugins.CacheCredit
import Cuca.Plugins.GuardrailAttempts
import Cuca.Plugins.Hitl
import Cuca.Plugins.Sandbox
import Cuca.Plugins.SubagentSpawns
import Cuca.Provider.Seams
import Cuca.Redaction.Reference
import Cuca.Services.Acquire
import Cuca.Services.Aging
import Cuca.Services.BackendUrl
import Cuca.Services.CacheRefines
import Cuca.Services.Cancel
import Cuca.Services.EntityIds
import Cuca.Services.FailoverRuns
import Cuca.Services.Lanes
import Cuca.Services.OrchestratorRuns
import Cuca.Services.Pace
import Cuca.Services.RateMints
import Cuca.Services.Rejections
import Cuca.Services.ReplayRuns
import Cuca.Services.RetryAfter
import Cuca.Services.Settles
import Cuca.Services.VectorQuery
import Cuca.Session.Forks
import Cuca.Sse.Fields
