import FusionMlx.Kernels.BatchRows
import FusionMlx.Scheduler.GreedyRefinement
import FusionMlx.Kernels.RequestSlabs
import FusionMlx.Cache.FreshBlocks
import FusionMlx.Cache.CounterRuns
import FusionMlx.Cache.CallbackLocks
import FusionMlx.Cache.RadixIsolation
import FusionMlx.Cache.TakenBlocks
import FusionMlx.Cache.ServedPrefixes
import FusionMlx.Scheduler.AdmissionStall
import FusionMlx.Cache.TrimmedLayers
import FusionMlx.Cache.SnapshotReload
import FusionMlx.Service.AdmittedCalls
import FusionMlx.ToolParsers.MistralArrays
import FusionMlx.Reasoning.Gemma4Agreement
import FusionMlx.ToolParsers.HarmonyToolAgreement
import FusionMlx.Cache.DiffusionAccounts
import FusionMlx.Cache.HotCacheLedgers
import FusionMlx.Cache.Demotion
import FusionMlx.Cache.SsdEnforcement
import FusionMlx.Cache.SsdMap
import FusionMlx.Service.BodyDepthCap
import FusionMlx.Reasoning.UiTarsCuts
import FusionMlx.Service.BodySizeGuard
import FusionMlx.Speculative.DflashRounds
import FusionMlx.Speculative.PromptLookupRounds
import FusionMlx.Service.StreamLedger
import FusionMlx.Service.KvResume
import FusionMlx.Speculative.MtpRuns
import FusionMlx.Reasoning.ThinkingParser
import FusionMlx.Reasoning.ThinkingBudget
import FusionMlx.Cache.SnapshotMap
import FusionMlx.ToolParsers.Gemma4ToolAgreement
import FusionMlx.Scheduler.BoundaryPayloads
import FusionMlx.Pool.EngineReports
import FusionMlx.Speculative.DepthBounds
import FusionMlx.Speculative.SuffixExactness
import FusionMlx.Speculative.SpecDecodeStep
import FusionMlx.Scheduler.ExternalPrefill
import FusionMlx.Scheduler.StopStrings
import FusionMlx.Service.UrlSafety
import FusionMlx.Cache.ResponseFingerprint
import FusionMlx.Speculative.NGramBookkeeping
import FusionMlx.Kernels.PoolExhaustion
import FusionMlx.ToolCalling.RepairedPrefixes
import FusionMlx.Cache.WalkBack
import FusionMlx.Cache.SaltRendering
import FusionMlx.Cache.SnapshotCodec
import FusionMlx.Cache.RadixRuns
