import Eureka.ExporterEncoding
import Eureka.AdaptiveIngester
import Eureka.IngestColumns
import Eureka.IngestChunk
import Eureka.PruningSoundness
import Eureka.Transcode
import Eureka.TransitionRuns
import Eureka.WalDurability
import Eureka.IngesterPipeline
import Eureka.PipelineInvariant
import Eureka.PipelineProgress
import Eureka.ByteText
import Eureka.Dispatcher
import Eureka.NumericQueries
import Eureka.QueryCounts
import Eureka.CoreService
import Eureka.AgbScan
import Eureka.QueryPaths
import Eureka.WalRoundTrip
import Eureka.StagedPruning
import Eureka.PlanCache
import Eureka.KafkaConsumer
import Eureka.MappingCache
import Eureka.StreamIngest
import Eureka.PromotionDaemon
import Eureka.IngestWorkers
import Eureka.WorkerHandles
import Eureka.WorkerBacklog
import Eureka.PinThreads
import Eureka.PipelineWakeups
import Eureka.TableExtraction
import Eureka.TranscodeIdempotence
import Eureka.WalAcknowledgment
import Eureka.JavaText
import Eureka.LogQLParser
import Eureka.SynthesizedQuery
import Eureka.LogQLSelectors
import Eureka.QueryExecution
import Eureka.TailSubscription
import Eureka.LiveTail
import Eureka.Occurrences
import Eureka.StringSearch
import Eureka.QuerySpacing
import Eureka.PromotionLayout
import Eureka.PromotionAlignment
import Eureka.SlicedComparison
import Eureka.Reconstruct
import Eureka.LineFilters
import Eureka.KafkaDelivery
import Eureka.PromotionBounds
import Eureka.ExportOutcomes
import Eureka.ScratchEviction
import Eureka.ScratchRuns
import Eureka.ScratchDownloads
import Eureka.ScratchKeys
import Eureka.SubscriptionErrors
import Eureka.TailHandler
import Eureka.IngestOutcomes
import Eureka.MatchingEvents
import Eureka.GatewayQueries
import Eureka.TailDelivery
import Eureka.WalTornWrites
import Eureka.CommandLine
import Eureka.KafkaBuffer
import Eureka.PromotionRuns
import Eureka.RangeQueries
import Eureka.PushRequests
import Eureka.PruningOrder
import Eureka.ShortExports
import Eureka.PlanCacheSizes
import Eureka.MockSimulator
import Eureka.ScratchPaths
import Eureka.StreamProtocol
import Eureka.ConcurrentQueries
