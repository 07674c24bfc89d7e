import Topic0.BaseTransition
import Topic0.BaseTable
import Topic0.BaseParts
import Topic0.BaseGroup
import Topic0.BaseKeyset
import Topic0.BaseDecimal
import Topic0.BaseLoop
import Topic0.BaseScript
import Topic0.BaseCoding
import Topic0.BaseMemo
import Topic0.BaseTimed
import Topic0.BaseTemplate
import Topic0.BaseOrder
import Topic0.BaseEmit
import Topic0.BaseUtf8
import Topic0.BaseHistory
import Topic0.BaseSimulation
import Topic0.BaseEncoded
import Topic0.BaseSlice
import Topic0.SharedModel
import Topic0.SchemaModel
import Topic0.StoreQueue
import Topic0.StoreTables
import Topic0.StoreUnitOfWork
import Topic0.StoreFraming
import Topic0.ReorgCheck
import Topic0.SourceFetch
import Topic0.IngestAgreement
import Topic0.SourceAux
import Topic0.SourceRange
import Topic0.PipelinePlan
import Topic0.PipelineSource
import Topic0.PipelineDrive
import Topic0.PipelineGapFree
import Topic0.PipelineRestart
import Topic0.PipelineQuota
import Topic0.PipelineBounds
import Topic0.PipelinePrefix
import Topic0.SourceCalls
import Topic0.SourceVolume
import Topic0.SourceSplit
import Topic0.SourceSpend
import Topic0.SourceWarm
import Topic0.ReorgProgress
import Topic0.ReorgRewind
import Topic0.ReorgRepair
import Topic0.TipLoop
import Topic0.TipCoverage
import Topic0.TipFallback
import Topic0.TipProbe
import Topic0.DecodeRange
import Topic0.DecodeResync
import Topic0.StoreChains
import Topic0.DecodeWorkers
import Topic0.DecodeLease
import Topic0.DecodeFence
import Topic0.DecodeDedup
import Topic0.DecodeUpserted
import Topic0.DecodeDrained
import Topic0.DecodeConverge
import Topic0.QueueLedger
import Topic0.QueueOrder
import Topic0.QueueSnapshot
import Topic0.AbiColumns
import Topic0.AbiValues
import Topic0.AbiRouting
import Topic0.AbiNames
import Topic0.AbiLabels
import Topic0.AbiWritable
import Topic0.AbiFilter
import Topic0.AbiSnake
import Topic0.MigratorDdl
import Topic0.MigratorApply
import Topic0.MigratorDeliver
import Topic0.MigratorPreflight
import Topic0.MigratorHistory
import Topic0.QueryRepository
import Topic0.QueryPaging
import Topic0.QueryCache
import Topic0.QueryStale
import Topic0.QueryText
import Topic0.QuerySchemas
import Topic0.QueryExposure
import Topic0.SharedHex
import Topic0.AbiJson
import Topic0.StoreStatements
import Topic0.StoreBigint
import Topic0.QueryConnection
import Topic0.QueryShown
import Topic0.BaseKeysetWalk
import Topic0.QueryWalk
import Topic0.QueryIndexed
import Topic0.DecodeStuck
import Topic0.BaseBackoff
import Topic0.SourceRetry
import Topic0.AbiDecoder
import Topic0.DecodeIndexed
import Topic0.BaseRanking
import Topic0.DecodeProgress
import Topic0.DecodeCatchUp
import Topic0.ConfigValidate
import Topic0.RunChains
