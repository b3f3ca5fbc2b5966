import GraphLogSketch.Library.AtomicAdds
import GraphLogSketch.Library.BatchedLines
import GraphLogSketch.Library.Betweenness
import GraphLogSketch.Library.Binary64
import GraphLogSketch.Library.BinarySearch
import GraphLogSketch.Library.Compaction
import GraphLogSketch.Library.Csv
import GraphLogSketch.Library.DampedFixedPoint
import GraphLogSketch.Library.DampedPush
import GraphLogSketch.Library.ExchangeRuns
import GraphLogSketch.Library.Exchanges
import GraphLogSketch.Library.FirstMax
import GraphLogSketch.Library.GreedyCover
import GraphLogSketch.Library.Grouping
import GraphLogSketch.Library.LeastLoaded
import GraphLogSketch.Library.LevelSearch
import GraphLogSketch.Library.NumberLines
import GraphLogSketch.Library.PartialMaps
import GraphLogSketch.Library.PositionalWrites
import GraphLogSketch.Library.Predecessors
import GraphLogSketch.Library.RejectionSampling
import GraphLogSketch.Library.Reservation
import GraphLogSketch.Library.Search
import GraphLogSketch.Library.ShortestPaths
import GraphLogSketch.Library.SignificantBits
import GraphLogSketch.Library.TextLines
import GraphLogSketch.Library.TextStreams
import GraphLogSketch.Library.Threads
import GraphLogSketch.Library.Tiling
import GraphLogSketch.Library.TradeRecords
import GraphLogSketch.Library.Triangles
import GraphLogSketch.Library.Words
import GraphLogSketch.Microbench.BenchmarkRuns
import GraphLogSketch.Microbench.EditInput
import GraphLogSketch.Microbench.EditScalability
import GraphLogSketch.Microbench.EditScalabilityLarge
import GraphLogSketch.Microbench.LargeRuns
import GraphLogSketch.Microbench.LsCsrRuns
import GraphLogSketch.Microbench.Pipelines
import GraphLogSketch.Microbench.StartupFraction
import GraphLogSketch.Microbench.VertexValidation
import GraphLogSketch.Microbench.WorkloadReaders
import GraphLogSketch.Microbench.WrittenLines
import GraphLogSketch.Scea.BetweennessCentrality
import GraphLogSketch.Scea.CompressedRows
import GraphLogSketch.Scea.GaloisGraphs
import GraphLogSketch.Scea.GraphTypes
import GraphLogSketch.Scea.LevelSssp
import GraphLogSketch.Scea.LevelWorklists
import GraphLogSketch.Scea.LsCsr
import GraphLogSketch.Scea.MutableGraph
import GraphLogSketch.Scea.PageRank
import GraphLogSketch.Scea.PageRankAccuracy
import GraphLogSketch.Scea.Representations
import GraphLogSketch.Scea.SerialBetweennessCentrality
import GraphLogSketch.Scea.SortedGraphs
import GraphLogSketch.Scea.SsspBfs
import GraphLogSketch.Scea.TriangleCounting
import GraphLogSketch.Scea.TriangleTriples
import GraphLogSketch.Scripts.ColumnConvert
import GraphLogSketch.Scripts.CommercialBalance
import GraphLogSketch.Scripts.CommercialMarket
import GraphLogSketch.Scripts.CommercialRecords
import GraphLogSketch.Scripts.CommercialSuppliers
import GraphLogSketch.Scripts.DivideIntoBatches
import GraphLogSketch.Scripts.EdgeListConvert
import GraphLogSketch.Scripts.EdgeListErrors
import GraphLogSketch.Scripts.ExtractNodes
import GraphLogSketch.Scripts.GraphConvert
import GraphLogSketch.Scripts.HostLoads
import GraphLogSketch.Scripts.IncompleteRecords
import GraphLogSketch.Scripts.InputGen
import GraphLogSketch.Scripts.OldDestination
import GraphLogSketch.Scripts.RecordFiles
import GraphLogSketch.Scripts.Shufbel
import GraphLogSketch.Scripts.ShufbelReads
import GraphLogSketch.Scripts.VhostConvert
import GraphLogSketch.Wf4.Cancel
import GraphLogSketch.Wf4.CancelLedger
import GraphLogSketch.Wf4.CoffeeSales
import GraphLogSketch.Wf4.DataSet
import GraphLogSketch.Wf4.EdgeAmounts
import GraphLogSketch.Wf4.EdgeMessage
import GraphLogSketch.Wf4.EdgeProbability
import GraphLogSketch.Wf4.Graph
import GraphLogSketch.Wf4.InfluenceGreedy
import GraphLogSketch.Wf4.InfluenceLedger
import GraphLogSketch.Wf4.InfluenceProgress
import GraphLogSketch.Wf4.InfluenceReport
import GraphLogSketch.Wf4.InfluenceResult
import GraphLogSketch.Wf4.InfluenceUpdates
import GraphLogSketch.Wf4.InfluentialNode
import GraphLogSketch.Wf4.InfluentialNodes
import GraphLogSketch.Wf4.MainResult
import GraphLogSketch.Wf4.MainRun
import GraphLogSketch.Wf4.MessageRounds
import GraphLogSketch.Wf4.MirrorCoherence
import GraphLogSketch.Wf4.NodeValues
import GraphLogSketch.Wf4.PartialSetMessage
import GraphLogSketch.Wf4.ProbabilityTotals
import GraphLogSketch.Wf4.Projection
import GraphLogSketch.Wf4.ProposalLedger
import GraphLogSketch.Wf4.Quiesce
import GraphLogSketch.Wf4.QuiesceAttempt
import GraphLogSketch.Wf4.QuiesceGranting
import GraphLogSketch.Wf4.QuiesceProgress
import GraphLogSketch.Wf4.QuiesceResult
import GraphLogSketch.Wf4.QuiesceTrading
import GraphLogSketch.Wf4.ReachableSet
import GraphLogSketch.Wf4.ReachableSetWalk
import GraphLogSketch.Wf4.ReachableSets
import GraphLogSketch.Wf4.ReachableSetsLedger
import GraphLogSketch.Wf4.ReachableSetsProgress
import GraphLogSketch.Wf4.ReachableSetsResult
import GraphLogSketch.Wf4.ReachableSetsRun
import GraphLogSketch.Wf4.ReachableSetsSearch
import GraphLogSketch.Wf4.SetGenerators
import GraphLogSketch.Wf4.Sync
import GraphLogSketch.Wf4.TradeSet
import GraphLogSketch.Wf4.VertexIds
