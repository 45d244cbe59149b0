import RailwayDB.Lib.Except
import RailwayDB.Lib.Calls
import RailwayDB.Lib.Tiling
import RailwayDB.Core.PartitionIndex
import RailwayDB.Core.Block
import RailwayDB.Core.AttributeData
import RailwayDB.Core.StoredBlock
import RailwayDB.Core.MetaDataManager
import RailwayDB.Core.BlockManager
import RailwayDB.Core.IntervalQueryIndex
import RailwayDB.Core.HistoricalGraph
import RailwayDB.Core.InMemoryGraph
import RailwayDB.Proofs.Selection
import RailwayDB.Proofs.Codec
import RailwayDB.Proofs.AttributeData
import RailwayDB.Proofs.KeyOrder
import RailwayDB.Proofs.PartitionHistory
import RailwayDB.Lib.Pairing
import RailwayDB.Proofs.History
import RailwayDB.Proofs.NeighborList
import RailwayDB.Proofs.BlockFill
import RailwayDB.Proofs.BlockShape
import RailwayDB.Proofs.BlockCodec
import RailwayDB.Proofs.BlockRoundTrip
import RailwayDB.Proofs.BlockPartition
import RailwayDB.Lib.LruList
import RailwayDB.Proofs.BlockManager
import RailwayDB.Proofs.BlockCalls
import RailwayDB.Proofs.Recombine
import RailwayDB.Proofs.Candidate
import RailwayDB.Proofs.SmartLayout
import RailwayDB.Proofs.PlainLayout
import RailwayDB.Proofs.ExpirationMap
import RailwayDB.Proofs.ExpirationRun
import RailwayDB.Proofs.CandidateRun
import RailwayDB.Proofs.Representation
import RailwayDB.Proofs.Extension
import RailwayDB.Proofs.PresentVertices
import RailwayDB.Proofs.InternalEdges
import RailwayDB.Proofs.Flush
import RailwayDB.Proofs.Pipeline
import RailwayDB.Lib.ZeroOne
import RailwayDB.Core.QueryWorkload
import RailwayDB.Core.Cost
import RailwayDB.Core.OptimalCommon
import RailwayDB.Proofs.OptimalCommon
import RailwayDB.Proofs.OptimalNonOverlapping
import RailwayDB.Proofs.OptimalOverlapping
import RailwayDB.Lib.Greedy
import RailwayDB.Proofs.Cost
import RailwayDB.Proofs.QueryCover
import RailwayDB.Proofs.UsedPartitions
import RailwayDB.Core.VertexManager
import RailwayDB.Proofs.VertexManager
import RailwayDB.Proofs.IntervalQuery
import RailwayDB.Core.InteractionGraph
import RailwayDB.Proofs.InteractionGraph
import RailwayDB.Proofs.BlockSize
import RailwayDB.Proofs.FormedBlocks
import RailwayDB.Proofs.MapSize
import RailwayDB.Proofs.Slices
import RailwayDB.Proofs.AcceptedSlices
import RailwayDB.Proofs.FailedRead
import RailwayDB.Proofs.SliceCache
import RailwayDB.Proofs.ReplaceBlocks
import RailwayDB.Proofs.WrittenSize
import RailwayDB.Core.HashedWorkload
import RailwayDB.Core.SimulationConf
import RailwayDB.Proofs.QuerySummary
import RailwayDB.Proofs.QueryMix
import RailwayDB.Proofs.SimulatedWorkload
import RailwayDB.Core.Heuristic
import RailwayDB.Proofs.MergeSplit
import RailwayDB.Proofs.HeuristicNonOverlapping
import RailwayDB.Proofs.IOCost
import RailwayDB.Proofs.HeuristicOverlapping
import RailwayDB.Proofs.StorageSteps
import RailwayDB.Proofs.Sessions
import RailwayDB.Proofs.BlockIds
import RailwayDB.Proofs.IndexedBlocks
import RailwayDB.Proofs.EdgeTimes
import RailwayDB.Core.ByteBufferOperators
import RailwayDB.Proofs.BufferRoundTrip
import RailwayDB.Core.MetaDataFile
import RailwayDB.Proofs.PriorityQueue
import RailwayDB.Proofs.SchemaStats
import RailwayDB.Core.RunningStat
import RailwayDB.Lib.SampleStatistics
import RailwayDB.Proofs.RunningStat
import RailwayDB.Core.TweetLoader
import RailwayDB.Proofs.TweetTimes
import RailwayDB.Core.Traversal
import RailwayDB.Proofs.Traversal
import RailwayDB.Proofs.FocusedIndex
import RailwayDB.Proofs.FiledBlocks
import RailwayDB.Proofs.KeptEdges
import RailwayDB.Proofs.Reading
import RailwayDB.Proofs.RunQueries
import RailwayDB.Proofs.SliceAnswers
import RailwayDB.Core.QueryCollector
import RailwayDB.Core.Solvers
import RailwayDB.Proofs.BestPartitioning
import RailwayDB.Proofs.CollectedWorkload
import RailwayDB.Proofs.Tuning
import RailwayDB.Proofs.TuningRuns
