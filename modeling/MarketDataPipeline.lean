import MarketDataPipeline.Book.BestPrices
import MarketDataPipeline.Book.BookAgreement
import MarketDataPipeline.Book.BookSteps
import MarketDataPipeline.Book.BookWithBIT
import MarketDataPipeline.Book.Capacity
import MarketDataPipeline.Book.DeadHandles
import MarketDataPipeline.Book.DepthTally
import MarketDataPipeline.Book.LevelAggregation
import MarketDataPipeline.Book.LevelTotals
import MarketDataPipeline.Book.MarketDepth
import MarketDataPipeline.Book.OrderBook
import MarketDataPipeline.Book.OrderPool
import MarketDataPipeline.Book.OrderRenaming
import MarketDataPipeline.Book.PlainBook
import MarketDataPipeline.Book.PoolAllocator
import MarketDataPipeline.Book.PriceLevelBook
import MarketDataPipeline.Book.PriceLevelTrades
import MarketDataPipeline.Book.PriceTimePriority
import MarketDataPipeline.Book.QueueEdits
import MarketDataPipeline.Book.QueueRefinement
import MarketDataPipeline.Book.QueueSteps
import MarketDataPipeline.Book.Queues
import MarketDataPipeline.Book.Quotes
import MarketDataPipeline.Book.ServedQueues
import MarketDataPipeline.Book.SharedPool
import MarketDataPipeline.Book.TradeExecution
import MarketDataPipeline.Book.VolumeQueries
import MarketDataPipeline.Cache.AccessFrequency
import MarketDataPipeline.Cache.FrequencyBuckets
import MarketDataPipeline.Cache.IndexInvariant
import MarketDataPipeline.Cache.LFUAccess
import MarketDataPipeline.Cache.LFUCache
import MarketDataPipeline.Cache.LFUIndex
import MarketDataPipeline.Cache.LFURefinement
import MarketDataPipeline.Cache.PoolPartition
import MarketDataPipeline.Cache.ReplacementPolicy
import MarketDataPipeline.Core.Endian
import MarketDataPipeline.Core.LFUPolicy
import MarketDataPipeline.Core.LFURuns
import MarketDataPipeline.Core.LinkRing
import MarketDataPipeline.Core.LowestSetBit
import MarketDataPipeline.Core.Machine
import MarketDataPipeline.Core.PrefixCount
import MarketDataPipeline.Core.PriceTime
import MarketDataPipeline.Core.Registry
import MarketDataPipeline.Core.Ring
import MarketDataPipeline.Core.Walk
import MarketDataPipeline.Core.WordTree
import MarketDataPipeline.Exchange.Exchange
import MarketDataPipeline.Exchange.LimitBook
import MarketDataPipeline.Exchange.MarketMaker
import MarketDataPipeline.Exchange.Refinement
import MarketDataPipeline.Exchange.RisingPrices
import MarketDataPipeline.Fenwick.ArrayRuns
import MarketDataPipeline.Fenwick.BinaryLifting
import MarketDataPipeline.Fenwick.FenwickTree
import MarketDataPipeline.Fenwick.Int64Range
import MarketDataPipeline.Pipeline.Accounting
import MarketDataPipeline.Pipeline.BookRuns
import MarketDataPipeline.Pipeline.CreatedFlag
import MarketDataPipeline.Pipeline.Crossing
import MarketDataPipeline.Pipeline.EnqueueOutcome
import MarketDataPipeline.Pipeline.FailedRegistration
import MarketDataPipeline.Pipeline.HotLoop
import MarketDataPipeline.Pipeline.Isolation
import MarketDataPipeline.Pipeline.LevelFlow
import MarketDataPipeline.Pipeline.MessageStep
import MarketDataPipeline.Pipeline.Midpoint
import MarketDataPipeline.Pipeline.OrderConservation
import MarketDataPipeline.Pipeline.OrderIds
import MarketDataPipeline.Pipeline.PrefixTrie
import MarketDataPipeline.Pipeline.SoloBook
import MarketDataPipeline.Pipeline.SymbolCapacity
import MarketDataPipeline.Pipeline.SymbolStreams
import MarketDataPipeline.Pipeline.Timestamps
import MarketDataPipeline.Pipeline.TradeRouting
import MarketDataPipeline.Pipeline.TrieCalls
import MarketDataPipeline.Pipeline.TrieCapacity
import MarketDataPipeline.Pipeline.TrieMap
import MarketDataPipeline.Pipeline.TrieNodes
import MarketDataPipeline.Pipeline.TrieShape
import MarketDataPipeline.Pipeline.WorkingSet
import MarketDataPipeline.Umem.Batches
import MarketDataPipeline.Umem.Draining
import MarketDataPipeline.Umem.EndToEnd
import MarketDataPipeline.Umem.FrameCirculation
import MarketDataPipeline.Umem.FrameConservation
import MarketDataPipeline.Umem.MarketData
import MarketDataPipeline.Umem.PacketDelivery
import MarketDataPipeline.Wire.FilterAgreement
import MarketDataPipeline.Wire.FilterStatistics
import MarketDataPipeline.Wire.Frame
import MarketDataPipeline.Wire.ItchMessage
import MarketDataPipeline.Wire.ItchParser
import MarketDataPipeline.Wire.RoundTrip
import MarketDataPipeline.Wire.XdpFilter
