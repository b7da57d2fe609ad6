import CryptoHft.Lib.Runs
import CryptoHft.Lib.Word64
import CryptoHft.Lib.BoundedFifo
import CryptoHft.Lib.CString
import CryptoHft.Lib.Decimal
import CryptoHft.Lib.Json
import CryptoHft.Lib.JsonMembers
import CryptoHft.Lib.Lines
import CryptoHft.Lib.OrderedMap
import CryptoHft.Lib.Windows
import CryptoHft.Lib.Utf8
import CryptoHft.Lib.LevelQueue
import CryptoHft.Lib.Binary64
import CryptoHft.Types.Trade
import CryptoHft.Exchange.ResponseParser
import CryptoHft.Exchange.MessageBuilder
import CryptoHft.Exchange.MarketDataClient
import CryptoHft.Exchange.EventTimes
import CryptoHft.Exchange.LocalParsing
import CryptoHft.Exchange.MarketDataSession
import CryptoHft.Exchange.Heartbeats
import CryptoHft.Exchange.RealPrices
import CryptoHft.Exchange.FormatDouble
import CryptoHft.Exchange.CreateOrder
import CryptoHft.Exchange.SignedRequests
import CryptoHft.Exchange.SendQueue
import CryptoHft.Exchange.WebsocketClient
import CryptoHft.Exchange.AuthFirst
import CryptoHft.Exchange.ClosedClient
import CryptoHft.Exchange.ReconnectBound
import CryptoHft.Risk.RiskManager
import CryptoHft.Risk.ProfitAccounting
import CryptoHft.Risk.DecisionHistory
import CryptoHft.Risk.EntryPrice
import CryptoHft.Risk.RiskCheckedSink
import CryptoHft.Risk.NetPositionLimit
import CryptoHft.Risk.ReportedQuantity
import CryptoHft.Core.MpscQueue
import CryptoHft.Core.MpscInvariant
import CryptoHft.Core.MpscLinearizable
import CryptoHft.Core.MpscProgress
import CryptoHft.Core.SpscQueue
import CryptoHft.Core.PriorityQueue
import CryptoHft.Core.ConcurrentPriorityQueue
import CryptoHft.Core.OrderExecutor
import CryptoHft.Core.RateLimits
import CryptoHft.Core.ResponseDelivery
import CryptoHft.Core.ResponseAttribution
import CryptoHft.Core.ExecutionLoop
import CryptoHft.Core.DispatchOrder
import CryptoHft.Core.LoopProgress
import CryptoHft.Storage.StorageTypes
import CryptoHft.Storage.EventCodec
import CryptoHft.Exchange.ParsedText
import CryptoHft.Storage.JsonlStorage
import CryptoHft.Storage.JsonlInvariant
import CryptoHft.Storage.JsonlLossless
import CryptoHft.Storage.ClosingProgress
import CryptoHft.Storage.FlushCommits
import CryptoHft.Storage.FailingOutput
import CryptoHft.Storage.WithoutWorker
import CryptoHft.Storage.Restart
import CryptoHft.Storage.CorruptLines
import CryptoHft.Storage.PagedReplay
import CryptoHft.Storage.LoadedOffsets
import CryptoHft.Storage.CrashRecovery
import CryptoHft.OrderBook.OrderBook
import CryptoHft.OrderBook.PriceLadder
import CryptoHft.OrderBook.MultiExchange
import CryptoHft.OrderBook.SnapshotTransfer
import CryptoHft.OrderBook.ConsolidatedQuote
import CryptoHft.Backtest.SimulatedExecutionSink
import CryptoHft.Backtest.SinkRun
import CryptoHft.Backtest.SinkLedger
import CryptoHft.Backtest.LimitOrders
import CryptoHft.Backtest.MarketOrders
import CryptoHft.Backtest.CancelByClientId
import CryptoHft.Backtest.Noninterference
import CryptoHft.Strategy.StorageReplayDriver
import CryptoHft.Strategy.SimulatedSession
import CryptoHft.Strategy.LiveOrderExecutorSink
import CryptoHft.Strategy.StorageFailures
import CryptoHft.Strategy.RefusedSubmissions
import CryptoHft.Strategy.ExampleStrategies
import CryptoHft.Backtest.BacktestReplayDriver
import CryptoHft.Backtest.ClockDependence
import CryptoHft.Backtest.RealFills
import CryptoHft.Ipc.CommandServer
import CryptoHft.Ipc.CommandGrammar
import CryptoHft.Ipc.HftClient
