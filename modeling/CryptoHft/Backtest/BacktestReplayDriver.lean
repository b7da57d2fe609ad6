import CryptoHft.Storage.PagedReplay
import CryptoHft.Strategy.ExampleStrategies

/-!
# The backtest replay driver

`BacktestReplayDriver::run` of `include/backtest/backtest_replay_driver.hpp` and
`run_backtest` of `src/main.cpp`.  Recorded quotes and trades go to the simulated
sink and then to the strategies; recorded submissions and responses are skipped.
The sink and the manager have no storage, so the log does not change.
-/

namespace CryptoHft
namespace Backtest

open Lib Storage Strategy

structure BacktestReplayStats where
  eventsProcessed : UInt64
  quoteEvents : UInt64
  tradeEvents : UInt64
  ignoredExecutionEvents : UInt64

/-- The strategies of the manager, what they act on, and the counts of the driver. -/
structure BacktestRun (R : Type) where
  strategies : List (ExampleStrategy R)
  rt : Runtime R
  stats : BacktestReplayStats

namespace BacktestReplayDriver

variable {R : Type} [Field R] [LinearOrder R]

/-- A recorded quote goes to the sink and then to the strategies. -/
def onQuote (clocks : Clocks) (b : BacktestRun R) (quote : QuoteUpdate R) : BacktestRun R :=
  let rt := b.rt.perform clocks (fun system => .onQuote quote system)
  let (strategies, rt) := ExampleStrategy.replayQuote clocks quote b.strategies rt
  ⟨strategies, rt, { b.stats with quoteEvents := b.stats.quoteEvents + 1 }⟩

/-- A recorded trade goes to the sink and then to the strategies. -/
def onTrade (clocks : Clocks) (b : BacktestRun R) (tradeEvent : TradeEvent R) : BacktestRun R :=
  let rt := b.rt.perform clocks (fun system => .onTrade tradeEvent system)
  let (strategies, rt) := ExampleStrategy.replayTrade clocks tradeEvent b.strategies rt
  ⟨strategies, rt, { b.stats with tradeEvents := b.stats.tradeEvents + 1 }⟩

def ignore (b : BacktestRun R) : BacktestRun R :=
  { b with
    stats := { b.stats with
      ignoredExecutionEvents := b.stats.ignoredExecutionEvents + 1 } }

/-- One turn of the inner loop; `std::get` throws if the payload has the wrong kind. -/
def processEvent (clocks : Clocks) (b : BacktestRun R) (event : StorageEvent R) :
    Option (BacktestRun R) :=
  let b := { b with stats := { b.stats with eventsProcessed := b.stats.eventsProcessed + 1 } }
  match event.type, event.payload with
  | .quoteUpdate, .quoteUpdate quote => some (onQuote clocks b quote)
  | .marketTrade, .tradeEvent tradeEvent => some (onTrade clocks b tradeEvent)
  | .tradeSubmitted, _ => some (ignore b)
  | .orderResponse, _ => some (ignore b)
  | _, _ => none

/-- The inner loop. -/
def processEvents (clocks : Clocks) (b : Option (BacktestRun R)) (events : List (StorageEvent R)) :
    Option (BacktestRun R) :=
  events.foldl (fun b event => b.bind (fun b => processEvent clocks b event)) b

/-- `run`, with at most `fuel` fetches. -/
def run (clocks : Clocks) (replay : ReplayRequest → ReplayBatch R) (fuel : Nat)
    (request : ReplayRequest) (b : BacktestRun R) : Option (BacktestRun R) :=
  (drive (fun _ => replay) (fun b batch => processEvents clocks b batch.events) fuel 0 request
    (some b)).join

end BacktestReplayDriver

section RunBacktest

variable {R : Type} [Field R] [LinearOrder R]

/-- `run_backtest` up to the replay: the strategies are added and started. -/
def startBacktest (clocks : Clocks) : BacktestRun R :=
  let rt : Runtime R := ⟨.create none ⟨0, 0, true⟩, 0, [], 0, 0⟩
  let (btcMaker, rt) :=
    SimpleMarketMaker.create clocks 1 (text "BTC_USDT") 10.0 0.001 rt
  let (ethMaker, rt) :=
    SimpleMarketMaker.create clocks 2 (text "ETH_USDT") 15.0 0.01 rt
  let btcMomentum := SimpleMomentum.create 3 (text "BTC_USDT") 0.5 0.0005
  ⟨[.marketMaker btcMaker, .marketMaker ethMaker, .momentum btcMomentum].map
    ExampleStrategy.start, rt, ⟨0, 0, 0, 0⟩⟩

/-- `stop_all` after the replay. -/
def stopBacktest (clocks : Clocks) (b : BacktestRun R) : BacktestRun R :=
  let (strategies, rt) := ExampleStrategy.stopAll clocks b.strategies b.rt
  ⟨strategies, rt, b.stats⟩

/-- `run_backtest` over what a storage replays. -/
def runBacktest (clocks : Clocks) (replay : ReplayRequest → ReplayBatch R) (fuel : Nat) :
    Option (BacktestRun R) :=
  (BacktestReplayDriver.run clocks replay fuel { ReplayRequest.all with maxEvents := 1024 }
    (startBacktest clocks)).map (stopBacktest clocks)

/-- What a submitted order asks for. -/
structure OrderSummary (R : Type) where
  ticker : CString 16
  side : OrderSide
  type : OrderType
  quantity : R
  price : R
deriving DecidableEq

/-- The orders of a backtest and the figures that it prints. -/
structure BacktestReport (R : Type) where
  orders : List (OrderSummary R)
  filled : UInt64
  rejected : UInt64
  grossNotional : R
  fees : R
deriving DecidableEq

def summary (trade : Trade R) : OrderSummary R :=
  ⟨trade.ticker, trade.side, trade.type, trade.quantity, trade.price⟩

def BacktestRun.report (b : BacktestRun R) : BacktestReport R where
  orders := b.rt.orders.map summary
  filled := b.rt.sink.stats.filled
  rejected := b.rt.sink.stats.rejected
  grossNotional := b.rt.sink.stats.grossNotional
  fees := b.rt.sink.stats.fees

end RunBacktest

end Backtest
end CryptoHft
