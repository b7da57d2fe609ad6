import CryptoHft.Backtest.SinkRun

/-!
# The example strategies

`SimpleMarketMaker` and `SimpleMomentum` of `include/strategy/example_strategies.hpp`,
with the parts of `include/strategy/strategy_base.hpp` they run on, in exact
arithmetic.

The market maker quotes around the middle of a quote, but not more often than
every 100 ms of `steady_clock`; the first interval starts when it is constructed.
The momentum strategy sends a market order when a trade is far enough from its
reference price.

A `Runtime` is what strategy code acts on: the sink, the counter of client order
ids, the orders submitted so far, and how often each clock was read.  `Clocks`
gives the readings.  The callbacks of the strategies print and count, so a call of
the sink is performed as a whole.  Event counters and names are left out.
-/

namespace CryptoHft
namespace Strategy

open Lib Storage Backtest

/-- Clock readings: of `steady_clock` in nanoseconds, and of the system clock by operation. -/
structure Clocks where
  steady : Nat → Int
  system : Nat → Nat → Int64

structure Runtime (R : Type) where
  sink : SimulatedExecutionSink (InMemoryStorage R) R Unit Unit
  orderIdCounter : UInt64
  orders : List (Trade R)
  steadyReadings : Nat
  operations : Nat

structure StrategyBase where
  strategyId : UInt32
  tickers : List Bytes
  active : Bool

def StrategyBase.tracksTicker (base : StrategyBase) (ticker : Bytes) : Bool :=
  base.tickers.isEmpty || base.tickers.any (fun candidate => candidate = ticker)

structure SimpleMarketMaker (R : Type) extends StrategyBase where
  spreadBps : R
  orderSize : R
  midPrice : R
  lastUpdate : Int

structure SimpleMomentum (R : Type) extends StrategyBase where
  thresholdPct : R
  orderSize : R
  lastPrice : R
  referencePrice : R
  tradeCount : Nat

/-- The strategies that `run_backtest` can add to its manager. -/
inductive ExampleStrategy (R : Type)
  | marketMaker (m : SimpleMarketMaker R)
  | momentum (m : SimpleMomentum R)

namespace Runtime

variable {R : Type}

/-- `steady_clock::now()`. -/
def steadyNow (clocks : Clocks) (rt : Runtime R) : Int × Runtime R :=
  (clocks.steady rt.steadyReadings, { rt with steadyReadings := rt.steadyReadings + 1 })

variable [Field R] [LinearOrder R]

/-- A call of the sink, with the system clock readings it takes. -/
def perform (clocks : Clocks) (rt : Runtime R)
    (call : (Nat → Int64) → SinkCall R Unit Unit) : Runtime R :=
  let system := clocks.system rt.operations
  { rt with
    sink := (rt.sink.perform ⟨call system, fun n => (system n, system n)⟩).2
    operations := rt.operations + 1 }

/-- `submit_trade` of `StrategyBase`. -/
def submitTrade (clocks : Clocks) (rt : Runtime R) (trade : Trade R) : Runtime R :=
  { rt.perform clocks (fun system =>
      .submitTrade trade (some ()) (some ()) (system 0) (system 1) (system 2)) with
    orders := rt.orders ++ [trade] }

end Runtime

section Orders

variable {R : Type} [Field R] [LinearOrder R]

def placeLimitOrder (clocks : Clocks) (base : StrategyBase) (ticker : Bytes) (side : OrderSide)
    (quantity price : R) (tif : TimeInForce) (exec : ExecType) (rt : Runtime R) : Runtime R :=
  if base.active = false then rt
  else
    let (trade, next) := Trade.createLimitOrder rt.orderIdCounter (clocks.system rt.operations 3)
      base.strategyId ticker side quantity price tif exec
    { rt with orderIdCounter := next }.submitTrade clocks trade

def placeMarketOrder (clocks : Clocks) (base : StrategyBase) (ticker : Bytes) (side : OrderSide)
    (quantity : R) (rt : Runtime R) : Runtime R :=
  if base.active = false then rt
  else
    let (trade, next) := Trade.createMarketOrder rt.orderIdCounter (clocks.system rt.operations 3)
      base.strategyId ticker side quantity
    { rt with orderIdCounter := next }.submitTrade clocks trade

end Orders

namespace SimpleMarketMaker

variable {R : Type}

/-- `kMinUpdateIntervalMs`. -/
def minUpdateIntervalMs : Int :=
  100

/-- The constructor reads the clock. -/
def create [Zero R] (clocks : Clocks) (id : UInt32) (ticker : Bytes) (spreadBps orderSize : R)
    (rt : Runtime R) : SimpleMarketMaker R × Runtime R :=
  let (now, rt) := rt.steadyNow clocks
  (⟨⟨id, [ticker], false⟩, spreadBps, orderSize, 0, now⟩, rt)

variable [Field R] [LinearOrder R]

def onQuote (clocks : Clocks) (quote : QuoteUpdate R) (s : SimpleMarketMaker R)
    (rt : Runtime R) : SimpleMarketMaker R × Runtime R :=
  if s.active = false then (s, rt)
  else
    let (now, rt) := rt.steadyNow clocks
    -- `duration_cast` to milliseconds truncates
    let elapsed := (now - s.lastUpdate).tdiv 1000000
    if elapsed < minUpdateIntervalMs then (s, rt)
    else
      let midPrice := (quote.bidPrice + quote.askPrice) / 2.0
      let halfSpread := midPrice * (s.spreadBps / 10000.0) / 2.0
      let rt := placeLimitOrder clocks s.toStrategyBase quote.ticker.bytes .buy s.orderSize
        (midPrice - halfSpread) .gtc .postOnly rt
      let rt := placeLimitOrder clocks s.toStrategyBase quote.ticker.bytes .sell s.orderSize
        (midPrice + halfSpread) .gtc .postOnly rt
      ({ s with lastUpdate := now, midPrice := midPrice }, rt)

/-- `on_stop`. -/
def onStop (clocks : Clocks) (s : SimpleMarketMaker R) (rt : Runtime R) : Runtime R :=
  match s.tickers with
  | [] => rt
  | ticker :: _ => rt.perform clocks (fun system => .cancelAllOrders ticker system)

end SimpleMarketMaker

namespace SimpleMomentum

variable {R : Type} [Field R] [LinearOrder R]

def create (id : UInt32) (ticker : Bytes) (thresholdPct orderSize : R) : SimpleMomentum R :=
  ⟨⟨id, [ticker], false⟩, thresholdPct, orderSize, 0, 0, 0⟩

def onTrade (clocks : Clocks) (tradeEvent : TradeEvent R) (s : SimpleMomentum R)
    (rt : Runtime R) : SimpleMomentum R × Runtime R :=
  let price := tradeEvent.price
  if s.active = false then (s, rt)
  else if s.referencePrice = 0 then
    ({ s with referencePrice := price, lastPrice := price }, rt)
  else
    let pctChange := (price - s.referencePrice) / s.referencePrice * 100
    if s.thresholdPct < pctChange then
      ({ s with
          referencePrice := price
          tradeCount := s.tradeCount + 1
          lastPrice := price },
        placeMarketOrder clocks s.toStrategyBase tradeEvent.ticker.bytes .buy s.orderSize rt)
    else if pctChange < -s.thresholdPct then
      ({ s with
          referencePrice := price
          tradeCount := s.tradeCount + 1
          lastPrice := price },
        placeMarketOrder clocks s.toStrategyBase tradeEvent.ticker.bytes .sell s.orderSize rt)
    else ({ s with lastPrice := price }, rt)

end SimpleMomentum

namespace ExampleStrategy

variable {R : Type}

def base : ExampleStrategy R → StrategyBase
  | .marketMaker m => m.toStrategyBase
  | .momentum m => m.toStrategyBase

/-- `start`, without the messages. -/
def start : ExampleStrategy R → ExampleStrategy R
  | .marketMaker m => .marketMaker { m with active := true }
  | .momentum m => .momentum { m with active := true }

variable [Field R] [LinearOrder R]

def onQuote (clocks : Clocks) (quote : QuoteUpdate R) :
    ExampleStrategy R → Runtime R → ExampleStrategy R × Runtime R
  | .marketMaker m, rt =>
      let (m, rt) := m.onQuote clocks quote rt
      (.marketMaker m, rt)
  | .momentum m, rt => (.momentum m, rt)

def onTrade (clocks : Clocks) (tradeEvent : TradeEvent R) :
    ExampleStrategy R → Runtime R → ExampleStrategy R × Runtime R
  | .marketMaker m, rt => (.marketMaker m, rt)
  | .momentum m, rt =>
      let (m, rt) := m.onTrade clocks tradeEvent rt
      (.momentum m, rt)

def stop (clocks : Clocks) :
    ExampleStrategy R → Runtime R → ExampleStrategy R × Runtime R
  | .marketMaker m, rt =>
      (.marketMaker { m with active := false },
        SimpleMarketMaker.onStop clocks { m with active := false } rt)
  | .momentum m, rt => (.momentum { m with active := false }, rt)

/-- A loop of `StrategyManager` over its strategies. -/
def forEach (handle : ExampleStrategy R → Runtime R → ExampleStrategy R × Runtime R) :
    List (ExampleStrategy R) → Runtime R → List (ExampleStrategy R) × Runtime R
  | [], rt => ([], rt)
  | strategy :: rest, rt =>
      let (strategy, rt) := handle strategy rt
      let (rest, rt) := forEach handle rest rt
      (strategy :: rest, rt)

/-- The test of `dispatch_to_matching_strategies` around a handler. -/
def ifMatching (ticker : Bytes)
    (handle : ExampleStrategy R → Runtime R → ExampleStrategy R × Runtime R)
    (strategy : ExampleStrategy R) (rt : Runtime R) : ExampleStrategy R × Runtime R :=
  if strategy.base.active = false ∨ strategy.base.tracksTicker ticker = false then (strategy, rt)
  else handle strategy rt

/-- `replay_quote` of `StrategyManager`. -/
def replayQuote (clocks : Clocks) (quote : QuoteUpdate R) (strategies : List (ExampleStrategy R))
    (rt : Runtime R) : List (ExampleStrategy R) × Runtime R :=
  forEach (ifMatching quote.ticker.bytes (onQuote clocks quote)) strategies rt

/-- `replay_trade` of `StrategyManager`. -/
def replayTrade (clocks : Clocks) (tradeEvent : TradeEvent R)
    (strategies : List (ExampleStrategy R)) (rt : Runtime R) :
    List (ExampleStrategy R) × Runtime R :=
  forEach (ifMatching tradeEvent.ticker.bytes (onTrade clocks tradeEvent)) strategies rt

/-- `stop_all` of `StrategyManager`. -/
def stopAll (clocks : Clocks) (strategies : List (ExampleStrategy R)) (rt : Runtime R) :
    List (ExampleStrategy R) × Runtime R :=
  forEach (stop clocks) strategies rt

end ExampleStrategy

end Strategy
end CryptoHft
