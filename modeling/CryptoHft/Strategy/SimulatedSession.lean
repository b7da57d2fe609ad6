import CryptoHft.Backtest.SinkLedger
import CryptoHft.Strategy.StorageReplayDriver

/-!
# Replaying a simulated session

Strategies trade through a `SimulatedExecutionSink` that shares an
`InMemoryStorage` with their `StrategyManager`.  A session is a run of the sink in
which only strategies submit orders, each under its own id and with itself as the
receiver of the responses, together with the calls of `dispatch_quote` and
`dispatch_trade`.  Strategy code runs whenever client code is in control of the
sink: between two calls, after a dispatch, or inside a response callback.

`inputs` lists what the strategies were given, in order.  The log of a session
determines this list: a submission is logged before the sink can answer it, and a
response is logged before it is delivered (`Session.Inv`).
-/

namespace CryptoHft
namespace Strategy

open Lib Storage Backtest StorageReplayDriver

/-- What the routing of responses reads of a `StrategyManager`. -/
structure StrategyManager (ι : Type) where
  strategies : List ι
  id : ι → UInt32

/-- What a strategy is given: a response to an order of its own, or market data. -/
inductive StrategyInput (ι R : Type)
  | orderResponse (strategy : ι) (response : OrderResponse R)
  | trade (tradeEvent : TradeEvent R)
  | quote (quote : QuoteUpdate R)

namespace StrategyManager

variable {ι : Type}

def getStrategy (manager : StrategyManager ι) (strategyId : UInt32) : Option ι :=
  manager.strategies.find? (fun strategy => manager.id strategy = strategyId)

/-- `maybe_append_storage_event`, with the clock reading the storage may take. -/
def maybeAppendStorageEvent {σ R : Type} [IStorage σ R] (storage : Option σ)
    (event : StorageEvent R) (persist : Bool) (now : Int64) : Bool × Option σ :=
  match persist, storage with
  | true, some storage =>
      let (persisted, storage') := IStorage.append storage event now
      (persisted, some storage')
  | _, _ => (true, storage)

/-- Replaying what a strategy was given. -/
def replayCall {R : Type} (manager : StrategyManager ι) : StrategyInput ι R → ManagerCall R
  | .orderResponse strategy response => .dispatchOrderResponse (manager.id strategy) response
  | .trade tradeEvent => .replayTrade tradeEvent
  | .quote quote => .replayQuote quote

/-- Strategies with distinct ids are found by their ids. -/
theorem getStrategy_id
    {manager : StrategyManager ι} {strategy : ι}
    (hids : (manager.strategies.map manager.id).Nodup)
    (hstrategy : strategy ∈ manager.strategies) :
    manager.getStrategy (manager.id strategy) = some strategy := by
  rw [getStrategy]
  generalize manager.strategies = strategies at hids hstrategy
  induction strategies with
  | nil =>
      cases hstrategy
  | cons first rest ih =>
      rw [List.map_cons, List.nodup_cons] at hids
      rcases List.mem_cons.mp hstrategy with rfl | hrest
      · simp
      · have hne : manager.id first ≠ manager.id strategy := by
          intro heq
          exact hids.1 (heq ▸ List.mem_map_of_mem hrest)
        rw [List.find?_cons_of_neg (by simpa using hne)]
        exact ih hids.2 hrest

end StrategyManager

structure Session (R ι φ : Type) where
  run : SinkRun (InMemoryStorage R) R ι φ
  inputs : List (StrategyInput ι R)

inductive SessionAction (R ι φ : Type)
  | sink (a : SinkAction R ι φ)
  | dispatchQuote (quote : QuoteUpdate R) (eventNs now : Int64)
  | dispatchTrade (tradeEvent : TradeEvent R) (eventNs now : Int64)

namespace Session

section Steps

variable {R ι φ : Type}

/-- A sink with an empty storage, and strategies that were given nothing. -/
def create [Field R] (config : SimulatedExecutionConfig R) : Session R ι φ where
  run := .create (some .create) config
  inputs := []

/-- What the strategy that receives a delivery is given. -/
def responseInput (delivery : ResponseDelivery R ι φ) : Option (StrategyInput ι R) :=
  delivery.pending.responseCallback.map
    (fun strategy => .orderResponse strategy delivery.response)

/-- `dispatch_quote` and `dispatch_trade` up to the calls of the strategies. -/
def dispatch (s : Session R ι φ) (event : StorageEvent R) (input : StrategyInput ι R)
    (now : Int64) : Session R ι φ where
  run :=
    { s.run with
      sink := { s.run.sink with
        storage := (StrategyManager.maybeAppendStorageEvent s.run.sink.storage event true now).2 } }
  inputs := s.inputs ++ [input]

variable [DecidableEq ι]

/-- Orders are submitted by strategies only, under their own ids. -/
def byStrategy (manager : StrategyManager ι) : SinkAction R ι φ → Bool
  | .call (.submitTrade trade (some strategy) _ _ _ _) =>
      decide (strategy ∈ manager.strategies) && decide (trade.strategyId = manager.id strategy)
  | .call (.submitTrade _ none _ _ _ _) => false
  | _ => true

variable [Field R] [LinearOrder R]

def step (manager : StrategyManager ι) (s : Session R ι φ) :
    SessionAction R ι φ → Option (Session R ι φ)
  | .sink a =>
      if byStrategy manager a then
        (s.run.step a).map (fun run =>
          ⟨run, s.inputs ++ (run.published.drop s.run.published.length).filterMap responseInput⟩)
      else none
  | .dispatchQuote quote eventNs now =>
      if s.run.clientTurn then
        some (s.dispatch ⟨0, eventNs, .quoteUpdate, .quoteUpdate quote⟩ (.quote quote) now)
      else none
  | .dispatchTrade tradeEvent eventNs now =>
      if s.run.clientTurn then
        some (s.dispatch ⟨0, eventNs, .marketTrade, .tradeEvent tradeEvent⟩ (.trade tradeEvent)
          now)
      else none

end Steps

section Invariant

variable {R ι φ : Type} [Field R]

/--
What a session keeps: the driver, run over the log so far, has matched every
response, has given the strategies what they were given in the session, and knows
the strategies of all orders submitted so far.
-/
structure Inv (manager : StrategyManager ι) (s : Session R ι φ) : Prop where
  ledger : s.run.Ledger
  owners : ∀ order ∈ s.run.orders, ∃ strategy ∈ manager.strategies,
    order.responseCallback = some strategy ∧ order.trade.strategyId = manager.id strategy
  receivers : ∀ strategy response, .orderResponse strategy response ∈ s.inputs →
    strategy ∈ manager.strategies
  log : ∃ r, Logged s.run.sink.storage r ∧ r.stats.unmatchedResponses = 0 ∧
    r.calls = s.inputs.map manager.replayCall ∧
    ∀ trade ∈ s.run.trades, r.orderToStrategy trade.clientOrderId = some trade.strategyId

theorem inv_create (manager : StrategyManager ι) (config : SimulatedExecutionConfig R) :
    Inv manager (create config : Session R ι φ) where
  ledger := SinkRun.ledger_create _ config
  owners := by
    simp [create, SinkRun.create, SinkRun.orders, SinkRun.made, SinkRun.undelivered,
      SimulatedExecutionSink.ordersOf, SimulatedExecutionSink.create]
  receivers := by
    simp [create]
  log := by
    refine ⟨.initial, ⟨.create, rfl, rfl, InMemoryStorage.inv_create, rfl⟩, rfl, rfl, ?_⟩
    simp [create, SinkRun.create]

/-- The ledger does not mention the storage. -/
theorem ledger_dispatch
    {s : Session R ι φ}
    (h : s.run.Ledger)
    (event : StorageEvent R) (input : StrategyInput ι R) (now : Int64) :
    (s.dispatch event input now).run.Ledger :=
  ⟨h.accounts, h.submissions, h.settled, h.submitted, h.filled, h.canceled, h.rejected,
    h.grossNotional, h.fees, h.nextId⟩

/-- Market data is logged before the strategies get it. -/
theorem Inv.dispatch
    {manager : StrategyManager ι} {s : Session R ι φ}
    (h : Inv manager s)
    {event : StorageEvent R} {input : StrategyInput ι R}
    (htype : payloadMatchesType event = true)
    (hevent : ∀ r : State R, processEvent r event = some (r.replay (manager.replayCall input)))
    (hinput : ∀ strategy response, input ≠ .orderResponse strategy response)
    (now : Int64) :
    Inv manager (s.dispatch event input now) where
  ledger := ledger_dispatch h.ledger event input now
  owners := h.owners
  receivers := by
    intro strategy response hmem
    rcases List.mem_append.mp hmem with hmem | hmem
    · exact h.receivers strategy response hmem
    · exact absurd (List.mem_singleton.mp hmem).symm (hinput strategy response)
  log := by
    obtain ⟨r, hlogged, hunmatched, hcalls, htrades⟩ := h.log
    obtain ⟨store, hstore, -⟩ := hlogged.replays
    refine ⟨r.replay (manager.replayCall input), ?_, hunmatched, ?_, htrades⟩
    · have hlogged' := hlogged.append htype (hevent r) now
      simpa [Session.dispatch, StrategyManager.maybeAppendStorageEvent, hstore,
        appended] using hlogged'
    · simp [Session.dispatch, State.replay, hcalls]

end Invariant

section Sink

variable {R ι φ : Type} [Field R] {manager : StrategyManager ι}
  {s : Session R ι φ} {run : SinkRun (InMemoryStorage R) R ι φ}

/-- A session state whose sink took a step that published nothing. -/
theorem Inv.unpublished
    (h : Inv manager s)
    (hledger : run.Ledger)
    (howners : ∀ order ∈ run.orders, ∃ strategy ∈ manager.strategies,
      order.responseCallback = some strategy ∧ order.trade.strategyId = manager.id strategy)
    (hpublished : run.published = s.run.published)
    (hlog : ∀ r, Logged s.run.sink.storage r →
      (∀ trade ∈ s.run.trades, r.orderToStrategy trade.clientOrderId = some trade.strategyId) →
      ∃ r', Logged run.sink.storage r' ∧
        r'.stats.unmatchedResponses = r.stats.unmatchedResponses ∧ r'.calls = r.calls ∧
        ∀ trade ∈ run.trades, r'.orderToStrategy trade.clientOrderId = some trade.strategyId) :
    Inv manager
      ⟨run, s.inputs ++ (run.published.drop s.run.published.length).filterMap responseInput⟩ := by
  rw [hpublished, List.drop_length, List.filterMap_nil, List.append_nil]
  obtain ⟨r, hlogged, hunmatched, hcalls, htrades⟩ := h.log
  obtain ⟨r', hlogged', hunmatched', hcalls', htrades'⟩ := hlog r hlogged htrades
  exact ⟨hledger, howners, h.receivers,
    ⟨r', hlogged', hunmatched'.trans hunmatched, hcalls'.trans hcalls, htrades'⟩⟩

/-- A response that is delivered was logged, and the driver finds its strategy. -/
theorem Inv.deliver
    (h : Inv manager s)
    {delivery : ResponseDelivery R ι φ} {rest : List (ResponseDelivery R ι φ)}
    {below : List (Activation R ι φ)}
    (hstack : s.run.stack = .delivering (delivery :: rest) :: below)
    (eventNs now : Int64)
    (hrun : run = { s.run with
      sink := s.run.sink.publish delivery eventNs now
      stack := SinkRun.callbackActivation delivery ++ .delivering rest :: below
      published := s.run.published ++ [delivery] })
    (hledger : run.Ledger)
    (howners : ∀ order ∈ run.orders, ∃ strategy ∈ manager.strategies,
      order.responseCallback = some strategy ∧ order.trade.strategyId = manager.id strategy) :
    Inv manager
      ⟨run, s.inputs ++ (run.published.drop s.run.published.length).filterMap responseInput⟩ := by
  have hmade : delivery ∈ s.run.made := by
    simp [SinkRun.made, SinkRun.undelivered, hstack]
  have horder : delivery.pending ∈ s.run.orders :=
    List.mem_append_right _ (List.mem_map_of_mem hmade)
  obtain ⟨strategy, hstrategy, hcallback, hid⟩ := h.owners _ horder
  obtain ⟨result, hsettles, -⟩ := h.ledger.settled delivery hmade
  have htrade : delivery.pending.trade ∈ s.run.trades :=
    List.mem_of_getElem? (h.ledger.accounts.trades _ horder)
  have hinput : (run.published.drop s.run.published.length).filterMap responseInput =
      [.orderResponse strategy delivery.response] := by
    simp [hrun, responseInput, hcallback]
  rw [hinput]
  refine ⟨hledger, howners, ?_, ?_⟩
  · intro receiver response hmem
    rcases List.mem_append.mp hmem with hmem | hmem
    · exact h.receivers receiver response hmem
    · cases List.mem_singleton.mp hmem
      exact hstrategy
  · obtain ⟨r, hlogged, hunmatched, hcalls, htrades⟩ := h.log
    have hfound : r.orderToStrategy delivery.response.clientOrderId =
        some (manager.id strategy) := by
      rw [hsettles.answers.clientOrderId, htrades _ htrade, hid]
    obtain ⟨failures, calls, hsink⟩ := s.run.sink.publish_eq delivery eventNs now
    have hprocess := processEvent_response hfound 0 eventNs
    refine ⟨r.route (manager.id strategy) delivery.response, ?_, hunmatched, ?_, ?_⟩
    · have hlogged' := hlogged.append rfl hprocess now
      simpa [hrun, hsink] using hlogged'
    · simp [State.route, hcalls, StrategyManager.replayCall]
    · rw [hrun]
      exact htrades

variable [LinearOrder R]

/-- Calls other than a submission leave the storage alone. -/
theorem storage_call
    (sink : SimulatedExecutionSink (InMemoryStorage R) R ι φ)
    {c : SinkCall R ι φ}
    (hc : c.trades = []) :
    (sink.call c).2.storage = sink.storage := by
  obtain ⟨outcome, quotes, -, hswept⟩ := sink.call_swept hc
  rw [hswept.state]
  rfl

/-- A submission leaves one event in the storage. -/
theorem storage_submission
    (sink : SimulatedExecutionSink (InMemoryStorage R) R ι φ)
    (trade : Trade R) (responseCallback : Option ι) (storageFailureCallback : Option φ)
    (eventNs storageNs now : Int64) :
    (sink.call (.submitTrade trade responseCallback storageFailureCallback eventNs storageNs
      now)).2.storage =
        appended sink.storage
          ⟨0, eventNs, .tradeSubmitted, .trade trade⟩ storageNs := by
  obtain ⟨failures, calls, haccepted⟩ := sink.call_accepted trade responseCallback
    storageFailureCallback eventNs storageNs now
  generalize sink.call _ = result at haccepted
  obtain ⟨deliveries, after⟩ := result
  cases haccepted with
  | answered =>
      rfl
  | rests =>
      rfl

variable [DecidableEq ι]

/-- The orders that a step leaves behind belong to strategies. -/
theorem Inv.owners_step
    (h : Inv manager s)
    {a : SinkAction R ι φ}
    (hby : byStrategy manager a = true)
    (ha : s.run.step a = some run) :
    ∀ order ∈ run.orders, ∃ strategy ∈ manager.strategies,
      order.responseCallback = some strategy ∧ order.trade.strategyId = manager.id strategy := by
  intro order horder
  rcases SinkRun.mem_orders_of_step ha horder with
    hbefore | ⟨trade, responseCallback, _, _, _, _, rfl, htrade, hcallback⟩
  · exact h.owners order hbefore
  · cases responseCallback with
    | none =>
        cases hby
    | some strategy =>
        simp only [byStrategy, Bool.and_eq_true, decide_eq_true_eq] at hby
        exact ⟨strategy, hby.1, hcallback, htrade ▸ hby.2⟩

/-- The steps of the sink. -/
theorem Inv.sink
    (h : Inv manager s)
    {a : SinkAction R ι φ}
    (hby : byStrategy manager a = true)
    (ha : s.run.step a = some run)
    (hdistinct : (run.trades.map Trade.clientOrderId).Nodup) :
    Inv manager
      ⟨run, s.inputs ++ (run.published.drop s.run.published.length).filterMap responseInput⟩ := by
  have hledger := h.ledger.step ha
  have howners := h.owners_step hby ha
  cases a with
  | call c =>
      obtain ⟨-, rfl⟩ := SinkRun.step_call ha
      refine h.unpublished hledger howners rfl ?_
      intro r hlogged htrades
      rcases c.submits_or_trades_nil with
        ⟨trade, responseCallback, storageFailureCallback, eventNs, storageNs, now, rfl⟩ | hc
      · have hlog := logged_submission hdistinct hlogged htrades eventNs storageNs
        rwa [← storage_submission s.run.sink trade responseCallback storageFailureCallback
          eventNs storageNs now] at hlog
      · refine ⟨r, ?_, rfl, rfl, ?_⟩
        · exact (storage_call s.run.sink hc).symm ▸ hlogged
        · simpa [SinkRun.entered, hc] using htrades
  | deliver eventNs now =>
      obtain ⟨delivery, rest, below, hstack, hrun⟩ := SinkRun.step_deliver ha
      exact h.deliver hstack eventNs now hrun hledger howners
  | callbackReturns =>
      obtain ⟨stack, rfl, -⟩ := SinkRun.step_returns (.inl rfl) ha
      exact h.unpublished hledger howners rfl (fun r hlogged htrades => ⟨r, hlogged, rfl, rfl, htrades⟩)
  | callReturns =>
      obtain ⟨stack, rfl, -⟩ := SinkRun.step_returns (.inr rfl) ha
      exact h.unpublished hledger howners rfl (fun r hlogged htrades => ⟨r, hlogged, rfl, rfl, htrades⟩)

end Sink

section Runs

variable {R ι φ : Type} [Field R] [LinearOrder R] [DecidableEq ι] {manager : StrategyManager ι}
  {s t : Session R ι φ}

theorem Inv.step
    (h : Inv manager s)
    {a : SessionAction R ι φ}
    (ha : s.step manager a = some t)
    (hdistinct : (t.run.trades.map Trade.clientOrderId).Nodup) :
    Inv manager t := by
  cases a with
  | sink a =>
      simp only [Session.step, Option.ite_none_right_eq_some, Option.map_eq_some_iff] at ha
      obtain ⟨hby, run, hrun, rfl⟩ := ha
      exact h.sink hby hrun hdistinct
  | dispatchQuote quote eventNs now =>
      simp only [Session.step, Option.ite_none_right_eq_some, Option.some.injEq] at ha
      rw [← ha.2]
      exact h.dispatch rfl (fun _ => rfl) (fun _ _ => by simp) now
  | dispatchTrade tradeEvent eventNs now =>
      simp only [Session.step, Option.ite_none_right_eq_some, Option.some.injEq] at ha
      rw [← ha.2]
      exact h.dispatch rfl (fun _ => rfl) (fun _ _ => by simp) now

/-- Submitted orders stay on record. -/
theorem trades_isPrefix
    {a : SessionAction R ι φ}
    (ha : s.step manager a = some t) :
    s.run.trades <+: t.run.trades := by
  cases a with
  | sink a =>
      simp only [Session.step, Option.ite_none_right_eq_some, Option.map_eq_some_iff] at ha
      obtain ⟨-, run, hrun, rfl⟩ := ha
      exact SinkRun.trades_isPrefix_of_step hrun
  | dispatchQuote | dispatchTrade =>
      simp only [Session.step, Option.ite_none_right_eq_some, Option.some.injEq] at ha
      rw [← ha.2]
      exact List.prefix_rfl

theorem inv_of_reachable
    {config : SimulatedExecutionConfig R}
    (hs : Reachable (Steps (step manager)) (create config) s)
    (hdistinct : (s.run.trades.map Trade.clientOrderId).Nodup) :
    Inv manager s := by
  refine hs.invariant_below (B := fun s => (s.run.trades.map Trade.clientOrderId).Nodup)
    (inv_create manager config) ?_ (fun _ _ _ h ha hdistinct => h.step ha hdistinct) hdistinct
  intro s a t ha hdistinct
  exact hdistinct.sublist ((trades_isPrefix ha).sublist.map _)

/--
Replaying the log of a session, with any page size, gives the strategies what they
were given in the session, in the same order.
-/
theorem replay_reproduces_session
    {config : SimulatedExecutionConfig R}
    (hids : (manager.strategies.map manager.id).Nodup)
    (hs : Reachable (Steps (step manager)) (create config) s)
    (hdistinct : (s.run.trades.map Trade.clientOrderId).Nodup)
    {store : InMemoryStorage R}
    (hstore : s.run.sink.storage = some store)
    (hcount : store.events.length < 2 ^ 64)
    (pageSize : Nat) :
    ∃ r, (∀ fuel, store.events.length < fuel →
        StorageReplayDriver.run store.replay fuel
          { ReplayRequest.all with maxEvents := pageSize } = some r) ∧
      r.stats.unmatchedResponses = 0 ∧
      r.calls = s.inputs.map manager.replayCall ∧
      ∀ strategy response, .orderResponse strategy response ∈ s.inputs →
        manager.getStrategy (manager.id strategy) = some strategy := by
  have hinv := inv_of_reachable hs hdistinct
  obtain ⟨r, hlogged, hunmatched, hcalls, -⟩ := hinv.log
  rw [hstore] at hlogged
  refine ⟨r, fun fuel hfuel => hlogged.run_eq hcount pageSize hfuel, hunmatched, hcalls, ?_⟩
  intro strategy response hmem
  exact StrategyManager.getStrategy_id hids (hinv.receivers strategy response hmem)

end Runs

section TwoStrategies

/-- Two strategies, with the ids 1 and 2. -/
def twoStrategies : StrategyManager Bool where
  strategies := [false, true]
  id strategy := if strategy then 2 else 1

def btcTradeEvent : TradeEvent ℚ where
  ticker := .copyString (text "BTC_USDT")
  price := 102
  quantity := 1
  isBuyerMaker := false
  timestampNs := 12
  tradeId := 1

/--
The limit order of one strategy rests; the other one cancels all orders from
inside the callback of its market order.
-/
def cancelOtherFromCallback : List (SessionAction ℚ Bool Unit) :=
  let operations : List (SinkAction ℚ Bool Unit) :=
    [.call (.onQuote SinkRun.btcQuote (fun _ => 6)), .callReturns,
      .call (.submitTrade (Trade.createLimitOrder 1 0 1 (text "BTC_USDT") .buy 2 99).1
        (some false) none 7 7 7), .callReturns,
      .call (.submitTrade (Trade.createMarketOrder 2 0 2 (text "BTC_USDT") .buy 3).1
        (some true) none 8 8 8), .deliver 9 9,
      .call (.cancelAllOrders [] (fun _ => 10)), .deliver 11 11, .callbackReturns, .callReturns,
      .callbackReturns, .callReturns]
  .dispatchQuote SinkRun.btcQuote 5 5 :: operations.map .sink ++
    [.dispatchTrade btcTradeEvent 12 12]

theorem replay_reproduces_cancel_from_callback :
    ∃ (s : Session ℚ Bool Unit) (store : InMemoryStorage ℚ),
      s.run.sink.storage = some store ∧ store.events.length = 6 ∧ s.inputs.length = 4 ∧
        ∃ r, StorageReplayDriver.run store.replay 7 { ReplayRequest.all with maxEvents := 1 } =
            some r ∧
          r.stats.unmatchedResponses = 0 ∧ r.calls = s.inputs.map twoStrategies.replayCall := by
  have hrun : (runActions (step twoStrategies)
      (create SinkRun.noFees : Session ℚ Bool Unit) cancelOtherFromCallback).map
        (fun s => (s.run.trades.map Trade.clientOrderId,
          s.run.sink.storage.map (fun store => store.events.length), s.inputs.length)) =
      some ([1, 2], some 6, 4) := by
    decide +kernel
  obtain ⟨s, hs, hview⟩ := Reachable.exists_of_runActions hrun
  simp only [Prod.mk.injEq, Option.map_eq_some_iff] at hview
  obtain ⟨htrades, ⟨store, hstore, hlength⟩, hinputs⟩ := hview
  obtain ⟨r, hreplay, hunmatched, hcalls, -⟩ := replay_reproduces_session (by decide) hs
    (by rw [htrades]; decide) hstore (by rw [hlength]; decide) 1
  exact ⟨s, store, hstore, hlength, hinputs, r, hreplay 7 (by rw [hlength]; decide), hunmatched,
    hcalls⟩

end TwoStrategies

end Session

end Strategy
end CryptoHft
