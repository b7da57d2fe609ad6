import CryptoHft.Backtest.SinkLedger
import CryptoHft.Exchange.RealPrices
import CryptoHft.Risk.RiskManager

/-!
# What real prices are good for

A simulated fill is made at the price of a quote or of a trade, and the risk manager
stores the middle of a quote.  `PositivePrices` carries this along the runs of the
sink: as long as the quotes and trades it is given are above zero, so are the quotes
it stores and the prices of its fills.

The events of the feed are binary numbers, and the sink computes in exact arithmetic;
`exactQuote` and `exactTrade` are the values of an event.
-/

namespace CryptoHft
namespace Backtest

open Lib Storage Exchange Risk SimulatedExecutionSink CryptoComMarketDataClient

namespace SinkRun

section Invariant

variable {σ R κ φ : Type} [Field R] [LinearOrder R]

structure PositivePrices (s : SinkRun σ R κ φ) : Prop where
  quotes : ∀ ticker quote, s.sink.quotes ticker = some quote →
    0 < quote.bidPrice ∧ 0 < quote.askPrice
  fills : ∀ delivery ∈ s.made, delivery.response.status = .filled →
    0 < delivery.response.avgPrice

/-- The quotes and trades of a step have prices above zero. -/
def PositiveMarket : SinkAction R κ φ → Prop
  | .call (.onQuote quote _) => 0 < quote.bidPrice ∧ 0 < quote.askPrice
  | .call (.onTrade tradeEvent _) => 0 < tradeEvent.price
  | _ => True

theorem positivePrices_create
    (storage : Option σ)
    (config : SimulatedExecutionConfig R) :
    PositivePrices (create storage config : SinkRun σ R κ φ) := by
  constructor
  · simp [create, SimulatedExecutionSink.create]
  · simp [create, made, undelivered]

omit [Field R] in
theorem quoteOutcome_price
    {quote : QuoteUpdate R} {order : PendingOrder R κ φ} {result : Outcome R}
    (h : quoteOutcome quote order = some result) :
    result.fillPrice = quote.bidPrice ∨ result.fillPrice = quote.askPrice := by
  simp only [quoteOutcome, Option.ite_none_left_eq_some, Option.some.injEq] at h
  obtain ⟨-, -, rfl⟩ := h
  cases order.trade.side with
  | buy => exact .inr rfl
  | sell => exact .inl rfl

omit [Field R] in
theorem tradeOutcome_price
    {tradeEvent : TradeEvent R} {order : PendingOrder R κ φ} {result : Outcome R}
    (h : tradeOutcome tradeEvent order = some result) :
    result.fillPrice = tradeEvent.price := by
  simp only [tradeOutcome, Option.ite_none_left_eq_some, Option.some.injEq] at h
  rw [← h.2]

omit [Field R] in
theorem immediateFill_price
    {s : SimulatedExecutionSink σ R κ φ} {trade : Trade R} {fill : Fill R}
    (h : s.immediateFill trade = some fill) :
    ∃ quote, s.quotes trade.ticker = some quote ∧
      (fill.price = quote.bidPrice ∨ fill.price = quote.askPrice) := by
  rw [immediateFill] at h
  split at h
  · cases h
  · rename_i quote hquote
    refine ⟨quote, hquote, ?_⟩
    split_ifs at h
    · cases h
      exact .inr rfl
    · cases h
      exact .inl rfl

variable {s t : SinkRun σ R κ φ}

/-- A loop that fills at prices above zero. -/
theorem PositivePrices.swept
    (h : PositivePrices s)
    {outcome : PendingOrder R κ φ → Option (Outcome R)}
    (hprice : ∀ order result, outcome order = some result → result.status = .filled →
      0 < result.fillPrice)
    {quotes : CString 16 → Option (QuoteUpdate R)}
    (hquotes : ∀ ticker quote, quotes ticker = some quote →
      0 < quote.bidPrice ∧ 0 < quote.askPrice)
    {result : List (ResponseDelivery R κ φ) × SimulatedExecutionSink σ R κ φ}
    (hswept : Swept outcome { s.sink with quotes := quotes } result.1 result.2) :
    PositivePrices (s.entered result []) := by
  have hstored : result.2.quotes = quotes := by
    rw [hswept.state]
    rfl
  constructor
  · intro ticker quote hquote
    rw [entered, hstored] at hquote
    exact hquotes ticker quote hquote
  · intro delivery hdelivery hfilled
    rw [made_entered] at hdelivery
    rcases List.mem_append.mp hdelivery with hdelivery | hdelivery
    · obtain ⟨decided, hdecided, hsettles⟩ := hswept.settles delivery hdelivery
      rw [hsettles.answers.status] at hfilled
      rw [hsettles.answers.avgPrice]
      exact hprice _ decided hdecided hfilled
    · exact h.fills delivery hdelivery hfilled

/-- A submission fills at a stored quote, if it fills. -/
theorem PositivePrices.accepted
    (h : PositivePrices s)
    {recorded : SimulatedExecutionSink σ R κ φ}
    (hquotes : recorded.quotes = s.sink.quotes)
    {trade : Trade R} {responseCallback : Option κ} {storageFailureCallback : Option φ} {n : Nat}
    {result : List (ResponseDelivery R κ φ) × SimulatedExecutionSink σ R κ φ}
    (haccepted : Accepted recorded trade responseCallback storageFailureCallback n
      result.1 result.2) :
    PositivePrices (s.entered result [trade]) := by
  obtain ⟨deliveries, t⟩ := result
  cases haccepted with
  | answered response outcome hanswers hid hresult =>
      refine ⟨fun ticker quote hquote => h.quotes ticker quote (hquotes ▸ hquote), ?_⟩
      intro delivery hdelivery hfilled
      rw [made_entered] at hdelivery
      rcases List.mem_cons.mp hdelivery with rfl | hdelivery
      · rcases hresult with hrejected | ⟨fill, hfill, rfl⟩
        · rw [hanswers.status, hrejected] at hfilled
          cases hfilled
        · obtain ⟨quote, hquote, hprice⟩ := immediateFill_price hfill
          have hpositive := h.quotes _ quote (hquotes ▸ hquote)
          rw [hanswers.avgPrice]
          rcases hprice with hbid | hask
          · exact hpositive.1.trans_eq hbid.symm
          · exact hpositive.2.trans_eq hask.symm
      · exact h.fills delivery hdelivery hfilled
  | rests hvalid hfill =>
      refine ⟨fun ticker quote hquote => h.quotes ticker quote (hquotes ▸ hquote), ?_⟩
      rw [made_entered]
      exact h.fills

end Invariant

section Steps

variable {σ R κ φ : Type} [Field R] [LinearOrder R] [IStorage σ R] {s t : SinkRun σ R κ φ}

theorem PositivePrices.call
    (h : PositivePrices s)
    {c : SinkCall R κ φ}
    (hc : PositiveMarket (.call c)) :
    PositivePrices (s.entered (s.sink.call c) c.trades) := by
  cases c with
  | submitTrade trade responseCallback storageFailureCallback eventNs storageNs now =>
      obtain ⟨failures, calls, hrecorded⟩ :=
        s.sink.recordSubmission_eq trade storageFailureCallback eventNs storageNs
      refine h.accepted ?_ (accept_accepted
        (s.sink.recordSubmission trade storageFailureCallback eventNs storageNs) trade
        responseCallback storageFailureCallback s.sink.submissions now)
      rw [hrecorded]
  | cancelOrder instrument orderId clientOid now =>
      refine h.swept ?_ h.quotes (s.sink.sweepResting_swept _ _ now)
      intro order result hresult hfilled
      simp only [cancelOutcome, Option.ite_none_right_eq_some, Option.some.injEq] at hresult
      rw [← hresult.2] at hfilled
      cases hfilled
  | cancelAllOrders instrument now =>
      refine h.swept ?_ h.quotes (s.sink.sweepResting_swept _ _ now)
      intro order result hresult hfilled
      simp only [cancelAllOutcome, Option.ite_none_left_eq_some, Option.some.injEq] at hresult
      rw [← hresult.2] at hfilled
      cases hfilled
  | onQuote quote now =>
      have hquote : 0 < quote.bidPrice ∧ 0 < quote.askPrice := hc
      refine h.swept ?_ ?_ (sweepResting_swept _ (quoteOutcome quote) false now)
      · intro order result hresult _
        rcases quoteOutcome_price hresult with hbid | hask
        · exact hquote.1.trans_eq hbid.symm
        · exact hquote.2.trans_eq hask.symm
      · intro ticker stored hstored
        by_cases hticker : ticker = quote.ticker
        · rw [hticker, Function.update_self, Option.some.injEq] at hstored
          rw [← hstored]
          exact hquote
        · rw [Function.update_of_ne hticker] at hstored
          exact h.quotes ticker stored hstored
  | onTrade tradeEvent now =>
      refine h.swept ?_ h.quotes (s.sink.sweepResting_swept _ _ now)
      intro order result hresult _
      exact hc.trans_eq (tradeOutcome_price hresult).symm

theorem PositivePrices.step
    (h : PositivePrices s)
    {a : SinkAction R κ φ}
    (ha : s.step a = some t)
    (hmarket : PositiveMarket a) :
    PositivePrices t := by
  cases a with
  | call c =>
      obtain ⟨-, rfl⟩ := step_call ha
      exact h.call hmarket
  | deliver eventNs now =>
      obtain ⟨delivery, rest, below, hstack, rfl⟩ := step_deliver ha
      have hmade := made_perm_of_deliver hstack eventNs now
      obtain ⟨failures, calls, hsink⟩ := s.sink.publish_eq delivery eventNs now
      rw [hsink] at hmade ⊢
      exact ⟨h.quotes, fun d hd => h.fills d (hmade.subset hd)⟩
  | callbackReturns =>
      obtain ⟨stack, rfl, hmade⟩ := step_returns (.inl rfl) ha
      exact ⟨h.quotes, by rw [hmade]; exact h.fills⟩
  | callReturns =>
      obtain ⟨stack, rfl, hmade⟩ := step_returns (.inr rfl) ha
      exact ⟨h.quotes, by rw [hmade]; exact h.fills⟩

end Steps

end SinkRun

section Feed

/-- The value of a quote. -/
def exactQuote (quote : QuoteUpdate Binary64) : QuoteUpdate ℚ where
  ticker := quote.ticker
  bidPrice := quote.bidPrice.toRat
  bidSize := quote.bidSize.toRat
  askPrice := quote.askPrice.toRat
  askSize := quote.askSize.toRat
  timestampNs := quote.timestampNs

/-- The value of a trade. -/
def exactTrade (tradeEvent : TradeEvent Binary64) : TradeEvent ℚ where
  ticker := tradeEvent.ticker
  price := tradeEvent.price.toRat
  quantity := tradeEvent.quantity.toRat
  isBuyerMaker := tradeEvent.isBuyerMaker
  timestampNs := tradeEvent.timestampNs
  tradeId := tradeEvent.tradeId

/-- An event of a message whose fields are real. -/
def Fed (parse : Bytes → Option (Json Binary64)) (event : MarketEvent Binary64) : Prop :=
  ∃ message, event ∈ (processTextMessage parse message).events ∧
    ∀ decoded, parse message = some decoded → FieldsReal decoded

variable {κ φ : Type}

/-- The quotes and trades of a step of the sink come from such messages. -/
def FedSink (parse : Bytes → Option (Json Binary64)) : SinkAction ℚ κ φ → Prop
  | .call (.onQuote quote _) => ∃ event, Fed parse (.quote event) ∧ quote = exactQuote event
  | .call (.onTrade tradeEvent _) =>
      ∃ event, Fed parse (.trade event) ∧ tradeEvent = exactTrade event
  | _ => True

/-- The quotes of a call of the risk manager come from such messages. -/
def FedRisk (parse : Bytes → Option (Json Binary64)) : RiskManager.Call → Prop
  | .updateQuote quote => ∃ event, Fed parse (.quote event) ∧ quote = exactQuote event
  | _ => True

variable {parse : Bytes → Option (Json Binary64)}

theorem Fed.realEvent
    {event : MarketEvent Binary64}
    (h : Fed parse event) :
    RealEvent event := by
  obtain ⟨message, hevent, hfields⟩ := h
  exact (realEvent_processTextMessage_iff parse message).mpr hfields event hevent

theorem exactQuote_pos
    {event : QuoteUpdate Binary64}
    (h : Fed parse (.quote event)) :
    0 < (exactQuote event).bidPrice ∧ 0 < (exactQuote event).askPrice :=
  ⟨Binary64.toRat_pos h.realEvent.1, Binary64.toRat_pos h.realEvent.2⟩

theorem positiveMarket_of_fed
    {a : SinkAction ℚ κ φ}
    (h : FedSink parse a) :
    SinkRun.PositiveMarket a := by
  cases a with
  | deliver | callbackReturns | callReturns =>
      trivial
  | call c =>
      cases c with
      | submitTrade | cancelOrder | cancelAllOrders =>
          trivial
      | onQuote quote now =>
          obtain ⟨event, hevent, rfl⟩ := h
          exact exactQuote_pos hevent
      | onTrade tradeEvent now =>
          obtain ⟨event, hevent, rfl⟩ := h
          exact Binary64.toRat_pos hevent.realEvent.1

/-- The risk manager stores the middle of a quote. -/
theorem midPrices_apply
    {rm : RiskManager} {c : RiskManager.Call}
    (h : ∀ ticker mid, rm.midPrices ticker = some mid → 0 < mid)
    (hc : FedRisk parse c) :
    ∀ ticker mid, (rm.apply c).midPrices ticker = some mid → 0 < mid := by
  cases c with
  | setLimits limits =>
      exact h
  | onFill trade response =>
      have hsame : (rm.onFill trade response).midPrices = rm.midPrices := by
        rw [RiskManager.onFill]
        split_ifs <;> rfl
      rw [RiskManager.apply, hsame]
      exact h
  | updateQuote quote =>
      obtain ⟨event, hevent, rfl⟩ := hc
      obtain ⟨hbid, hask⟩ := exactQuote_pos hevent
      intro ticker mid hmid
      simp only [RiskManager.apply, RiskManager.updateQuote] at hmid
      by_cases hticker : ticker = (exactQuote event).ticker.bytes
      · rw [hticker, Function.update_self, Option.some.injEq] at hmid
        rw [← hmid]
        linarith
      · rw [Function.update_of_ne hticker] at hmid
        exact h ticker mid hmid

theorem midPrices_run
    {rm : RiskManager}
    (h : ∀ ticker mid, rm.midPrices ticker = some mid → 0 < mid)
    {calls : List RiskManager.Call}
    (hcalls : ∀ c ∈ calls, FedRisk parse c) :
    ∀ ticker mid, (rm.run calls).midPrices ticker = some mid → 0 < mid := by
  induction calls generalizing rm with
  | nil =>
      exact h
  | cons c calls ih =>
      rw [List.forall_mem_cons] at hcalls
      exact ih (midPrices_apply h hcalls.1) hcalls.2

/--
The events of a message are real exactly if its fields are; fed from such messages,
the sink reports no fill at a price of zero or below, and the risk manager stores no
such price.
-/
theorem real_prices_iff
    {σ : Type} [IStorage σ ℚ]
    (parse : Bytes → Option (Json Binary64))
    (storage : Option σ)
    (config : SimulatedExecutionConfig ℚ)
    (limits : RiskLimits) :
    (∀ message, (∀ event ∈ (processTextMessage parse message).events, RealEvent event) ↔
        ∀ decoded, parse message = some decoded → FieldsReal decoded) ∧
      (∀ s : SinkRun σ ℚ κ φ,
        Reachable (Guarded (Steps SinkRun.step) (fun _ a => FedSink parse a))
            (.create storage config) s →
          ∀ delivery ∈ s.made, delivery.response.status = .filled →
            0 < delivery.response.avgPrice) ∧
      ∀ calls, (∀ c ∈ calls, FedRisk parse c) →
        ∀ ticker mid, ((RiskManager.create limits).run calls).midPrices ticker = some mid →
          0 < mid := by
  refine ⟨realEvent_processTextMessage_iff parse, ?_, ?_⟩
  · intro s hs
    have h : s.PositivePrices := hs.invariant (SinkRun.positivePrices_create storage config)
      (fun _ _ _ h ha => h.step ha.1 (positiveMarket_of_fed ha.2))
    exact h.fills
  · intro calls hcalls
    refine midPrices_run ?_ hcalls
    simp [RiskManager.create]

end Feed

section Books

/-- A book message with these texts as its best prices. -/
def bookMessage (bid ask : String) : Json Binary64 :=
  .object
    [("result", .object
      [("channel", .string (text "book")),
        ("instrument_name", .string (text "BTC_USDT")),
        ("data", .array
          [.object
            [("bids", .array [.array [.string (text bid), .string (text "1")]]),
              ("asks", .array [.array [.string (text ask), .string (text "1")]])]])])]

/-- Its text. -/
def bookMessageText (bid ask : String) : Bytes :=
  text "\x7b\"result\":\x7b\"channel\":\"book\",\"instrument_name\":\"BTC_USDT\"," ++
    text "\"data\":[\x7b\"bids\":[[\"" ++ text bid ++ text "\",\"1\"]],\"asks\":[[\"" ++
    text ask ++ text "\",\"1\"]]\x7d]\x7d\x7d"

/-- A parser that knows one such message. -/
def parseBookMessage (bid ask : String) (message : Bytes) : Option (Json Binary64) :=
  if message = bookMessageText bid ask then some (bookMessage bid ask) else none

/-- The quote of a book message. -/
def bookQuote (bid ask : String) : QuoteUpdate Binary64 where
  ticker := .copyString (text "BTC_USDT")
  bidPrice := asDouble (.string (text bid))
  bidSize := asDouble (.string (text "1"))
  askPrice := asDouble (.string (text ask))
  askSize := asDouble (.string (text "1"))
  timestampNs := 0

theorem parseBookMessage_text
    (bid ask : String) :
    parseBookMessage bid ask (bookMessageText bid ask) = some (bookMessage bid ask) :=
  if_pos rfl

theorem events_bookMessage
    (bid ask : String) :
    (processTextMessage (parseBookMessage bid ask) (bookMessageText bid ask)).events =
      [.quote (bookQuote bid ask)] := by
  rw [processTextMessage, parseBookMessage_text]
  rfl

/-- A buy order rests at 101, and the quote of the message comes in. -/
def restThenQuote (bid ask : String) : List (SinkAction ℚ Unit Unit) :=
  [.call (.submitTrade (Trade.createLimitOrder 1 0 1 (text "BTC_USDT") .buy 2 101).1
      none none 7 7 7), .callReturns,
    .call (.onQuote (exactQuote (bookQuote bid ask)) (fun _ => 8))]

theorem fieldsReal_bookMessage :
    ∀ decoded, parseBookMessage "99.5" "100.5" (bookMessageText "99.5" "100.5") = some decoded →
      FieldsReal decoded := by
  intro decoded hdecoded
  rw [parseBookMessage_text, Option.some.injEq] at hdecoded
  subst hdecoded
  intro levels hlevels
  cases hlevels
  exact ⟨by decide +kernel, by decide +kernel⟩

theorem fed_bookQuote :
    Fed (parseBookMessage "99.5" "100.5") (.quote (bookQuote "99.5" "100.5")) := by
  refine ⟨bookMessageText "99.5" "100.5", ?_, fieldsReal_bookMessage⟩
  rw [events_bookMessage]
  exact List.mem_singleton_self _

theorem real_prices_fill_at_ask :
    (∀ event ∈ (processTextMessage (parseBookMessage "99.5" "100.5")
        (bookMessageText "99.5" "100.5")).events, RealEvent event) ∧
      (∃ s : SinkRun (InMemoryStorage ℚ) ℚ Unit Unit,
        s.made.map (fun d => (d.response.status, d.response.avgPrice)) = [(.filled, 201 / 2)] ∧
          ∀ delivery ∈ s.made, delivery.response.status = .filled →
            0 < delivery.response.avgPrice) ∧
      ∃ mid, ((RiskManager.create RiskLimits.unlimited).run
        [.updateQuote (exactQuote (bookQuote "99.5" "100.5"))]).midPrices (text "BTC_USDT") =
          some mid ∧ 0 < mid := by
  obtain ⟨hevents, hsink, hrisk⟩ := real_prices_iff (parseBookMessage "99.5" "100.5")
    (none : Option (InMemoryStorage ℚ)) SinkRun.noFees RiskLimits.unlimited
  refine ⟨(hevents _).mpr fieldsReal_bookMessage, ?_, ?_⟩
  · have hrun : (runActions SinkRun.step
        (.create none SinkRun.noFees : SinkRun (InMemoryStorage ℚ) ℚ Unit Unit)
        (restThenQuote "99.5" "100.5")).map
        (fun s => s.made.map (fun d => (d.response.status, d.response.avgPrice))) =
        some [(.filled, 201 / 2)] := by
      decide +kernel
    obtain ⟨s, hs, hview⟩ := Option.map_eq_some_iff.mp hrun
    refine ⟨s, hview, hsink s (Reachable.guarded_of_runActions _ .init ?_ hs)⟩
    intro a ha
    simp only [restThenQuote, List.mem_cons, List.not_mem_nil, or_false] at ha
    rcases ha with rfl | rfl | rfl
    · trivial
    · trivial
    · exact ⟨_, fed_bookQuote, rfl⟩
  · have hmid : ((RiskManager.create RiskLimits.unlimited).run
        [.updateQuote (exactQuote (bookQuote "99.5" "100.5"))]).midPrices (text "BTC_USDT") =
        some 100 := by
      decide +kernel
    refine ⟨100, hmid, hrisk _ ?_ _ _ hmid⟩
    intro c hc
    rw [List.mem_singleton.mp hc]
    exact ⟨_, fed_bookQuote, rfl⟩

/-- An empty price is a quote of zero, and a resting buy order is filled for nothing. -/
theorem empty_price_fills_at_zero :
    (processTextMessage (parseBookMessage "" "") (bookMessageText "" "")).events =
        [.quote (bookQuote "" "")] ∧
      ¬ RealEvent (.quote (bookQuote "" "")) ∧
      ∃ s : SinkRun (InMemoryStorage ℚ) ℚ Unit Unit,
        Reachable (Steps SinkRun.step) (.create none SinkRun.noFees) s ∧
          s.made.map (fun d => (d.response.status, d.response.avgPrice)) = [(.filled, 0)] := by
  refine ⟨events_bookMessage "" "", ?_, ?_⟩
  · intro h
    exact absurd h.1 (by decide +kernel)
  · have hrun : (runActions SinkRun.step
        (.create none SinkRun.noFees : SinkRun (InMemoryStorage ℚ) ℚ Unit Unit)
        (restThenQuote "" "")).map
        (fun s => s.made.map (fun d => (d.response.status, d.response.avgPrice))) =
        some [(.filled, 0)] := by
      decide +kernel
    exact Reachable.exists_of_runActions hrun

end Books

end Backtest
end CryptoHft
