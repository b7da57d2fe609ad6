import CryptoHft.Backtest.SinkLedger

/-!
# Limit orders are honoured

A limit order is tested against the market in three places: against the stored
quote when it is submitted, against each new quote, and against each trade.  The
first two fill at the quote and the third at the price of the trade.  `Honoured`
says that the three tests agree: a limit order rests only while the stored quote
of its ticker does not cross it, and whatever fills it respects its price.
-/

namespace CryptoHft
namespace Backtest

open Lib Storage SimulatedExecutionSink

section Prices

variable {R κ φ : Type} [LinearOrder R]

/-- The quote does not reach the price of the order. -/
def Apart (quote : QuoteUpdate R) (trade : Trade R) : Prop :=
  match trade.side with
  | .buy => trade.price < quote.askPrice
  | .sell => quote.bidPrice < trade.price

/-- The price is no worse than the limit of the order. -/
def WithinLimit (trade : Trade R) (price : R) : Prop :=
  match trade.side with
  | .buy => price ≤ trade.price
  | .sell => trade.price ≤ price

/-- A loop over a quote fills within the limit. -/
theorem withinLimit_of_quoteOutcome
    {quote : QuoteUpdate R} {order : PendingOrder R κ φ} {result : Outcome R}
    (h : quoteOutcome quote order = some result) :
    WithinLimit order.trade result.fillPrice := by
  simp only [quoteOutcome, Option.ite_none_left_eq_some, Option.some.injEq] at h
  obtain ⟨-, hcrossed, rfl⟩ := h
  cases hside : order.trade.side with
  | buy =>
      simpa [WithinLimit, hside] using hcrossed
  | sell =>
      simpa [WithinLimit, hside] using hcrossed

/-- A limit order of the ticker that a quote leaves is apart from it. -/
theorem apart_of_quoteOutcome
    {quote : QuoteUpdate R} {order : PendingOrder R κ φ}
    (h : quoteOutcome quote order = none)
    (hticker : quote.ticker = order.trade.ticker)
    (hlimit : order.trade.type = .limit) :
    Apart quote order.trade := by
  cases hside : order.trade.side with
  | buy =>
      simpa [quoteOutcome, hticker, hlimit, Apart, hside] using h
  | sell =>
      simpa [quoteOutcome, hticker, hlimit, Apart, hside] using h

/-- A trade fills within the limit, at its own price. -/
theorem withinLimit_of_tradeOutcome
    {tradeEvent : TradeEvent R} {order : PendingOrder R κ φ} {result : Outcome R}
    (h : tradeOutcome tradeEvent order = some result) :
    WithinLimit order.trade result.fillPrice := by
  simp only [tradeOutcome, Option.ite_none_left_eq_some, Option.some.injEq] at h
  obtain ⟨hcrosses, rfl⟩ := h
  cases hside : order.trade.side with
  | buy =>
      simp only [tradeCrossesLimit, hside] at hcrosses
      simp only [WithinLimit, hside]
      by_contra hprice
      exact hcrosses (.inr (.inr (decide_eq_false hprice)))
  | sell =>
      simp only [tradeCrossesLimit, hside] at hcrosses
      simp only [WithinLimit, hside]
      by_contra hprice
      exact hcrosses (.inr (.inr (decide_eq_false hprice)))

end Prices

section Submission

variable {σ R κ φ : Type} [LinearOrder R]
  {s : SimulatedExecutionSink σ R κ φ} {trade : Trade R}

theorem withinLimit_of_immediateFill
    (hlimit : trade.type = .limit)
    {fill : Fill R}
    (h : s.immediateFill trade = some fill) :
    WithinLimit trade fill.price := by
  rw [immediateFill] at h
  split at h
  · cases h
  · cases hside : trade.side with
    | buy =>
        simp only [hside, hlimit, if_true, reduceCtorEq, false_or,
          Option.ite_none_right_eq_some, Option.some.injEq] at h
        obtain ⟨hprice, rfl⟩ := h
        simpa [WithinLimit, hside] using hprice
    | sell =>
        simp only [hside, hlimit, reduceCtorEq, if_false, false_or,
          Option.ite_none_right_eq_some, Option.some.injEq] at h
        obtain ⟨hprice, rfl⟩ := h
        simpa [WithinLimit, hside] using hprice

theorem apart_of_immediateFill
    (hlimit : trade.type = .limit)
    (h : s.immediateFill trade = none)
    {quote : QuoteUpdate R}
    (hquote : s.quotes trade.ticker = some quote) :
    Apart quote trade := by
  cases hside : trade.side with
  | buy =>
      simpa [immediateFill, hquote, hlimit, hside, Apart] using h
  | sell =>
      simpa [immediateFill, hquote, hlimit, hside, Apart] using h

end Submission

namespace SinkRun

section Invariant

variable {σ R κ φ : Type} [Field R] [LinearOrder R]

/-- A fill of a limit order respects its limit and is complete. -/
def FilledWithinLimit (delivery : ResponseDelivery R κ φ) : Prop :=
  delivery.response.status = .filled → delivery.pending.trade.type = .limit →
    WithinLimit delivery.pending.trade delivery.response.avgPrice ∧
      delivery.response.filledQuantity = delivery.pending.trade.quantity

structure Honoured (s : SinkRun σ R κ φ) : Prop where
  resting : ∀ order ∈ s.sink.restingOrders, order.trade.type = .limit →
    ∀ quote, s.sink.quotes order.trade.ticker = some quote → Apart quote order.trade
  fills : ∀ delivery ∈ s.made, FilledWithinLimit delivery

theorem honoured_create
    (storage : Option σ)
    (config : SimulatedExecutionConfig R) :
    Honoured (create storage config : SinkRun σ R κ φ) := by
  constructor
  · simp [create, SimulatedExecutionSink.create]
  · simp [create, made, undelivered]

theorem filledWithinLimit_of_answers
    {delivery : ResponseDelivery R κ φ} {result : Outcome R}
    (hanswers : Answers delivery.response delivery.pending.trade result)
    (hprice : result.status = .filled → delivery.pending.trade.type = .limit →
      WithinLimit delivery.pending.trade result.fillPrice) :
    FilledWithinLimit delivery := by
  intro hstatus hlimit
  rw [hanswers.status] at hstatus
  rw [hanswers.avgPrice, hanswers.filledQuantity, if_pos hstatus]
  exact ⟨hprice hstatus hlimit, rfl⟩

variable {s t : SinkRun σ R κ φ}

/-- A loop fills within the limits and keeps orders that are apart from the quotes. -/
theorem Honoured.swept
    (h : Honoured s)
    {outcome : PendingOrder R κ φ → Option (Outcome R)}
    (hprice : ∀ order result, outcome order = some result → result.status = .filled →
      order.trade.type = .limit → WithinLimit order.trade result.fillPrice)
    {quotes : CString 16 → Option (QuoteUpdate R)}
    {result : List (ResponseDelivery R κ φ) × SimulatedExecutionSink σ R κ φ}
    (hswept : Swept outcome { s.sink with quotes := quotes } result.1 result.2)
    (hquotes : ∀ order ∈ result.2.restingOrders, order.trade.type = .limit →
      ∀ quote, quotes order.trade.ticker = some quote →
        s.sink.quotes order.trade.ticker = some quote ∨ Apart quote order.trade) :
    Honoured (s.entered result []) := by
  have hstored : result.2.quotes = quotes := by
    rw [hswept.state]
    rfl
  constructor
  · intro order horder hlimit quote hquote
    rw [entered, hstored] at hquote
    rcases hquotes order horder hlimit quote hquote with hbefore | hapart
    · exact h.resting order (hswept.perm.subset (List.mem_append_left _ horder)) hlimit quote
        hbefore
    · exact hapart
  · intro delivery hdelivery
    rw [made_entered] at hdelivery
    rcases List.mem_append.mp hdelivery with hdelivery | hdelivery
    · obtain ⟨decided, hdecided, hsettles⟩ := hswept.settles delivery hdelivery
      exact filledWithinLimit_of_answers hsettles.answers (hprice _ decided hdecided)
    · exact h.fills delivery hdelivery

/-- A submission fills within its limit or rests apart from the stored quote. -/
theorem Honoured.accepted
    (h : Honoured s)
    {recorded : SimulatedExecutionSink σ R κ φ}
    (hquotes : recorded.quotes = s.sink.quotes)
    (hresting : recorded.restingOrders = s.sink.restingOrders)
    {trade : Trade R} {responseCallback : Option κ} {storageFailureCallback : Option φ} {n : Nat}
    {result : List (ResponseDelivery R κ φ) × SimulatedExecutionSink σ R κ φ}
    (haccepted : Accepted recorded trade responseCallback storageFailureCallback n
      result.1 result.2) :
    Honoured (s.entered result [trade]) := by
  obtain ⟨deliveries, t⟩ := result
  cases haccepted with
  | answered response outcome hanswers hid hresult =>
      constructor
      · intro order horder hlimit quote hquote
        exact h.resting order (hresting ▸ horder) hlimit quote (hquotes ▸ hquote)
      · intro delivery hdelivery
        rw [made_entered] at hdelivery
        rcases List.mem_cons.mp hdelivery with rfl | hdelivery
        · refine filledWithinLimit_of_answers hanswers ?_
          intro hfilled hlimit
          rcases hresult with hrejected | ⟨fill, hfill, rfl⟩
          · rw [hrejected] at hfilled
            cases hfilled
          · exact withinLimit_of_immediateFill hlimit hfill
        · exact h.fills delivery hdelivery
  | rests hvalid hfill =>
      constructor
      · intro order horder hlimit quote hquote
        rcases List.mem_append.mp horder with horder | horder
        · exact h.resting order (hresting ▸ horder) hlimit quote (hquotes ▸ hquote)
        · rw [List.mem_singleton.mp horder] at hlimit hquote ⊢
          exact apart_of_immediateFill hlimit hfill hquote
      · rw [made_entered]
        exact h.fills

end Invariant

section Steps

variable {σ R κ φ : Type} [Field R] [LinearOrder R] [IStorage σ R] {s t : SinkRun σ R κ φ}

/-- The locked part of every operation honours the limits. -/
theorem Honoured.call
    (h : Honoured s)
    (c : SinkCall R κ φ) :
    Honoured (s.entered (s.sink.call c) c.trades) := by
  cases c with
  | submitTrade trade responseCallback storageFailureCallback eventNs storageNs now =>
      obtain ⟨failures, calls, hrecorded⟩ :=
        s.sink.recordSubmission_eq trade storageFailureCallback eventNs storageNs
      refine h.accepted ?_ ?_ (accept_accepted
        (s.sink.recordSubmission trade storageFailureCallback eventNs storageNs) trade
        responseCallback storageFailureCallback s.sink.submissions now)
      · rw [hrecorded]
      · rw [hrecorded]
  | cancelOrder instrument orderId clientOid now =>
      refine h.swept ?_ (s.sink.sweepResting_swept _ _ now) (fun _ _ _ _ hquote => .inl hquote)
      intro order result hresult hfilled
      simp only [cancelOutcome, Option.ite_none_right_eq_some, Option.some.injEq] at hresult
      rw [← hresult.2] at hfilled
      cases hfilled
  | cancelAllOrders instrument now =>
      refine h.swept ?_ (s.sink.sweepResting_swept _ _ now) (fun _ _ _ _ hquote => .inl hquote)
      intro order result hresult hfilled
      simp only [cancelAllOutcome, Option.ite_none_left_eq_some, Option.some.injEq] at hresult
      rw [← hresult.2] at hfilled
      cases hfilled
  | onQuote quote now =>
      refine h.swept (fun order result hresult _ _ => withinLimit_of_quoteOutcome hresult)
        (sweepResting_swept _ (quoteOutcome quote) false now) ?_
      intro order horder hlimit stored hstored
      have hleft := outcome_of_mem_sweepResting horder
      by_cases hticker : quote.ticker = order.trade.ticker
      · rw [← hticker, Function.update_self, Option.some.injEq] at hstored
        subst hstored
        exact .inr (apart_of_quoteOutcome hleft hticker hlimit)
      · rw [Function.update_of_ne (Ne.symm hticker)] at hstored
        exact .inl hstored
  | onTrade tradeEvent now =>
      exact h.swept (fun order result hresult _ _ => withinLimit_of_tradeOutcome hresult)
        (s.sink.sweepResting_swept _ _ now) (fun _ _ _ _ hquote => .inl hquote)

theorem Honoured.step
    (h : Honoured s)
    {a : SinkAction R κ φ}
    (ha : s.step a = some t) :
    Honoured t := by
  cases a with
  | call c =>
      obtain ⟨-, rfl⟩ := step_call ha
      exact h.call c
  | deliver eventNs now =>
      obtain ⟨delivery, rest, below, hstack, rfl⟩ := step_deliver ha
      have hmade := made_perm_of_deliver hstack eventNs now
      obtain ⟨failures, calls, hsink⟩ := s.sink.publish_eq delivery eventNs now
      rw [hsink] at hmade ⊢
      exact ⟨h.resting, fun d hd => h.fills d (hmade.subset hd)⟩
  | callbackReturns =>
      obtain ⟨stack, rfl, hmade⟩ := step_returns (.inl rfl) ha
      exact ⟨h.resting, by rw [hmade]; exact h.fills⟩
  | callReturns =>
      obtain ⟨stack, rfl, hmade⟩ := step_returns (.inr rfl) ha
      exact ⟨h.resting, by rw [hmade]; exact h.fills⟩

/--
In every state of a run no resting limit order crosses the stored quote of its
ticker, and every response that reports a fill of a limit order is complete and
within its limit.
-/
theorem limit_orders_honoured
    {storage : Option σ} {config : SimulatedExecutionConfig R}
    (hs : Reachable (Steps SinkRun.step) (create storage config) s) :
    (∀ order ∈ s.sink.restingOrders, order.trade.type = .limit →
      ∀ quote, s.sink.quotes order.trade.ticker = some quote → Apart quote order.trade) ∧
    ∀ delivery ∈ s.made, s.trades[delivery.pending.submission]? = some delivery.pending.trade ∧
      FilledWithinLimit delivery := by
  have h : Honoured s :=
    hs.invariant (honoured_create storage config) (fun _ _ _ h ha => h.step ha)
  have hledger := ledger_of_reachable hs
  refine ⟨h.resting, fun delivery hdelivery => ⟨?_, h.fills delivery hdelivery⟩⟩
  exact hledger.accounts.trades delivery.pending
    (List.mem_append_right _ (List.mem_map.mpr ⟨delivery, hdelivery, rfl⟩))

/-- A limit order that rests is filled by a trade below its price. -/
theorem limit_orders_honoured_on_trade :
    ∃ s : SinkRun (InMemoryStorage ℚ) ℚ Unit Unit,
      Reachable (Steps SinkRun.step) (create none noFees) s ∧
        (s.made.map (fun d => (d.response.status, d.response.avgPrice, d.pending.trade.price))) =
          [(.filled, 98, 99)] ∧
        ∀ delivery ∈ s.made, FilledWithinLimit delivery := by
  have hrun : (runActions SinkRun.step
      (create none noFees : SinkRun (InMemoryStorage ℚ) ℚ Unit Unit)
      [.call (.onQuote btcQuote (fun _ => 6)), .callReturns,
        .call (.submitTrade (Trade.createLimitOrder 1 0 1 (text "BTC_USDT") .buy 2 99).1
          none none 7 7 7), .callReturns,
        .call (.onTrade ⟨.copyString (text "BTC_USDT"), 98, 1, false, 8, 1⟩ (fun _ => 8))]).map
        (fun s => s.made.map (fun d =>
          (d.response.status, d.response.avgPrice, d.pending.trade.price))) =
      some [(.filled, 98, 99)] := by
    decide +kernel
  obtain ⟨s, hs, hview⟩ := Reachable.exists_of_runActions hrun
  exact ⟨s, hs, hview, fun delivery hdelivery =>
    ((limit_orders_honoured hs).2 delivery hdelivery).2⟩

end Steps

end SinkRun

end Backtest
end CryptoHft
