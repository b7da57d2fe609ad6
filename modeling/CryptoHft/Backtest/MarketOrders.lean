import CryptoHft.Backtest.SinkLedger

/-!
# Market orders that wait for a market

With `reject_without_market` switched off, a market order for a ticker without a
quote comes to rest.  `immediate_fill_locked` would fill it against any quote, but
the loops over the resting orders pass over everything that is not a limit order:
when the first quote arrives the order stays where it is, and no later operation
fills it either.

`Settled` says that no market order rests on a ticker with a quote.  A run keeps
it exactly as long as every quote finds no market order resting on its ticker,
which is always so when `reject_without_market` is set.
-/

namespace CryptoHft
namespace Backtest

open Lib Storage SimulatedExecutionSink

namespace SimulatedExecutionSink

section Orders

variable {σ R κ φ : Type}

/-- A market order rests on the ticker. -/
def MarketOrderWaits (s : SimulatedExecutionSink σ R κ φ) (ticker : CString 16) : Prop :=
  ∃ order ∈ s.restingOrders, order.trade.type = .market ∧ order.trade.ticker = ticker

instance (s : SimulatedExecutionSink σ R κ φ) (ticker : CString 16) :
    Decidable (s.MarketOrderWaits ticker) :=
  inferInstanceAs (Decidable (∃ order ∈ s.restingOrders, _ ∧ _))

/-- No market order rests on a ticker with a quote. -/
def Settled (s : SimulatedExecutionSink σ R κ φ) : Prop :=
  ∀ ticker, s.quotes ticker ≠ none → ¬ s.MarketOrderWaits ticker

/-- The price at which a quote fills an order of the given side. -/
def fillPriceOf (quote : QuoteUpdate R) : OrderSide → R
  | .buy => quote.askPrice
  | .sell => quote.bidPrice

/-- The market orders that waited for a quote get it, at the price of their side. -/
def FilledBy (quote : QuoteUpdate R) (resting : List (PendingOrder R κ φ))
    (deliveries : List (ResponseDelivery R κ φ)) : Prop :=
  ∀ order ∈ resting, order.trade.type = .market → order.trade.ticker = quote.ticker →
    ∃ delivery ∈ deliveries, delivery.pending = order ∧ delivery.response.status = .filled ∧
      delivery.response.avgPrice = fillPriceOf quote order.trade.side

theorem settled_create
    [Field R]
    (storage : Option σ)
    (config : SimulatedExecutionConfig R) :
    Settled (create storage config : SimulatedExecutionSink σ R κ φ) := by
  intro ticker hquote
  exact absurd rfl hquote

/-- A loop takes orders out; the quotes are those it was started with. -/
theorem settled_of_swept
    [Field R]
    {s t : SimulatedExecutionSink σ R κ φ}
    {outcome : PendingOrder R κ φ → Option (Outcome R)}
    {deliveries : List (ResponseDelivery R κ φ)}
    (h : Settled s)
    (hswept : Swept outcome s deliveries t) :
    Settled t := by
  have hquotes : t.quotes = s.quotes := by
    rw [hswept.state]
    rfl
  rintro ticker hquote ⟨order, horder, hwaits⟩
  rw [hquotes] at hquote
  exact h ticker hquote ⟨order, hswept.perm.subset (List.mem_append_left _ horder), hwaits⟩

variable [LinearOrder R]

/-- A market order on a ticker with a quote is filled at once. -/
theorem immediateFill_ne_none
    {s : SimulatedExecutionSink σ R κ φ} {trade : Trade R}
    (hmarket : trade.type = .market)
    (hquote : s.quotes trade.ticker ≠ none) :
    s.immediateFill trade ≠ none := by
  obtain ⟨quote, hquote⟩ := Option.ne_none_iff_exists'.mp hquote
  cases hside : trade.side with
  | buy =>
      simp [immediateFill, hquote, hmarket, hside]
  | sell =>
      simp [immediateFill, hquote, hmarket, hside]

theorem settled_of_accepted
    [Field R]
    {s t : SimulatedExecutionSink σ R κ φ}
    {trade : Trade R} {responseCallback : Option κ} {storageFailureCallback : Option φ} {n : Nat}
    {deliveries : List (ResponseDelivery R κ φ)}
    (h : Settled s)
    (haccepted : Accepted s trade responseCallback storageFailureCallback n deliveries t) :
    Settled t := by
  cases haccepted with
  | answered response result hanswers hid hresult =>
      exact h
  | rests hvalid hfill =>
      rintro ticker hquote ⟨order, horder, hmarket, hticker⟩
      rcases List.mem_append.mp horder with horder | horder
      · exact h ticker hquote ⟨order, horder, hmarket, hticker⟩
      · rw [List.mem_singleton.mp horder] at hmarket hticker
        exact immediateFill_ne_none hmarket (by rw [hticker]; exact hquote) hfill

/-- The loop over a quote passes over market orders. -/
theorem quoteOutcome_of_market
    {quote : QuoteUpdate R} {order : PendingOrder R κ φ}
    (hmarket : order.trade.type = .market) :
    quoteOutcome quote order = none := by
  simp [quoteOutcome, hmarket]

/-- A market order stays at rest when a quote arrives. -/
theorem mem_resting_onQuote
    [Field R]
    {s : SimulatedExecutionSink σ R κ φ} {order : PendingOrder R κ φ}
    (horder : order ∈ s.restingOrders)
    (hmarket : order.trade.type = .market)
    (quote : QuoteUpdate R)
    (now : Nat → Int64) :
    order ∈ (s.onQuote quote now).2.restingOrders := by
  simp only [onQuote, sweepResting, sweep_kept]
  rw [List.mem_filter]
  exact ⟨horder, by rw [quoteOutcome_of_market hmarket]; rfl⟩

end Orders

end SimulatedExecutionSink

namespace SinkRun

section Runs

variable {σ R κ φ : Type} [Field R] [LinearOrder R] [IStorage σ R] {s t : SinkRun σ R κ φ}

/-- A quote finds no market order at rest on its ticker. -/
def FindsNoMarketOrder (s : SinkRun σ R κ φ) : SinkAction R κ φ → Prop
  | .call (.onQuote quote _) => ¬ s.sink.MarketOrderWaits quote.ticker
  | _ => True

/-- A quote fills the market orders that waited for it. -/
def FillsMarketOrders (s : SinkRun σ R κ φ) : SinkAction R κ φ → Prop
  | .call (.onQuote quote now) =>
      FilledBy quote s.sink.restingOrders (s.sink.onQuote quote now).1
  | _ => True

theorem settled_call
    {s : SimulatedExecutionSink σ R κ φ}
    (h : Settled s)
    {c : SinkCall R κ φ}
    (hc : ∀ quote now, c = .onQuote quote now → ¬ s.MarketOrderWaits quote.ticker) :
    Settled (s.call c).2 := by
  cases c with
  | submitTrade trade responseCallback storageFailureCallback eventNs storageNs now =>
      obtain ⟨failures, calls, haccepted⟩ := s.call_accepted trade responseCallback
        storageFailureCallback eventNs storageNs now
      refine settled_of_accepted ?_ haccepted
      exact h
  | cancelOrder instrument orderId clientOid now =>
      exact settled_of_swept h (s.sweepResting_swept _ _ now)
  | cancelAllOrders instrument now =>
      exact settled_of_swept h (s.sweepResting_swept _ _ now)
  | onQuote quote now =>
      refine settled_of_swept ?_ (sweepResting_swept _ (quoteOutcome quote) false now)
      intro ticker hquote hwaits
      by_cases hticker : ticker = quote.ticker
      · subst hticker
        exact hc quote now rfl hwaits
      · simp only [Function.update_of_ne hticker] at hquote
        exact h ticker hquote hwaits
  | onTrade tradeEvent now =>
      exact settled_of_swept h (s.sweepResting_swept _ _ now)

omit [Field R] [LinearOrder R] in
theorem settled_publish
    {s : SimulatedExecutionSink σ R κ φ}
    (h : Settled s)
    (delivery : ResponseDelivery R κ φ)
    (eventNs now : Int64) :
    Settled (s.publish delivery eventNs now) := by
  obtain ⟨failures, calls, heq⟩ := s.publish_eq delivery eventNs now
  rw [heq]
  exact h

theorem settled_step
    (h : s.sink.Settled)
    {a : SinkAction R κ φ}
    (hguard : s.FindsNoMarketOrder a)
    (ha : s.step a = some t) :
    s.FillsMarketOrders a ∧ t.sink.Settled := by
  cases a with
  | call c =>
      obtain ⟨-, rfl⟩ := step_call ha
      have hc : ∀ quote now, c = .onQuote quote now → ¬ s.sink.MarketOrderWaits quote.ticker := by
        rintro quote now rfl
        exact hguard
      refine ⟨?_, settled_call h hc⟩
      cases c with
      | onQuote quote now =>
          intro order horder hmarket hticker
          exact absurd ⟨order, horder, hmarket, hticker⟩ hguard
      | submitTrade | cancelOrder | cancelAllOrders | onTrade =>
          trivial
  | deliver eventNs now =>
      obtain ⟨delivery, rest, below, -, rfl⟩ := step_deliver ha
      exact ⟨trivial, settled_publish h delivery eventNs now⟩
  | callbackReturns =>
      obtain ⟨stack, rfl, -⟩ := step_returns (.inl rfl) ha
      exact ⟨trivial, h⟩
  | callReturns =>
      obtain ⟨stack, rfl, -⟩ := step_returns (.inr rfl) ha
      exact ⟨trivial, h⟩

/-- A quote that finds a market order leaves it at rest beside the quote. -/
theorem findsNoMarketOrder_of_settled
    {a : SinkAction R κ φ}
    (ha : s.step a = some t)
    (ht : t.sink.Settled) :
    s.FindsNoMarketOrder a := by
  cases a with
  | call c =>
      obtain ⟨-, rfl⟩ := step_call ha
      cases c with
      | onQuote quote now =>
          rintro ⟨order, horder, hmarket, hticker⟩
          refine ht quote.ticker ?_
            ⟨order, mem_resting_onQuote horder hmarket quote now, hmarket, hticker⟩
          have hquotes : (s.sink.onQuote quote now).2.quotes =
              Function.update s.sink.quotes quote.ticker (some quote) := by
            have hstate := (sweepResting_swept
              { s.sink with
                quotes := Function.update s.sink.quotes quote.ticker (some quote) }
              (quoteOutcome quote) false now).state
            rw [onQuote, hstate]
            rfl
          show (s.sink.onQuote quote now).2.quotes quote.ticker ≠ none
          simp [hquotes]
      | submitTrade | cancelOrder | cancelAllOrders | onTrade =>
          trivial
  | deliver | callbackReturns | callReturns =>
      trivial

/--
In every run: no market order ever rests on a ticker with a quote, and the first
quote fills the market orders that waited for it, exactly if every quote finds no
market order at rest on its ticker.
-/
theorem market_orders_settled_iff
    {storage : Option σ} {config : SimulatedExecutionConfig R}
    {trace : List (SinkRun σ R κ φ × SinkAction R κ φ)}
    (hrun : Execution (Steps SinkRun.step) (create storage config) trace s) :
    ((∀ p ∈ trace, p.1.sink.Settled ∧ p.1.FillsMarketOrders p.2) ∧ s.sink.Settled) ↔
      ∀ p ∈ trace, p.1.FindsNoMarketOrder p.2 := by
  have hok : ∀ (s : SinkRun σ R κ φ) a t, s.sink.Settled → Steps SinkRun.step s a t →
      s.FindsNoMarketOrder a → s.FillsMarketOrders a ∧ t.sink.Settled :=
    fun _ _ _ h ha hguard => settled_step h hguard ha
  have hbad : ∀ (s : SinkRun σ R κ φ) a t, s.sink.Settled → Steps SinkRun.step s a t →
      s.FillsMarketOrders a → t.sink.Settled → s.FindsNoMarketOrder a :=
    fun _ _ _ _ ha _ ht => findsNoMarketOrder_of_settled ha ht
  have hinit : (create storage config : SinkRun σ R κ φ).sink.Settled :=
    settled_create storage config
  exact hrun.forall_steps_iff (I := fun s => s.sink.Settled) (P := fun s => s.sink.Settled) hinit
    (fun _ h => h) hok hbad

/-- With `reject_without_market` every run meets the condition. -/
theorem findsNoMarketOrder_of_rejectWithoutMarket
    {storage : Option σ} {config : SimulatedExecutionConfig R}
    (hconfig : config.rejectWithoutMarket = true)
    (hs : Reachable (Steps SinkRun.step) (create storage config) s)
    (a : SinkAction R κ φ) :
    s.FindsNoMarketOrder a := by
  have hnone : ∀ order ∈ s.sink.restingOrders, order.trade.type ≠ .market := by
    refine forall_resting_of_reachable (K := fun trade => trade.type ≠ .market) ?_ hs
    intro u trade hu hvalid hfill hmarket
    -- without a quote the order is rejected, with one it is filled
    refine immediateFill_ne_none hmarket ?_ hfill
    intro hquote
    simp only [validateOrder] at hvalid
    split_ifs at hvalid with _ _ _ _ hreject
    exact hreject ⟨hmarket, by rw [hu, hconfig], hquote⟩
  cases a with
  | call c =>
      cases c with
      | onQuote quote now =>
          rintro ⟨order, horder, hmarket, -⟩
          exact hnone order horder hmarket
      | submitTrade | cancelOrder | cancelAllOrders | onTrade =>
          trivial
  | deliver | callbackReturns | callReturns =>
      trivial

end Runs

section Waiting

/-- Market orders may wait for a quote. -/
def waiting : SimulatedExecutionConfig ℚ :=
  ⟨0, 0, false⟩

def ethQuote : QuoteUpdate ℚ :=
  { btcQuote with ticker := .copyString (text "ETH_USDT"), bidPrice := 10, askPrice := 11 }

def marketOrder (clientOrderId : UInt64) (ticker : String) : SinkAction ℚ Unit Unit :=
  .call (.submitTrade (Trade.createMarketOrder clientOrderId 0 1 (text ticker) .buy 2).1
    (some ()) none 7 7 7)

instance (s : SinkRun (InMemoryStorage ℚ) ℚ Unit Unit) (a : SinkAction ℚ Unit Unit) :
    Decidable (s.FindsNoMarketOrder a) :=
  match a with
  | .call (.onQuote quote _) =>
      inferInstanceAs (Decidable (¬ s.sink.MarketOrderWaits quote.ticker))
  | .call (.submitTrade _ _ _ _ _ _) => isTrue trivial
  | .call (.cancelOrder _ _ _ _) => isTrue trivial
  | .call (.cancelAllOrders _ _) => isTrue trivial
  | .call (.onTrade _ _) => isTrue trivial
  | .deliver _ _ => isTrue trivial
  | .callbackReturns => isTrue trivial
  | .callReturns => isTrue trivial

/-- A market order waits for a quote of its ticker while another ticker is quoted. -/
theorem market_orders_settled_two_tickers :
    ∃ (trace : List (SinkRun (InMemoryStorage ℚ) ℚ Unit Unit × SinkAction ℚ Unit Unit))
        (s : SinkRun (InMemoryStorage ℚ) ℚ Unit Unit),
      Execution (Steps SinkRun.step) (create none waiting) trace s ∧
        s.made.map (fun d => (d.response.clientOrderId, d.response.avgPrice)) = [(2, 11)] ∧
        s.sink.MarketOrderWaits (.copyString (text "BTC_USDT")) ∧
        (∀ p ∈ trace, p.1.sink.Settled ∧ p.1.FillsMarketOrders p.2) ∧ s.sink.Settled := by
  have hrun : (runActions (guardActions SinkRun.step FindsNoMarketOrder)
      (create none waiting : SinkRun (InMemoryStorage ℚ) ℚ Unit Unit)
      [marketOrder 1 "BTC_USDT", .callReturns, .call (.onQuote ethQuote (fun _ => 6)),
        .callReturns, marketOrder 2 "ETH_USDT"]).map
        (fun s => (s.made.map (fun d => (d.response.clientOrderId, d.response.avgPrice)),
          decide (s.sink.MarketOrderWaits (.copyString (text "BTC_USDT"))))) =
      some ([(2, 11)], true) := by
    decide +kernel
  obtain ⟨trace, s, hexecution, hguards, hview⟩ :=
    Execution.exists_of_guardActions _ .init (by simp) hrun
  rw [Prod.mk.injEq, decide_eq_true_eq] at hview
  exact ⟨trace, s, hexecution, hview.1, hview.2, (market_orders_settled_iff hexecution).mpr hguards⟩

/-- The first quote of its ticker does not fill the market order that waits for it. -/
theorem market_order_lingers :
    ∃ s : SinkRun (InMemoryStorage ℚ) ℚ Unit Unit,
      Reachable (Steps SinkRun.step) (create none waiting) s ∧
        (s.sink.quotes (.copyString (text "BTC_USDT"))).isSome = true ∧ s.made.length = 0 ∧
        ¬ s.sink.Settled := by
  have hrun : (runActions SinkRun.step
      (create none waiting : SinkRun (InMemoryStorage ℚ) ℚ Unit Unit)
      [marketOrder 1 "BTC_USDT", .callReturns, .call (.onQuote btcQuote (fun _ => 6)),
        .callReturns]).map
        (fun s => ((s.sink.quotes (.copyString (text "BTC_USDT"))).isSome, s.made.length,
          decide (s.sink.MarketOrderWaits (.copyString (text "BTC_USDT"))))) =
      some (true, 0, true) := by
    decide +kernel
  obtain ⟨s, hs, hview⟩ := Reachable.exists_of_runActions hrun
  simp only [Prod.mk.injEq, decide_eq_true_eq] at hview
  obtain ⟨hquote, hmade, hwaits⟩ := hview
  refine ⟨s, hs, hquote, hmade, ?_⟩
  intro h
  exact h _ (Option.isSome_iff_ne_none.mp hquote) hwaits

end Waiting

end SinkRun

end Backtest
end CryptoHft
