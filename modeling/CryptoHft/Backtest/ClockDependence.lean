import CryptoHft.Backtest.BacktestReplayDriver

/-!
# Backtests and the clock

A backtest should depend on the recorded market data only.  The simulated sink
and the momentum strategy do; the market maker compares readings of
`steady_clock` with each other, so how many orders it places during a replay
depends on how fast the replay runs.

`clock_independent_iff` says for which logs the result of `run_backtest` does not
depend on the clock: those without a quote for a ticker of the market makers.  If
there is none, two backtests keep in step (`BacktestRun.Alike`).  Otherwise a
clock that stands still makes the market makers place nothing (`Still`), and one
that advances by 100 ms from reading to reading makes them place orders on every
quote (`Due`).
-/

namespace CryptoHft
namespace Backtest

open Lib Storage Strategy

namespace SimulatedExecutionSink

section Books

variable {R : Type}

/-- The part of a sink without resting orders that decides about market orders. -/
structure Books (R : Type) where
  config : SimulatedExecutionConfig R
  quotes : CString 16 → Option (QuoteUpdate R)
  filled : UInt64
  rejected : UInt64
  grossNotional : R
  fees : R

variable {σ κ φ : Type}

def books (s : SimulatedExecutionSink σ R κ φ) : Books R where
  config := s.config
  quotes := s.quotes
  filled := s.filled
  rejected := s.rejected
  grossNotional := s.grossNotional
  fees := s.fees

variable [Field R] [LinearOrder R]

/-- A market order is filled at the other side of the quote, or rejected. -/
def Books.market (b : Books R) (order : OrderSummary R) : Books R :=
  match b.quotes order.ticker with
  | none => { b with rejected := b.rejected + 1 }
  | some quote =>
      if order.ticker.bytes = [] ∨ order.quantity ≤ 0 then { b with rejected := b.rejected + 1 }
      else
        let price := if order.side = .buy then quote.askPrice else quote.bidPrice
        { b with
          filled := b.filled + 1
          grossNotional := b.grossNotional + price * order.quantity
          fees := b.fees + price * order.quantity * b.config.takerFeeBps / (10000 : ℕ) }

/-- No order rests, and market orders without a quote are rejected. -/
structure Quiet (s : SimulatedExecutionSink σ R κ φ) : Prop where
  resting : s.restingOrders = []
  rejects : s.config.rejectWithoutMarket = true

variable [IStorage σ R] {s : SimulatedExecutionSink σ R κ φ}

theorem Quiet.perform_onQuote
    (h : Quiet s)
    (quote : QuoteUpdate R) (now : Nat → Int64) (clock : Nat → Int64 × Int64) :
    Quiet (s.perform ⟨.onQuote quote now, clock⟩).2 ∧
      (s.perform ⟨.onQuote quote now, clock⟩).2.books =
        { s.books with quotes := Function.update s.quotes quote.ticker (some quote) } := by
  simp only [perform, call, onQuote, sweepResting, h.resting, sweep, deliverAll]
  exact ⟨⟨rfl, h.rejects⟩, rfl⟩

theorem Quiet.perform_onTrade
    (h : Quiet s)
    (tradeEvent : TradeEvent R) (now : Nat → Int64) (clock : Nat → Int64 × Int64) :
    Quiet (s.perform ⟨.onTrade tradeEvent now, clock⟩).2 ∧
      (s.perform ⟨.onTrade tradeEvent now, clock⟩).2.books = s.books := by
  simp only [perform, call, onTrade, sweepResting, h.resting, sweep, deliverAll]
  exact ⟨⟨rfl, h.rejects⟩, rfl⟩

theorem Quiet.perform_cancelAllOrders
    (h : Quiet s)
    (instrument : Bytes) (now : Nat → Int64) (clock : Nat → Int64 × Int64) :
    Quiet (s.perform ⟨.cancelAllOrders instrument now, clock⟩).2 ∧
      (s.perform ⟨.cancelAllOrders instrument now, clock⟩).2.books = s.books := by
  simp only [perform, call, cancelAllOrders, sweepResting, h.resting, sweep, deliverAll]
  exact ⟨⟨rfl, h.rejects⟩, rfl⟩

omit [IStorage σ R] in
/-- Which market orders pass the validation. -/
theorem Quiet.validateOrder_market
    (h : Quiet s)
    {trade : Trade R}
    (htype : trade.type = .market) :
    s.validateOrder trade = none ↔
      trade.ticker.bytes ≠ [] ∧ ¬ trade.quantity ≤ 0 ∧ s.quotes trade.ticker ≠ none := by
  simp only [validateOrder, htype, h.rejects]
  split_ifs <;> simp_all

/-- The books after a response was made and published. -/
def published (t : SimulatedExecutionSink σ R κ φ) (response : OrderResponse R) : Books R :=
  { t.books with
    filled := t.filled + if response.status = .filled then 1 else 0
    rejected := t.rejected + if response.status = .rejected then 1 else 0 }

omit [IStorage σ R] in
/-- A market order is answered at once. -/
theorem Quiet.accept_market
    (h : Quiet s)
    {trade : Trade R}
    (htype : trade.type = .market)
    (responseCallback : Option κ) (storageFailureCallback : Option φ) (n : Nat) (now : Int64) :
    ∃ (outcome : Outcome R) (message : Bytes),
      s.accept trade responseCallback storageFailureCallback n now =
          ([⟨⟨trade, (s.makeResponse trade outcome message now).1.exchangeOrderId,
              responseCallback, storageFailureCallback, n⟩,
            (s.makeResponse trade outcome message now).1⟩],
          (s.makeResponse trade outcome message now).2) ∧
        published (s.makeResponse trade outcome message now).2
            (s.makeResponse trade outcome message now).1 =
          s.books.market (summary trade) := by
  cases hvalid : s.validateOrder trade with
  | some reason =>
      refine ⟨⟨.rejected, 0, 0⟩, reason, by simp only [accept, hvalid], ?_⟩
      have hinvalid : ¬ (trade.ticker.bytes ≠ [] ∧ ¬ trade.quantity ≤ 0 ∧
          s.quotes trade.ticker ≠ none) := by
        rw [← h.validateOrder_market htype, hvalid]
        simp
      cases hquote : s.quotes trade.ticker with
      | none =>
          simp [published, makeResponse, drawId, books, Books.market, summary, hquote]
      | some quote =>
          have hbad : trade.ticker.bytes = [] ∨ trade.quantity ≤ 0 := by
            by_contra hgood
            obtain ⟨hticker, hquantity⟩ := not_or.mp hgood
            exact hinvalid ⟨hticker, hquantity, by simp [hquote]⟩
          simp [published, makeResponse, drawId, books, Books.market, summary, hquote, hbad]
  | none =>
      obtain ⟨hticker, hquantity, hsome⟩ := (h.validateOrder_market htype).mp hvalid
      obtain ⟨quote, hquote⟩ := Option.ne_none_iff_exists'.mp hsome
      have hfill : s.immediateFill trade =
          some ⟨if trade.side = .buy then quote.askPrice else quote.bidPrice,
            quote.timestampNs⟩ := by
        simp only [immediateFill, hquote, htype, true_or, if_true]
        split_ifs <;> rfl
      refine ⟨⟨.filled, if trade.side = .buy then quote.askPrice else quote.bidPrice,
        quote.timestampNs⟩, [], by simp only [accept, hvalid, hfill], ?_⟩
      simp [published, makeResponse, drawId, books, Books.market, summary, hquote, hticker,
        hquantity, feeOf, htype]

/-- Submitting a market order is the transition of the books. -/
theorem Quiet.perform_market
    (h : Quiet s)
    (trade : Trade R)
    (htype : trade.type = .market)
    (responseCallback : Option κ) (storageFailureCallback : Option φ)
    (eventNs storageNs now : Int64) (clock : Nat → Int64 × Int64) :
    Quiet (s.perform ⟨.submitTrade trade responseCallback storageFailureCallback eventNs
        storageNs now, clock⟩).2 ∧
      (s.perform ⟨.submitTrade trade responseCallback storageFailureCallback eventNs
        storageNs now, clock⟩).2.books = s.books.market (summary trade) := by
  obtain ⟨failures, calls, hrecorded⟩ :=
    s.recordSubmission_eq trade storageFailureCallback eventNs storageNs
  have hquiet : Quiet (s.recordSubmission trade storageFailureCallback eventNs storageNs) := by
    rw [hrecorded]
    exact ⟨h.resting, h.rejects⟩
  have hbooks : (s.recordSubmission trade storageFailureCallback eventNs storageNs).books =
      s.books := by
    rw [hrecorded]
    rfl
  obtain ⟨outcome, message, haccept, hpublished⟩ := hquiet.accept_market htype responseCallback
    storageFailureCallback s.submissions now
  rw [hbooks] at hpublished
  simp only [perform, call, submitTrade, haccept, deliverAll]
  obtain ⟨failures, calls, hsink⟩ := publish_eq
    ((s.recordSubmission trade storageFailureCallback eventNs storageNs).makeResponse trade
      outcome message now).2
    ⟨⟨trade, _, responseCallback, storageFailureCallback, s.submissions⟩,
      ((s.recordSubmission trade storageFailureCallback eventNs storageNs).makeResponse trade
        outcome message now).1⟩ (clock s.submissions).1 (clock s.submissions).2
  rw [hsink]
  refine ⟨?_, hpublished⟩
  rw [makeResponse_state]
  exact ⟨hquiet.resting, hquiet.rejects⟩

end Books

end SimulatedExecutionSink

section Loops

variable {R : Type}

/-- A strategy without its clock reading. -/
def clockless : ExampleStrategy R → ExampleStrategy R
  | .marketMaker m => .marketMaker { m with lastUpdate := 0 }
  | .momentum m => .momentum m

theorem base_clockless (s : ExampleStrategy R) : (clockless s).base = s.base := by
  cases s with
  | marketMaker m =>
      rfl
  | momentum m =>
      rfl

/-- Two handlers that treat related strategies alike do so in the loops of the manager. -/
theorem forEach_alike
    {handle handle' : ExampleStrategy R → Runtime R → ExampleStrategy R × Runtime R}
    {P : Runtime R → Runtime R → Prop}
    (hhandle : ∀ s s' rt rt', clockless s = clockless s' → P rt rt' →
      clockless (handle s rt).1 = clockless (handle' s' rt').1 ∧
        P (handle s rt).2 (handle' s' rt').2) :
    ∀ strategies strategies' rt rt', strategies.map clockless = strategies'.map clockless →
      P rt rt' →
      (ExampleStrategy.forEach handle strategies rt).1.map clockless =
          (ExampleStrategy.forEach handle' strategies' rt').1.map clockless ∧
        P (ExampleStrategy.forEach handle strategies rt).2
          (ExampleStrategy.forEach handle' strategies' rt').2
  | [], [], rt, rt', _, hP => ⟨rfl, hP⟩
  | [], _ :: _, _, _, h, _ => by cases h
  | _ :: _, [], _, _, h, _ => by cases h
  | s :: rest, s' :: rest', rt, rt', h, hP => by
      simp only [List.map_cons, List.cons.injEq] at h
      obtain ⟨hs, hrt⟩ := hhandle s s' rt rt' h.1 hP
      obtain ⟨hrest, hlast⟩ := forEach_alike hhandle rest rest' _ _ h.2 hrt
      exact ⟨by simp only [ExampleStrategy.forEach, List.map_cons, hs, hrest], hlast⟩

section Keeping

variable {handle : ExampleStrategy R → Runtime R → ExampleStrategy R × Runtime R}
  {P : ExampleStrategy R → Runtime R → Prop} {Q : Runtime R → Runtime R → Prop}
  (hrefl : ∀ rt, Q rt rt)
  (htrans : ∀ rt₁ rt₂ rt₃, Q rt₁ rt₂ → Q rt₂ rt₃ → Q rt₁ rt₃)
  (hstable : ∀ s rt rt', P s rt → Q rt rt' → P s rt')
  (hhandle : ∀ s rt, P s rt → P (handle s rt).1 (handle s rt).2 ∧ Q rt (handle s rt).2)

include hrefl htrans hstable hhandle

/--
The loops of the manager keep what the handlers keep: a fact `P` about each strategy
that survives as the runtime moves on by `Q`.
-/
theorem forEach_keeps :
    ∀ strategies rt, (∀ s ∈ strategies, P s rt) →
      (∀ s ∈ (ExampleStrategy.forEach handle strategies rt).1,
        P s (ExampleStrategy.forEach handle strategies rt).2) ∧
      Q rt (ExampleStrategy.forEach handle strategies rt).2
  | [], rt, _ => ⟨by simp [ExampleStrategy.forEach], hrefl rt⟩
  | s :: rest, rt, h => by
      obtain ⟨hs, hmoved⟩ := hhandle s rt (h s (by simp))
      obtain ⟨hrest, hlast⟩ := forEach_keeps rest (handle s rt).2
        (fun s' hs' => hstable s' _ _ (h s' (by simp [hs'])) hmoved)
      refine ⟨?_, htrans _ _ _ hmoved hlast⟩
      intro s' hs'
      rcases List.mem_cons.mp hs' with rfl | hs'
      · exact hstable _ _ _ hs hlast
      · exact hrest s' hs'

/-- What one handler achieves for good is achieved after the loop. -/
theorem forEach_reaches
    {G : Runtime R → Prop}
    (hG : ∀ rt rt', G rt → Q rt rt' → G rt')
    {s : ExampleStrategy R}
    (hreach : ∀ rt, P s rt → G (handle s rt).2) :
    ∀ strategies rt, s ∈ strategies → (∀ s' ∈ strategies, P s' rt) →
      G (ExampleStrategy.forEach handle strategies rt).2
  | [], _, hs, _ => by cases hs
  | first :: rest, rt, hs, h => by
      obtain ⟨-, hmoved⟩ := hhandle first rt (h first (by simp))
      have hrest : ∀ s' ∈ rest, P s' (handle first rt).2 :=
        fun s' hs' => hstable s' _ _ (h s' (by simp [hs'])) hmoved
      rcases List.mem_cons.mp hs with rfl | hs
      · exact hG _ _ (hreach rt (h s (by simp)))
          (forEach_keeps hrefl htrans hstable hhandle rest _ hrest).2
      · exact forEach_reaches hG hreach rest _ hs hrest

end Keeping

theorem forEach_of_idle
    {handle : ExampleStrategy R → Runtime R → ExampleStrategy R × Runtime R}
    {strategies : List (ExampleStrategy R)}
    (h : ∀ s ∈ strategies, ∀ rt, handle s rt = (s, rt)) (rt : Runtime R) :
    ExampleStrategy.forEach handle strategies rt = (strategies, rt) := by
  induction strategies with
  | nil =>
      rfl
  | cons s rest ih =>
      simp only [ExampleStrategy.forEach, h s (by simp), ih (fun s' hs' => h s' (by simp [hs']))]

/-- Whether a strategy is a market maker, and what the manager reads of it. -/
def kind : ExampleStrategy R → Bool × StrategyBase
  | .marketMaker m => (true, m.toStrategyBase)
  | .momentum m => (false, m.toStrategyBase)

theorem map_kind_forEach
    {handle : ExampleStrategy R → Runtime R → ExampleStrategy R × Runtime R}
    (h : ∀ s rt, kind (handle s rt).1 = kind s)
    (strategies : List (ExampleStrategy R)) (rt : Runtime R) :
    (ExampleStrategy.forEach handle strategies rt).1.map kind = strategies.map kind := by
  induction strategies generalizing rt with
  | nil =>
      rfl
  | cons s rest ih =>
      simp only [ExampleStrategy.forEach, List.map_cons, h, ih]

variable [Field R] [LinearOrder R]

/-- Handling market data does not change what a strategy is. -/
theorem kind_ifMatching_onQuote (clocks : Clocks) (quote : QuoteUpdate R) (ticker : Bytes)
    (s : ExampleStrategy R) (rt : Runtime R) :
    kind (ExampleStrategy.ifMatching ticker (ExampleStrategy.onQuote clocks quote) s rt).1 =
      kind s := by
  unfold ExampleStrategy.ifMatching
  split_ifs
  · rfl
  · cases s with
    | marketMaker m =>
        simp only [ExampleStrategy.onQuote, SimpleMarketMaker.onQuote]
        split_ifs <;> rfl
    | momentum m =>
        rfl

theorem kind_ifMatching_onTrade (clocks : Clocks) (tradeEvent : TradeEvent R) (ticker : Bytes)
    (s : ExampleStrategy R) (rt : Runtime R) :
    kind (ExampleStrategy.ifMatching ticker (ExampleStrategy.onTrade clocks tradeEvent) s rt).1 =
      kind s := by
  unfold ExampleStrategy.ifMatching
  split_ifs
  · rfl
  · cases s with
    | marketMaker m =>
        rfl
    | momentum m =>
        simp only [ExampleStrategy.onTrade, SimpleMomentum.onTrade]
        split_ifs <;> rfl

end Loops

section Alike

variable {R : Type} [Field R] [LinearOrder R]

/-- Two runtimes that differ in clock readings only, without resting orders. -/
structure Alike (rt rt' : Runtime R) : Prop where
  quiet : rt.sink.Quiet
  quiet' : rt'.sink.Quiet
  books : rt.sink.books = rt'.sink.books
  orders : rt.orders.map summary = rt'.orders.map summary

variable {rt rt' : Runtime R}

/-- A market order of a strategy keeps two runtimes alike. -/
theorem Alike.placeMarketOrder
    (h : Alike rt rt')
    (clocks clocks' : Clocks) (base : StrategyBase) (ticker : Bytes) (side : OrderSide)
    (quantity : R) :
    Alike (placeMarketOrder clocks base ticker side quantity rt)
      (placeMarketOrder clocks' base ticker side quantity rt') := by
  unfold Strategy.placeMarketOrder
  split
  · exact h
  · obtain ⟨hquiet, hbooks⟩ := h.quiet.perform_market
      (Trade.createMarketOrder rt.orderIdCounter (clocks.system rt.operations 3)
        base.strategyId ticker side quantity).1 rfl (some ()) (some ())
      (clocks.system rt.operations 0) (clocks.system rt.operations 1)
      (clocks.system rt.operations 2)
      (fun n => (clocks.system rt.operations n, clocks.system rt.operations n))
    obtain ⟨hquiet', hbooks'⟩ := h.quiet'.perform_market
      (Trade.createMarketOrder rt'.orderIdCounter (clocks'.system rt'.operations 3)
        base.strategyId ticker side quantity).1 rfl (some ()) (some ())
      (clocks'.system rt'.operations 0) (clocks'.system rt'.operations 1)
      (clocks'.system rt'.operations 2)
      (fun n => (clocks'.system rt'.operations n, clocks'.system rt'.operations n))
    refine ⟨hquiet, hquiet', ?_, ?_⟩
    · refine hbooks.trans (Eq.trans ?_ hbooks'.symm)
      rw [h.books]
      rfl
    · simp only [Runtime.submitTrade, List.map_append, h.orders]
      rfl

/-- The trade handlers do not read the clock. -/
theorem Alike.onTrade
    (h : Alike rt rt')
    (clocks clocks' : Clocks) (tradeEvent : TradeEvent R)
    {s s' : ExampleStrategy R}
    (hs : clockless s = clockless s') :
    clockless (s.onTrade clocks tradeEvent rt).1 =
        clockless (s'.onTrade clocks' tradeEvent rt').1 ∧
      Alike (s.onTrade clocks tradeEvent rt).2 (s'.onTrade clocks' tradeEvent rt').2 := by
  cases s with
  | marketMaker m =>
      cases s' with
      | marketMaker m' =>
          exact ⟨hs, h⟩
      | momentum m' =>
          cases hs
  | momentum m =>
      cases s' with
      | marketMaker m' =>
          cases hs
      | momentum m' =>
          cases hs
          simp only [ExampleStrategy.onTrade, SimpleMomentum.onTrade]
          split_ifs
          · exact ⟨rfl, h⟩
          · exact ⟨rfl, h⟩
          · exact ⟨rfl, h.placeMarketOrder ..⟩
          · exact ⟨rfl, h.placeMarketOrder ..⟩
          · exact ⟨rfl, h⟩

omit [Field R] [LinearOrder R] in
/-- The test around a handler reads nothing of the clock. -/
theorem ifMatching_alike
    {handle handle' : ExampleStrategy R → Runtime R → ExampleStrategy R × Runtime R}
    {P : Runtime R → Runtime R → Prop}
    (ticker : Bytes)
    {s s' : ExampleStrategy R}
    (hs : clockless s = clockless s')
    (h : P rt rt')
    (hhandle : clockless (handle s rt).1 = clockless (handle' s' rt').1 ∧
      P (handle s rt).2 (handle' s' rt').2) :
    clockless (ExampleStrategy.ifMatching ticker handle s rt).1 =
        clockless (ExampleStrategy.ifMatching ticker handle' s' rt').1 ∧
      P (ExampleStrategy.ifMatching ticker handle s rt).2
        (ExampleStrategy.ifMatching ticker handle' s' rt').2 := by
  have hbase : s.base = s'.base := by
    rw [← base_clockless s, hs, base_clockless]
  unfold ExampleStrategy.ifMatching
  rw [hbase]
  split_ifs
  · exact ⟨hs, h⟩
  · exact hhandle

theorem Alike.perform
    (h : Alike rt rt')
    (clocks clocks' : Clocks)
    {call : (Nat → Int64) → SinkCall R Unit Unit}
    {f : SimulatedExecutionSink.Books R → SimulatedExecutionSink.Books R}
    (hcall : ∀ (s : SimulatedExecutionSink (InMemoryStorage R) R Unit Unit) now clock, s.Quiet →
      (s.perform ⟨call now, clock⟩).2.Quiet ∧ (s.perform ⟨call now, clock⟩).2.books = f s.books) :
    Alike (rt.perform clocks call) (rt'.perform clocks' call) := by
  obtain ⟨hquiet, hbooks⟩ := hcall rt.sink (clocks.system rt.operations)
    (fun n => (clocks.system rt.operations n, clocks.system rt.operations n)) h.quiet
  obtain ⟨hquiet', hbooks'⟩ := hcall rt'.sink (clocks'.system rt'.operations)
    (fun n => (clocks'.system rt'.operations n, clocks'.system rt'.operations n)) h.quiet'
  exact ⟨hquiet, hquiet', hbooks.trans ((congrArg f h.books).trans hbooks'.symm), h.orders⟩

/-- Stopping a strategy cancels orders, of which there are none. -/
theorem Alike.stop
    (h : Alike rt rt')
    (clocks clocks' : Clocks)
    {s s' : ExampleStrategy R}
    (hs : clockless s = clockless s') :
    clockless (s.stop clocks rt).1 = clockless (s'.stop clocks' rt').1 ∧
      Alike (s.stop clocks rt).2 (s'.stop clocks' rt').2 := by
  cases s with
  | marketMaker m =>
      cases s' with
      | marketMaker m' =>
          have hm : { m with lastUpdate := 0 } = { m' with lastUpdate := 0 } :=
            ExampleStrategy.marketMaker.inj hs
          obtain ⟨hbase, hspread, hsize, hmid, -⟩ := SimpleMarketMaker.mk.injEq .. ▸ hm
          refine ⟨by simp only [ExampleStrategy.stop, clockless, hbase, hspread, hsize, hmid], ?_⟩
          simp only [ExampleStrategy.stop, SimpleMarketMaker.onStop, hbase]
          split
          · exact h
          · exact h.perform clocks clocks' (f := id)
              (fun s now clock hs => hs.perform_cancelAllOrders _ now clock)
      | momentum m' =>
          cases hs
  | momentum m =>
      cases s' with
      | marketMaker m' =>
          cases hs
      | momentum m' =>
          cases hs
          exact ⟨rfl, h⟩

end Alike

section Replay

variable {R : Type} [Field R] [LinearOrder R]

/-- The strategies of `run_backtest`. -/
def backtestKinds : List (Bool × StrategyBase) :=
  [(true, ⟨1, [text "BTC_USDT"], true⟩), (true, ⟨2, [text "ETH_USDT"], true⟩),
    (false, ⟨3, [text "BTC_USDT"], true⟩)]

/-- A ticker of a market maker of `run_backtest`. -/
def MakerTicker (ticker : Bytes) : Prop :=
  ticker = text "BTC_USDT" ∨ ticker = text "ETH_USDT"

theorem makerTicker_iff (ticker : Bytes) :
    MakerTicker ticker ↔ ∃ base, (true, base) ∈ backtestKinds ∧ base.tracksTicker ticker = true := by
  unfold MakerTicker backtestKinds
  generalize text "BTC_USDT" = btc
  generalize text "ETH_USDT" = eth
  constructor
  · rintro (rfl | rfl)
    · exact ⟨⟨1, [ticker], true⟩, by simp, by simp [StrategyBase.tracksTicker]⟩
    · exact ⟨⟨2, [ticker], true⟩, by simp, by simp [StrategyBase.tracksTicker]⟩
  · rintro ⟨base, hbase, htracks⟩
    simp only [List.mem_cons, Prod.mk.injEq, true_and, Bool.true_eq_false, false_and,
      List.not_mem_nil, or_false] at hbase
    rcases hbase with rfl | rfl
    · exact .inl (by simpa [StrategyBase.tracksTicker, eq_comm] using htracks)
    · exact .inr (by simpa [StrategyBase.tracksTicker, eq_comm] using htracks)

theorem active_of_mem_backtestKinds
    {k : Bool × StrategyBase}
    (h : k ∈ backtestKinds) :
    k.2.active = true := by
  simp only [backtestKinds, List.mem_cons, List.not_mem_nil, or_false] at h
  rcases h with rfl | rfl | rfl <;> rfl

/-- A quote that no market maker tracks reaches no strategy that acts on it. -/
theorem replayQuote_untracked
    {strategies : List (ExampleStrategy R)}
    (hkinds : strategies.map kind = backtestKinds)
    {quote : QuoteUpdate R}
    (hticker : ¬ MakerTicker quote.ticker.bytes)
    (clocks : Clocks) (rt : Runtime R) :
    ExampleStrategy.replayQuote clocks quote strategies rt = (strategies, rt) := by
  refine forEach_of_idle ?_ rt
  intro s hs rt
  cases s with
  | momentum m =>
      unfold ExampleStrategy.ifMatching
      split_ifs <;> rfl
  | marketMaker m =>
      have hmem : (true, m.toStrategyBase) ∈ backtestKinds := by
        rw [← hkinds]
        exact List.mem_map_of_mem hs
      have huntracked : m.tracksTicker quote.ticker.bytes = false := by
        by_contra htracked
        rw [Bool.not_eq_false] at htracked
        exact hticker ((makerTicker_iff _).mpr ⟨m.toStrategyBase, hmem, htracked⟩)
      exact if_pos (.inr huntracked)

/-- Two backtests in step. -/
structure BacktestRun.Alike (b b' : BacktestRun R) : Prop where
  strategies : b.strategies.map clockless = b'.strategies.map clockless
  kinds : b.strategies.map kind = backtestKinds
  kinds' : b'.strategies.map kind = backtestKinds
  rt : Backtest.Alike b.rt b'.rt

variable {b b' : BacktestRun R}

/-- Quotes without a market maker for their ticker keep two backtests in step. -/
theorem BacktestRun.Alike.onQuote
    (h : b.Alike b')
    (clocks clocks' : Clocks)
    {quote : QuoteUpdate R}
    (hticker : ¬ MakerTicker quote.ticker.bytes) :
    (BacktestReplayDriver.onQuote clocks b quote).Alike
      (BacktestReplayDriver.onQuote clocks' b' quote) := by
  have hrt := h.rt.perform clocks clocks'
    (f := fun books => { books with
      quotes := Function.update books.quotes quote.ticker (some quote) })
    (fun s now clock hs => hs.perform_onQuote quote now clock)
  simp only [BacktestReplayDriver.onQuote, replayQuote_untracked h.kinds hticker,
    replayQuote_untracked h.kinds' hticker]
  exact ⟨h.strategies, h.kinds, h.kinds', hrt⟩

theorem BacktestRun.Alike.onTrade
    (h : b.Alike b')
    (clocks clocks' : Clocks) (tradeEvent : TradeEvent R) :
    (BacktestReplayDriver.onTrade clocks b tradeEvent).Alike
      (BacktestReplayDriver.onTrade clocks' b' tradeEvent) := by
  have hrt := h.rt.perform clocks clocks' (f := id)
    (fun s now clock hs => hs.perform_onTrade tradeEvent now clock)
  obtain ⟨hstrategies, hlast⟩ := forEach_alike
    (fun s s' rt rt' hs hrt => ifMatching_alike tradeEvent.ticker.bytes hs hrt
      (hrt.onTrade clocks clocks' tradeEvent hs)) b.strategies b'.strategies _ _ h.strategies hrt
  exact ⟨hstrategies,
    (map_kind_forEach (kind_ifMatching_onTrade clocks tradeEvent _) _ _).trans h.kinds,
    (map_kind_forEach (kind_ifMatching_onTrade clocks' tradeEvent _) _ _).trans h.kinds', hlast⟩

namespace BacktestReplayDriver

/-- The state after one turn of the inner loop that does not throw. -/
def next (clocks : Clocks) (b : BacktestRun R) (event : StorageEvent R) : BacktestRun R :=
  (processEvent clocks b event).getD b

/-- One more event is counted. -/
def counted (b : BacktestRun R) : BacktestRun R :=
  { b with stats := { b.stats with eventsProcessed := b.stats.eventsProcessed + 1 } }

/-- What the inner loop does with a stored event. -/
theorem processEvent_cases
    {event : StorageEvent R}
    (h : payloadMatchesType event = true) :
    (∃ quote, event.payload = .quoteUpdate quote ∧
      ∀ clocks b, processEvent clocks b event = some (onQuote clocks (counted b) quote)) ∨
    (∃ tradeEvent, event.payload = .tradeEvent tradeEvent ∧
      ∀ clocks b, processEvent clocks b event = some (onTrade clocks (counted b) tradeEvent)) ∨
    ((∀ quote, event.payload ≠ .quoteUpdate quote) ∧
      ∀ clocks b, processEvent clocks b event = some (ignore (counted b))) := by
  obtain ⟨offset, eventNs, type, payload⟩ := event
  cases type <;> cases payload <;> try cases h
  case quoteUpdate.quoteUpdate quote =>
    exact .inl ⟨quote, rfl, fun _ _ => rfl⟩
  case marketTrade.tradeEvent tradeEvent =>
    exact .inr (.inl ⟨tradeEvent, rfl, fun _ _ => rfl⟩)
  all_goals
    exact .inr (.inr ⟨fun _ hquote => (nomatch hquote), fun _ _ => rfl⟩)

theorem next_of_processEvent
    {clocks : Clocks} {b b' : BacktestRun R} {event : StorageEvent R}
    (h : processEvent clocks b event = some b') :
    next clocks b event = b' := by
  rw [next, h, Option.getD_some]

/-- On stored events the inner loop does not throw. -/
theorem processEvents_typed
    {events : List (StorageEvent R)}
    (h : ∀ event ∈ events, payloadMatchesType event = true)
    (clocks : Clocks) (b : BacktestRun R) :
    processEvents clocks (some b) events = some (events.foldl (next clocks) b) := by
  induction events generalizing b with
  | nil =>
      rfl
  | cons event rest ih =>
      have hsome : processEvent clocks b event = some (next clocks b event) := by
        rcases processEvent_cases (h event (by simp)) with
          ⟨quote, -, hevent⟩ | ⟨tradeEvent, -, hevent⟩ | ⟨-, hevent⟩
        · rw [next_of_processEvent (hevent clocks b), hevent]
        · rw [next_of_processEvent (hevent clocks b), hevent]
        · rw [next_of_processEvent (hevent clocks b), hevent]
      have hrest := ih (fun e he => h e (by simp [he])) (next clocks b event)
      rw [processEvents, List.foldl_cons, Option.bind_some, hsome]
      exact hrest

/-- The invariant rule of the inner loop. -/
theorem foldl_next
    {clocks : Clocks} {P : BacktestRun R → Prop}
    (hstats : ∀ b stats, P b → P { b with stats := stats })
    (hquote : ∀ b quote, P b → P (onQuote clocks b quote))
    (htrade : ∀ b tradeEvent, P b → P (onTrade clocks b tradeEvent))
    {events : List (StorageEvent R)}
    (htyped : ∀ event ∈ events, payloadMatchesType event = true)
    {b : BacktestRun R}
    (h : P b) :
    P (events.foldl (next clocks) b) := by
  induction events generalizing b with
  | nil =>
      exact h
  | cons event rest ih =>
      refine ih (fun e he => htyped e (by simp [he])) ?_
      have hcounted : P (counted b) := hstats b _ h
      rcases processEvent_cases (htyped event (by simp)) with
        ⟨quote, -, hevent⟩ | ⟨tradeEvent, -, hevent⟩ | ⟨-, hevent⟩
      · rw [next_of_processEvent (hevent clocks b)]
        exact hquote _ quote hcounted
      · rw [next_of_processEvent (hevent clocks b)]
        exact htrade _ tradeEvent hcounted
      · rw [next_of_processEvent (hevent clocks b)]
        exact hstats _ _ hcounted

end BacktestReplayDriver

open BacktestReplayDriver

/-- Backtests over a log without quotes for the market makers stay in step. -/
theorem BacktestRun.Alike.foldl
    (clocks clocks' : Clocks)
    {events : List (StorageEvent R)}
    (htyped : ∀ event ∈ events, payloadMatchesType event = true)
    (hevents : ∀ event ∈ events, ∀ quote, event.payload = .quoteUpdate quote →
      ¬ MakerTicker quote.ticker.bytes)
    {b b' : BacktestRun R}
    (h : b.Alike b') :
    (events.foldl (next clocks) b).Alike (events.foldl (next clocks') b') := by
  induction events generalizing b b' with
  | nil =>
      exact h
  | cons event rest ih =>
      refine ih (fun e he => htyped e (by simp [he])) (fun e he => hevents e (by simp [he])) ?_
      have hcounted : (counted b).Alike (counted b') := ⟨h.strategies, h.kinds, h.kinds', h.rt⟩
      rcases processEvent_cases (htyped event (by simp)) with
        ⟨quote, hquote, hevent⟩ | ⟨tradeEvent, -, hevent⟩ | ⟨-, hevent⟩
      · rw [next_of_processEvent (hevent clocks b), next_of_processEvent (hevent clocks' b')]
        exact hcounted.onQuote clocks clocks' (hevents event (by simp) quote hquote)
      · rw [next_of_processEvent (hevent clocks b), next_of_processEvent (hevent clocks' b')]
        exact hcounted.onTrade clocks clocks' tradeEvent
      · rw [next_of_processEvent (hevent clocks b), next_of_processEvent (hevent clocks' b')]
        exact ⟨hcounted.strategies, hcounted.kinds, hcounted.kinds', hcounted.rt⟩

omit [LinearOrder R] in
theorem kinds_startBacktest (clocks : Clocks) :
    (startBacktest clocks : BacktestRun R).strategies.map kind = backtestKinds :=
  rfl

omit [LinearOrder R] in
theorem alike_startBacktest (clocks clocks' : Clocks) :
    (startBacktest clocks : BacktestRun R).Alike (startBacktest clocks') where
  strategies := rfl
  kinds := rfl
  kinds' := rfl
  rt := ⟨⟨rfl, rfl⟩, ⟨rfl, rfl⟩, rfl, rfl⟩

/-- Stopping the strategies of backtests in step leaves the same report. -/
theorem BacktestRun.Alike.stopBacktest
    (h : b.Alike b')
    (clocks clocks' : Clocks) :
    (stopBacktest clocks b).report = (stopBacktest clocks' b').report := by
  obtain ⟨-, hrt⟩ := forEach_alike (fun _ _ _ _ hs hrt => hrt.stop clocks clocks' hs)
    b.strategies b'.strategies b.rt b'.rt h.strategies h.rt
  have hfilled := congrArg SimulatedExecutionSink.Books.filled hrt.books
  have hrejected := congrArg SimulatedExecutionSink.Books.rejected hrt.books
  have hgross := congrArg SimulatedExecutionSink.Books.grossNotional hrt.books
  have hfees := congrArg SimulatedExecutionSink.Books.fees hrt.books
  rw [BacktestRun.report, BacktestRun.report, BacktestReport.mk.injEq]
  exact ⟨hrt.orders, hfilled, hrejected, hgross, hfees⟩

end Replay

section Orders

variable {R : Type} [Field R] [LinearOrder R]

/-- The runtime has moved on. -/
structure Later (rt rt' : Runtime R) : Prop where
  readings : rt.steadyReadings ≤ rt'.steadyReadings
  orders : rt.orders <+: rt'.orders

omit [Field R] [LinearOrder R] in
theorem Later.refl (rt : Runtime R) : Later rt rt :=
  ⟨Nat.le_refl _, List.prefix_rfl⟩

omit [Field R] [LinearOrder R] in
theorem Later.trans
    {rt₁ rt₂ rt₃ : Runtime R}
    (h : Later rt₁ rt₂)
    (h' : Later rt₂ rt₃) :
    Later rt₁ rt₃ :=
  ⟨Nat.le_trans h.readings h'.readings, h.orders.trans h'.orders⟩

theorem later_placeLimitOrder (clocks : Clocks) (base : StrategyBase) (ticker : Bytes)
    (side : OrderSide) (quantity price : R) (tif : TimeInForce) (exec : ExecType)
    (rt : Runtime R) :
    Later rt (placeLimitOrder clocks base ticker side quantity price tif exec rt) := by
  unfold placeLimitOrder
  split
  · exact Later.refl rt
  · exact ⟨Nat.le_refl _, List.prefix_append _ _⟩

/-- Some limit order was submitted. -/
def HasLimit (rt : Runtime R) : Prop :=
  ∃ trade ∈ rt.orders, trade.type = .limit

omit [Field R] [LinearOrder R] in
theorem HasLimit.later
    {rt rt' : Runtime R}
    (h : HasLimit rt)
    (hlater : Later rt rt') :
    HasLimit rt' := by
  obtain ⟨trade, hmem, htype⟩ := h
  exact ⟨trade, hlater.orders.subset hmem, htype⟩

theorem hasLimit_placeLimitOrder
    (clocks : Clocks) {base : StrategyBase}
    (hactive : base.active = true)
    (ticker : Bytes) (side : OrderSide) (quantity price : R) (tif : TimeInForce)
    (exec : ExecType) (rt : Runtime R) :
    HasLimit (placeLimitOrder clocks base ticker side quantity price tif exec rt) := by
  unfold placeLimitOrder
  rw [if_neg (by simp [hactive])]
  exact ⟨_, List.mem_append_right _ (List.mem_singleton.mpr rfl), rfl⟩

/-- All orders so far are market orders. -/
def OnlyMarket (rt : Runtime R) : Prop :=
  ∀ trade ∈ rt.orders, trade.type = .market

theorem OnlyMarket.placeMarketOrder
    {rt : Runtime R}
    (h : OnlyMarket rt)
    (clocks : Clocks) (base : StrategyBase) (ticker : Bytes) (side : OrderSide) (quantity : R) :
    OnlyMarket (placeMarketOrder clocks base ticker side quantity rt) := by
  unfold Strategy.placeMarketOrder
  split
  · exact h
  · intro trade htrade
    rcases List.mem_append.mp htrade with htrade | htrade
    · exact h trade htrade
    · rw [List.mem_singleton.mp htrade]

theorem later_placeMarketOrder (clocks : Clocks) (base : StrategyBase) (ticker : Bytes)
    (side : OrderSide) (quantity : R) (rt : Runtime R) :
    Later rt (placeMarketOrder clocks base ticker side quantity rt) := by
  unfold placeMarketOrder
  split
  · exact Later.refl rt
  · exact ⟨Nat.le_refl _, List.prefix_append _ _⟩

end Orders

section Extremes

variable {R : Type} [Field R] [LinearOrder R]

/-- A clock that stands still. -/
def stoppedClock : Clocks where
  steady _ := 0
  system _ _ := 0

/-- A clock that advances by 100 ms from one reading to the next. -/
def runningClock : Clocks where
  steady k := 100000000 * k
  system _ _ := 0

theorem monotone_stoppedClock : Monotone stoppedClock.steady :=
  fun _ _ _ => le_rfl

theorem monotone_runningClock : Monotone runningClock.steady :=
  fun _ _ h => Int.mul_le_mul_of_nonneg_left (Int.ofNat_le.mpr h) (by decide)

/-- The clock of a market maker has not moved since it last updated. -/
def Still (s : ExampleStrategy R) : Prop :=
  ∀ m, s = .marketMaker m → m.lastUpdate = 0

/-- The interval of a market maker will be over at the next reading. -/
def Due (s : ExampleStrategy R) (rt : Runtime R) : Prop :=
  ∀ m, s = .marketMaker m → m.lastUpdate + 100000000 ≤ 100000000 * (rt.steadyReadings : Int)

omit [Field R] [LinearOrder R] in
theorem Due.later
    {s : ExampleStrategy R} {rt rt' : Runtime R}
    (h : Due s rt)
    (hlater : Later rt rt') :
    Due s rt' := by
  intro m hm
  have hdue := h m hm
  have hle := hlater.readings
  omega

/-- A market maker does nothing while the clock stands still. -/
theorem Still.onQuote
    {s : ExampleStrategy R}
    (h : Still s)
    (quote : QuoteUpdate R) {rt : Runtime R}
    (hrt : OnlyMarket rt) :
    Still (s.onQuote stoppedClock quote rt).1 ∧ OnlyMarket (s.onQuote stoppedClock quote rt).2 := by
  cases s with
  | momentum m =>
      exact ⟨h, hrt⟩
  | marketMaker m =>
      have hlast := h m rfl
      simp only [ExampleStrategy.onQuote, SimpleMarketMaker.onQuote]
      split_ifs with hactive helapsed
      · exact ⟨h, hrt⟩
      · exact ⟨h, hrt⟩
      · exact absurd (by simp [Runtime.steadyNow, stoppedClock, hlast,
          SimpleMarketMaker.minUpdateIntervalMs]) helapsed

theorem Still.onTrade
    {s : ExampleStrategy R}
    (h : Still s)
    (tradeEvent : TradeEvent R) {rt : Runtime R}
    (hrt : OnlyMarket rt) :
    Still (s.onTrade stoppedClock tradeEvent rt).1 ∧
      OnlyMarket (s.onTrade stoppedClock tradeEvent rt).2 := by
  cases s with
  | marketMaker m =>
      exact ⟨h, hrt⟩
  | momentum m =>
      refine ⟨fun _ hm => (nomatch hm), ?_⟩
      simp only [ExampleStrategy.onTrade, SimpleMomentum.onTrade]
      split_ifs
      · exact hrt
      · exact hrt
      · exact hrt.placeMarketOrder _ _ _ _ _
      · exact hrt.placeMarketOrder _ _ _ _ _
      · exact hrt

/-- A market maker that is due has its interval behind it, and the next one ahead. -/
theorem Due.onQuote
    {s : ExampleStrategy R} {rt : Runtime R}
    (h : Due s rt)
    (quote : QuoteUpdate R) :
    Due (s.onQuote runningClock quote rt).1 (s.onQuote runningClock quote rt).2 ∧
      Later rt (s.onQuote runningClock quote rt).2 := by
  cases s with
  | momentum m =>
      exact ⟨h, Later.refl rt⟩
  | marketMaker m =>
      simp only [ExampleStrategy.onQuote, SimpleMarketMaker.onQuote]
      have hread : Later rt (rt.steadyNow runningClock).2 := ⟨Nat.le_succ _, List.prefix_rfl⟩
      split_ifs with hactive helapsed
      · exact ⟨h, Later.refl rt⟩
      · exact ⟨h.later hread, hread⟩
      · set midPrice := (quote.bidPrice + quote.askPrice) / 2.0
        set halfSpread := midPrice * (m.spreadBps / 10000.0) / 2.0
        have hplaced := (later_placeLimitOrder runningClock m.toStrategyBase quote.ticker.bytes
          .buy m.orderSize (midPrice - halfSpread) .gtc .postOnly
          (rt.steadyNow runningClock).2).trans
          (later_placeLimitOrder runningClock m.toStrategyBase quote.ticker.bytes .sell
            m.orderSize (midPrice + halfSpread) .gtc .postOnly _)
        refine ⟨?_, hread.trans hplaced⟩
        intro m' hm'
        cases hm'
        have hle := hplaced.readings
        simp only [Runtime.steadyNow, runningClock] at hle ⊢
        omega

/-- A market maker that is due places orders on a quote. -/
theorem Due.hasLimit_onQuote
    {m : SimpleMarketMaker R} {rt : Runtime R}
    (h : Due (.marketMaker m) rt)
    (hactive : m.active = true)
    (quote : QuoteUpdate R) :
    HasLimit ((ExampleStrategy.marketMaker m).onQuote runningClock quote rt).2 := by
  have hdue := h m rfl
  have helapsed : ¬ ((rt.steadyNow runningClock).1 - m.lastUpdate).tdiv 1000000 <
      SimpleMarketMaker.minUpdateIntervalMs := by
    simp only [Runtime.steadyNow, runningClock, SimpleMarketMaker.minUpdateIntervalMs]
    rw [Int.tdiv_eq_ediv_of_nonneg (by omega)]
    omega
  simp only [ExampleStrategy.onQuote, SimpleMarketMaker.onQuote]
  rw [if_neg (by simp [hactive]), if_neg helapsed]
  exact hasLimit_placeLimitOrder runningClock hactive ..

theorem Due.onTrade
    {s : ExampleStrategy R} {rt : Runtime R}
    (h : Due s rt)
    (tradeEvent : TradeEvent R) :
    Due (s.onTrade runningClock tradeEvent rt).1 (s.onTrade runningClock tradeEvent rt).2 ∧
      Later rt (s.onTrade runningClock tradeEvent rt).2 := by
  cases s with
  | marketMaker m =>
      exact ⟨h, Later.refl rt⟩
  | momentum m =>
      refine ⟨fun _ hm => (nomatch hm), ?_⟩
      simp only [ExampleStrategy.onTrade, SimpleMomentum.onTrade]
      split_ifs
      · exact Later.refl rt
      · exact Later.refl rt
      · exact later_placeMarketOrder ..
      · exact later_placeMarketOrder ..
      · exact Later.refl rt

omit [Field R] [LinearOrder R] in
/-- The test around a handler, for what the handler keeps. -/
theorem ifMatching_keeps
    {handle : ExampleStrategy R → Runtime R → ExampleStrategy R × Runtime R}
    {P : ExampleStrategy R → Runtime R → Prop} {Q : Runtime R → Runtime R → Prop}
    (hrefl : ∀ rt, Q rt rt)
    {s : ExampleStrategy R} {rt : Runtime R}
    (h : P s rt)
    (hhandle : P (handle s rt).1 (handle s rt).2 ∧ Q rt (handle s rt).2)
    (ticker : Bytes) :
    P (ExampleStrategy.ifMatching ticker handle s rt).1
        (ExampleStrategy.ifMatching ticker handle s rt).2 ∧
      Q rt (ExampleStrategy.ifMatching ticker handle s rt).2 := by
  unfold ExampleStrategy.ifMatching
  split_ifs
  · exact ⟨h, hrefl rt⟩
  · exact hhandle

/-- A backtest on a clock that stands still. -/
structure BacktestRun.Stopped (b : BacktestRun R) : Prop where
  still : ∀ s ∈ b.strategies, Still s
  orders : OnlyMarket b.rt

/-- Market data keeps a stopped backtest stopped if the handlers do. -/
theorem BacktestRun.Stopped.forEach
    {b : BacktestRun R}
    (h : b.Stopped)
    {handle : ExampleStrategy R → Runtime R → ExampleStrategy R × Runtime R}
    (hhandle : ∀ s rt, Still s → OnlyMarket rt →
      Still (handle s rt).1 ∧ OnlyMarket (handle s rt).2)
    (ticker : Bytes) (call : (Nat → Int64) → SinkCall R Unit Unit)
    (stats : BacktestReplayStats) :
    BacktestRun.Stopped
      ⟨(ExampleStrategy.forEach (ExampleStrategy.ifMatching ticker handle) b.strategies
          (b.rt.perform stoppedClock call)).1,
        (ExampleStrategy.forEach (ExampleStrategy.ifMatching ticker handle) b.strategies
          (b.rt.perform stoppedClock call)).2, stats⟩ := by
  have hkeeps := forEach_keeps (P := fun s rt => Still s ∧ OnlyMarket rt)
    (Q := fun rt rt' => OnlyMarket rt → OnlyMarket rt')
    (fun _ h => h) (fun _ _ _ h h' hrt => h' (h hrt))
    (fun s rt rt' hs hrt => ⟨hs.1, hrt hs.2⟩)
    (fun s rt hs => ifMatching_keeps (P := fun s rt => Still s ∧ OnlyMarket rt)
      (Q := fun rt rt' => OnlyMarket rt → OnlyMarket rt') (fun _ h => h) hs
      ⟨hhandle s rt hs.1 hs.2, fun _ => (hhandle s rt hs.1 hs.2).2⟩ ticker)
    b.strategies (b.rt.perform stoppedClock call)
    (fun s hs => ⟨h.still s hs, h.orders⟩)
  exact ⟨fun s hs => (hkeeps.1 s hs).1, hkeeps.2 h.orders⟩

omit [LinearOrder R] in
theorem stopped_startBacktest : (startBacktest stoppedClock : BacktestRun R).Stopped := by
  constructor
  · intro s hs m hm
    subst hm
    simp only [startBacktest, SimpleMarketMaker.create, Runtime.steadyNow, stoppedClock,
      List.map_cons, ExampleStrategy.start, List.map_nil, List.mem_cons,
      ExampleStrategy.marketMaker.injEq, reduceCtorEq, List.not_mem_nil, or_false] at hs
    rcases hs with rfl | rfl <;> rfl
  · intro trade htrade
    cases htrade

open BacktestReplayDriver in
theorem BacktestRun.Stopped.foldl
    {b : BacktestRun R}
    (h : b.Stopped)
    {events : List (StorageEvent R)}
    (htyped : ∀ event ∈ events, payloadMatchesType event = true) :
    (events.foldl (next stoppedClock) b).Stopped :=
  foldl_next (fun _ _ h => ⟨h.still, h.orders⟩)
    (fun _ quote h => h.forEach (fun _ _ hs hrt => hs.onQuote quote hrt) _ _ _)
    (fun _ tradeEvent h => h.forEach (fun _ _ hs hrt => hs.onTrade tradeEvent hrt) _ _ _)
    htyped h

/-- A backtest on a clock that advances. -/
structure BacktestRun.Running (b : BacktestRun R) : Prop where
  due : ∀ s ∈ b.strategies, Due s b.rt
  kinds : b.strategies.map kind = backtestKinds

/-- Market data keeps a running backtest running if the handlers do. -/
theorem BacktestRun.Running.forEach
    {b : BacktestRun R}
    (h : b.Running)
    {handle : ExampleStrategy R → Runtime R → ExampleStrategy R × Runtime R}
    (hhandle : ∀ s rt, Due s rt → Due (handle s rt).1 (handle s rt).2 ∧ Later rt (handle s rt).2)
    (ticker : Bytes)
    (hkind : ∀ s rt, kind (ExampleStrategy.ifMatching ticker handle s rt).1 = kind s)
    (call : (Nat → Int64) → SinkCall R Unit Unit) (stats : BacktestReplayStats) :
    BacktestRun.Running
        ⟨(ExampleStrategy.forEach (ExampleStrategy.ifMatching ticker handle) b.strategies
            (b.rt.perform runningClock call)).1,
          (ExampleStrategy.forEach (ExampleStrategy.ifMatching ticker handle) b.strategies
            (b.rt.perform runningClock call)).2, stats⟩ ∧
      Later b.rt (ExampleStrategy.forEach (ExampleStrategy.ifMatching ticker handle) b.strategies
        (b.rt.perform runningClock call)).2 := by
  obtain ⟨hdue, hlater⟩ := forEach_keeps Later.refl (fun _ _ _ h h' => h.trans h')
    (fun _ _ _ h hlater => h.later hlater)
    (fun s rt hs => ifMatching_keeps Later.refl hs (hhandle s rt hs) ticker)
    b.strategies (b.rt.perform runningClock call) h.due
  exact ⟨⟨hdue, (map_kind_forEach hkind _ _).trans h.kinds⟩, ⟨hlater.readings, hlater.orders⟩⟩

theorem BacktestRun.Running.onQuote
    {b : BacktestRun R}
    (h : b.Running)
    (quote : QuoteUpdate R) :
    (BacktestReplayDriver.onQuote runningClock b quote).Running ∧
      Later b.rt (BacktestReplayDriver.onQuote runningClock b quote).rt :=
  h.forEach (fun _ _ hs => hs.onQuote quote) _ (kind_ifMatching_onQuote runningClock quote _) _ _

theorem BacktestRun.Running.onTrade
    {b : BacktestRun R}
    (h : b.Running)
    (tradeEvent : TradeEvent R) :
    (BacktestReplayDriver.onTrade runningClock b tradeEvent).Running ∧
      Later b.rt (BacktestReplayDriver.onTrade runningClock b tradeEvent).rt :=
  h.forEach (fun _ _ hs => hs.onTrade tradeEvent) _
    (kind_ifMatching_onTrade runningClock tradeEvent _) _ _

/-- A quote for a market maker makes it place orders while the clock advances. -/
theorem BacktestRun.Running.hasLimit_onQuote
    {b : BacktestRun R}
    (h : b.Running)
    {quote : QuoteUpdate R}
    (hticker : MakerTicker quote.ticker.bytes) :
    HasLimit (BacktestReplayDriver.onQuote runningClock b quote).rt := by
  obtain ⟨base, hbase, htracks⟩ := (makerTicker_iff _).mp hticker
  have hactive := active_of_mem_backtestKinds hbase
  rw [← h.kinds] at hbase
  obtain ⟨s, hs, hkind⟩ := List.mem_map.mp hbase
  cases s with
  | momentum m =>
      cases hkind
  | marketMaker m =>
      cases hkind
      refine forEach_reaches (P := Due) Later.refl (fun _ _ _ h h' => h.trans h')
        (fun _ _ _ h hlater => h.later hlater)
        (fun s rt hs => ifMatching_keeps Later.refl hs (hs.onQuote quote) quote.ticker.bytes)
        (fun _ _ hlimit hlater => hlimit.later hlater) ?_ b.strategies
        (b.rt.perform runningClock (fun system => .onQuote quote system)) hs h.due
      intro rt hdue
      have hmatch : ExampleStrategy.ifMatching quote.ticker.bytes
          (ExampleStrategy.onQuote runningClock quote) (.marketMaker m) rt =
            (ExampleStrategy.marketMaker m).onQuote runningClock quote rt := by
        refine if_neg ?_
        rintro (hinactive | huntracked)
        · exact absurd (hactive.symm.trans hinactive) (by decide)
        · exact absurd (htracks.symm.trans huntracked) (by decide)
      rw [hmatch]
      exact hdue.hasLimit_onQuote hactive quote

omit [LinearOrder R] in
theorem running_startBacktest : (startBacktest runningClock : BacktestRun R).Running := by
  refine ⟨?_, kinds_startBacktest runningClock⟩
  intro s hs m hm
  subst hm
  simp only [startBacktest, SimpleMarketMaker.create, Runtime.steadyNow, runningClock,
    List.map_cons, ExampleStrategy.start, List.map_nil, List.mem_cons,
    ExampleStrategy.marketMaker.injEq, reduceCtorEq, List.not_mem_nil, or_false] at hs
  rcases hs with rfl | rfl
  · simp [startBacktest, SimpleMarketMaker.create, Runtime.steadyNow]
  · simp [startBacktest, SimpleMarketMaker.create, Runtime.steadyNow]

open BacktestReplayDriver in
/-- While the clock advances, a log with a quote for a market maker leads to limit orders. -/
theorem BacktestRun.Running.foldl
    {b : BacktestRun R}
    (h : b.Running)
    {events : List (StorageEvent R)}
    (htyped : ∀ event ∈ events, payloadMatchesType event = true)
    (hquoted : HasLimit b.rt ∨ ∃ event ∈ events, ∃ quote,
      event.payload = .quoteUpdate quote ∧ MakerTicker quote.ticker.bytes) :
    HasLimit (events.foldl (next runningClock) b).rt := by
  induction events generalizing b with
  | nil =>
      simpa using hquoted
  | cons event rest ih =>
      have hcounted : (counted b).Running := ⟨h.due, h.kinds⟩
      rw [List.foldl_cons]
      have hstep : (next runningClock b event).Running ∧
          Later b.rt (next runningClock b event).rt ∧
          ∀ quote, event.payload = .quoteUpdate quote → MakerTicker quote.ticker.bytes →
            HasLimit (next runningClock b event).rt := by
        rcases processEvent_cases (htyped event (by simp)) with
          ⟨quote, hquote, hevent⟩ | ⟨tradeEvent, htrade, hevent⟩ | ⟨hother, hevent⟩
        · rw [next_of_processEvent (hevent runningClock b)]
          refine ⟨(hcounted.onQuote quote).1, (hcounted.onQuote quote).2, ?_⟩
          intro quote' hquote' hticker
          rw [hquote, StoragePayload.quoteUpdate.injEq] at hquote'
          subst hquote'
          exact hcounted.hasLimit_onQuote hticker
        · rw [next_of_processEvent (hevent runningClock b)]
          refine ⟨(hcounted.onTrade tradeEvent).1, (hcounted.onTrade tradeEvent).2, ?_⟩
          intro quote hquote
          rw [htrade] at hquote
          cases hquote
        · rw [next_of_processEvent (hevent runningClock b)]
          exact ⟨⟨h.due, h.kinds⟩, Later.refl _, fun quote hquote => absurd hquote (hother quote)⟩
      obtain ⟨hrunning, hlater, hlimit⟩ := hstep
      refine ih hrunning (fun e he => htyped e (by simp [he])) ?_
      rcases hquoted with hbefore | ⟨e, he, quote, hpayload, hticker⟩
      · exact .inl (hbefore.later hlater)
      · rcases List.mem_cons.mp he with rfl | he
        · exact .inl (hlimit quote hpayload hticker)
        · exact .inr ⟨e, he, quote, hpayload, hticker⟩

end Extremes

section Dependence

variable {R : Type} [Field R] [LinearOrder R] {log : List (StorageEvent R × Int64)}

/--
`run_backtest` over a log submits the same orders and reports the same figures
whatever the clocks read.
-/
def ClockIndependent (log : List (StorageEvent R × Int64)) : Prop :=
  ∃ report, ∀ clocks : Clocks, Monotone clocks.steady → ∀ fuel, log.length < fuel →
    (runBacktest clocks (replayEvents (stampFrom 0 log)) fuel).map BacktestRun.report =
      some report

/-- A backtest processes the whole log. -/
theorem runBacktest_eq
    (htyped : ∀ e ∈ log, payloadMatchesType e.1 = true)
    (hcount : log.length < 2 ^ 64)
    (clocks : Clocks)
    {fuel : Nat}
    (hfuel : log.length < fuel) :
    runBacktest clocks (replayEvents (stampFrom 0 log)) fuel =
      some (stopBacktest clocks
        ((stampFrom 0 log).foldl (BacktestReplayDriver.next clocks) (startBacktest clocks))) := by
  have hdrive := congrArg Option.join (drive_all hcount 1024 hfuel
    (fun (b : Option (BacktestRun R)) event =>
      b.bind (fun b => BacktestReplayDriver.processEvent clocks b event))
    (some (startBacktest clocks)))
  have hstored : ∀ event ∈ stampFrom 0 log, payloadMatchesType event = true :=
    payloadMatchesType_of_mem_stampFrom htyped
  have hprocessed :=
    BacktestReplayDriver.processEvents_typed hstored clocks (startBacktest clocks)
  have hrun := hdrive.trans hprocessed
  exact congrArg (Option.map (stopBacktest clocks)) hrun

/-- Stopping the strategies submits nothing. -/
theorem orders_stopBacktest (clocks : Clocks) (b : BacktestRun R) :
    (stopBacktest clocks b).rt.orders = b.rt.orders := by
  refine (forEach_keeps (P := fun _ _ => True) (Q := fun rt rt' => rt'.orders = rt.orders)
    (fun _ => rfl) (fun _ _ _ h h' => h'.trans h) (fun _ _ _ _ _ => trivial) ?_
    b.strategies b.rt (fun _ _ => trivial)).2
  intro s rt _
  refine ⟨trivial, ?_⟩
  cases s with
  | momentum m =>
      rfl
  | marketMaker m =>
      simp only [ExampleStrategy.stop, SimpleMarketMaker.onStop]
      split
      · rfl
      · rfl

/--
The result of a backtest does not depend on the clock exactly if the log has no
quote for a ticker of a market maker.
-/
theorem clock_independent_iff
    (htyped : ∀ e ∈ log, payloadMatchesType e.1 = true)
    (hcount : log.length < 2 ^ 64) :
    ClockIndependent log ↔
      ∀ e ∈ log, ∀ quote, e.1.payload = .quoteUpdate quote →
        quote.ticker.bytes ≠ text "BTC_USDT" ∧ quote.ticker.bytes ≠ text "ETH_USDT" := by
  have hstored : ∀ event ∈ stampFrom 0 log, payloadMatchesType event = true :=
    payloadMatchesType_of_mem_stampFrom htyped
  constructor
  · rintro ⟨report, hreport⟩ e he quote hquote
    rw [← not_or]
    intro hticker
    obtain ⟨event, hevent, hpayload⟩ := exists_mem_stampFrom 0 he
    have hstopped := hreport stoppedClock monotone_stoppedClock _ (Nat.lt_succ_self _)
    have hrunning := hreport runningClock monotone_runningClock _ (Nat.lt_succ_self _)
    rw [runBacktest_eq htyped hcount _ (Nat.lt_succ_self _), Option.map_some,
      Option.some.injEq] at hstopped hrunning
    have horders := congrArg BacktestReport.orders (hrunning.trans hstopped.symm)
    simp only [BacktestRun.report, orders_stopBacktest] at horders
    obtain ⟨trade, htrade, hlimit⟩ := running_startBacktest.foldl hstored
      (.inr ⟨event, hevent, quote, hpayload.trans hquote, hticker⟩)
    have hsummary := List.mem_map_of_mem (f := summary) htrade
    rw [horders] at hsummary
    obtain ⟨trade', htrade', heq⟩ := List.mem_map.mp hsummary
    have hmarket := (stopped_startBacktest.foldl hstored).orders trade' htrade'
    have htypes : trade'.type = trade.type := congrArg OrderSummary.type heq
    rw [hmarket, hlimit] at htypes
    cases htypes
  · intro hquotes
    refine ⟨(stopBacktest stoppedClock ((stampFrom 0 log).foldl
      (BacktestReplayDriver.next stoppedClock) (startBacktest stoppedClock))).report,
      fun clocks _ fuel hfuel => ?_⟩
    rw [runBacktest_eq htyped hcount clocks hfuel, Option.map_some, Option.some.injEq]
    refine BacktestRun.Alike.stopBacktest ?_ clocks stoppedClock
    refine BacktestRun.Alike.foldl clocks stoppedClock hstored ?_
      (alike_startBacktest clocks stoppedClock)
    intro event hevent quote hquote
    obtain ⟨e, he, hpayload⟩ := exists_of_mem_stampFrom hevent
    obtain ⟨hbtc, heth⟩ := hquotes e he quote (hpayload.symm.trans hquote)
    exact not_or.mpr ⟨hbtc, heth⟩

end Dependence

section Sample

def recordedTrade (price : ℚ) : StorageEvent ℚ where
  offset := 0
  ingestTsNs := 1
  type := .marketTrade
  payload := .tradeEvent ⟨.copyString (text "BTC_USDT"), price, 1, false, 1, 1⟩

def recordedQuote : StorageEvent ℚ where
  offset := 0
  ingestTsNs := 1
  type := .quoteUpdate
  payload := .quoteUpdate ⟨.copyString (text "BTC_USDT"), 100, 1, 101, 1, 1⟩

theorem clock_independent_two_trades :
    ClockIndependent [(recordedTrade 100, 1), (recordedTrade 102, 2)] := by
  refine (clock_independent_iff (by decide) (by decide)).mpr ?_
  simp [recordedTrade]

/-- One quote: the market maker places two orders or none, as the clock goes. -/
theorem backtest_depends_on_clock :
    (runBacktest stoppedClock (replayEvents (stampFrom 0 [(recordedQuote, 1)])) 2).map
        (fun b => b.report.orders.length) = some 0 ∧
      (runBacktest runningClock (replayEvents (stampFrom 0 [(recordedQuote, 1)])) 2).map
        (fun b => b.report.orders.length) = some 2 ∧
      ¬ ClockIndependent [(recordedQuote, 1)] := by
  have hstopped : (runBacktest stoppedClock (replayEvents (stampFrom 0 [(recordedQuote, 1)]))
      2).map (fun b => b.report.orders.length) = some 0 := by
    decide +kernel
  have hrunning : (runBacktest runningClock (replayEvents (stampFrom 0 [(recordedQuote, 1)]))
      2).map (fun b => b.report.orders.length) = some 2 := by
    decide +kernel
  refine ⟨hstopped, hrunning, ?_⟩
  rintro ⟨report, hreport⟩
  have hfirst := hreport stoppedClock monotone_stoppedClock 2 (by decide)
  have hsecond := hreport runningClock monotone_runningClock 2 (by decide)
  obtain ⟨b, hb, hbreport⟩ := Option.map_eq_some_iff.mp hfirst
  obtain ⟨b', hb', hbreport'⟩ := Option.map_eq_some_iff.mp hsecond
  rw [hb, Option.map_some, hbreport, Option.some.injEq] at hstopped
  rw [hb', Option.map_some, hbreport', hstopped] at hrunning
  exact absurd hrunning (by decide)

end Sample

end Backtest
end CryptoHft
