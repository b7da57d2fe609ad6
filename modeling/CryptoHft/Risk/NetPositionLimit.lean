import CryptoHft.Risk.RiskCheckedSink
import CryptoHft.Lib.Runs

/-!
# The net position limit over whole sessions

A session is a `RiskCheckedExecutionSink` together with the orders that the
downstream sink has in hand.  Orders are entered by accepted `submit_trade`
calls; the downstream sink answers with responses in any order, and the fills of
one order never exceed its quantity.

The risk manager tests an order against the filled position alone.  What decides
whether the limit can be exceeded later is the filled position together with the
exposure, the quantity that open orders may still fill (`Session.Covered`):

* a covered session stays within the limit, whatever fills follow
  (`Covered.within`, `Covered.respond`);
* a session that is not covered has fills that break the limit (`exceeds`).

So the limit holds in every run whose accepted orders leave the session covered,
and fails in some continuation at the first order that does not.
-/

namespace CryptoHft
namespace Risk

open Lib

/-- An order in the hands of the downstream sink, with what it may still fill. -/
structure OpenOrder where
  clientOrderId : UInt64
  openQuantity : ℚ
  nonneg : 0 ≤ openQuantity

/-- What an open order may still add to one side of a ticker. -/
def OpenOrder.exposure (submitted : UInt64 → Option (Trade ℚ)) (side : OrderSide)
    (ticker : Bytes) (order : OpenOrder) : ℚ :=
  match submitted order.clientOrderId with
  | some trade =>
      if trade.side = side ∧ trade.ticker.bytes = ticker then order.openQuantity else 0
  | none => 0

/-- What a list of open orders may still add. -/
def exposure (submitted : UInt64 → Option (Trade ℚ)) (orders : List OpenOrder)
    (side : OrderSide) (ticker : Bytes) : ℚ :=
  (orders.map (OpenOrder.exposure submitted side ticker)).sum

section Exposure

variable {submitted : UInt64 → Option (Trade ℚ)} {orders : List OpenOrder}
variable {side : OrderSide} {ticker : Bytes}

theorem OpenOrder.exposure_nonneg
    (submitted : UInt64 → Option (Trade ℚ)) (side : OrderSide) (ticker : Bytes)
    (order : OpenOrder) :
    0 ≤ order.exposure submitted side ticker := by
  unfold OpenOrder.exposure
  cases submitted order.clientOrderId with
  | none =>
      exact le_rfl
  | some trade =>
      have := order.nonneg
      dsimp only
      split <;> linarith

theorem exposure_nonneg :
    0 ≤ exposure submitted orders side ticker := by
  apply List.sum_nonneg
  intro q hq
  obtain ⟨order, _, rfl⟩ := List.mem_map.mp hq
  exact order.exposure_nonneg submitted side ticker

/-- Forgetting an order never adds exposure. -/
theorem exposure_forget_le (c : UInt64) :
    exposure (Function.update submitted c none) orders side ticker ≤
      exposure submitted orders side ticker := by
  apply List.sum_le_sum
  intro order _
  by_cases hc : order.clientOrderId = c
  · have hzero : order.exposure (Function.update submitted c none) side ticker = 0 := by
      simp [OpenOrder.exposure, hc]
    rw [hzero]
    exact order.exposure_nonneg submitted side ticker
  · simp [OpenOrder.exposure, Function.update_of_ne hc]

end Exposure

structure Session where
  sink : RiskCheckedExecutionSink
  orders : List OpenOrder

namespace Session

inductive Action
  | submitTrade (trade : Trade ℚ) (downstreamResult : Bool)
  | updateQuote (quote : QuoteUpdate ℚ)
  | respond (k : Nat) (response : OrderResponse ℚ)

def create (limits : RiskLimits) : Session :=
  ⟨.create limits, []⟩

/-- An order that was sent downstream; one refused there has nothing to fill. -/
def entered (rm : RiskManager) (trade : Trade ℚ) (downstreamResult : Bool)
    (h : (rm.checkOrder trade).accepted = true) : OpenOrder where
  clientOrderId := trade.clientOrderId
  openQuantity := if downstreamResult then trade.quantity else 0
  nonneg := by
    have := RiskManager.quantity_pos_of_accepted h
    split <;> linarith

/--
One step.  A response carries the id of its order, and a fill is at most what the
order has open.
-/
def step (s : Session) : Action → Option Session
  | .submitTrade trade downstreamResult =>
      if h : (s.sink.riskManager.checkOrder trade).accepted = true then
        some ⟨(s.sink.submitTrade trade).1,
          s.orders ++ [entered s.sink.riskManager trade downstreamResult h]⟩
      else
        some { s with sink := (s.sink.submitTrade trade).1 }
  | .updateQuote quote =>
      some { s with sink := s.sink.updateQuote quote }
  | .respond k response =>
      match s.orders[k]? with
      | none => none
      | some order =>
          if response.clientOrderId ≠ order.clientOrderId then
            none
          else if isFill response = true then
            if h : response.filledQuantity ≤ order.openQuantity then
              some ⟨s.sink.onResponse response,
                s.orders.set k
                  ⟨order.clientOrderId, order.openQuantity - response.filledQuantity,
                    sub_nonneg.mpr h⟩⟩
            else
              none
          else
            some { s with sink := s.sink.onResponse response }

/-- The filled position and the exposure of every ticker fit into the limit. -/
def CoveredBy (limit : ℚ) (net : Bytes → ℚ) (submitted : UInt64 → Option (Trade ℚ))
    (orders : List OpenOrder) : Prop :=
  ∀ ticker, net ticker + exposure submitted orders .buy ticker ≤ limit ∧
    exposure submitted orders .sell ticker - net ticker ≤ limit

def Covered (limit : ℚ) (s : Session) : Prop :=
  CoveredBy limit s.sink.netQuantity s.sink.submittedTrades s.orders

/--
An accepted order leaves the session covered: with the order entered, the filled
position, the open orders and the new one together fit into the limit.
-/
def Covers (limit : ℚ) (s : Session) : Action → Prop
  | .submitTrade trade downstreamResult =>
      ∀ h : (s.sink.riskManager.checkOrder trade).accepted = true,
        CoveredBy limit s.sink.netQuantity
          (Function.update s.sink.submittedTrades trade.clientOrderId (some trade))
          (s.orders ++ [entered s.sink.riskManager trade downstreamResult h])
  | .updateQuote _ => True
  | .respond _ _ => True

/-- What a response can do. -/
theorem step_respond
    {s t : Session} {k : Nat} {response : OrderResponse ℚ}
    (h : s.step (.respond k response) = some t) :
    ∃ order, s.orders[k]? = some order ∧
      response.clientOrderId = order.clientOrderId ∧
      t.sink = s.sink.onResponse response ∧
      ((isFill response = false ∧ t.orders = s.orders) ∨
        (isFill response = true ∧
          ∃ hle : response.filledQuantity ≤ order.openQuantity,
            t.orders = s.orders.set k
              ⟨order.clientOrderId, order.openQuantity - response.filledQuantity,
                sub_nonneg.mpr hle⟩)) := by
  cases horder : s.orders[k]? with
  | none =>
      simp [step, horder] at h
  | some order =>
      simp only [step, horder] at h
      by_cases hid : response.clientOrderId = order.clientOrderId
      · rw [if_neg (not_not_intro hid)] at h
        by_cases hfill : isFill response = true
        · rw [if_pos hfill] at h
          by_cases hle : response.filledQuantity ≤ order.openQuantity
          · rw [dif_pos hle, Option.some.injEq] at h
            subst h
            exact ⟨order, rfl, hid, rfl, Or.inr ⟨hfill, hle, rfl⟩⟩
          · simp [hle] at h
        · rw [if_neg hfill, Option.some.injEq] at h
          subst h
          exact ⟨order, rfl, hid, rfl, Or.inl ⟨Bool.eq_false_iff.mpr hfill, rfl⟩⟩
      · simp [hid] at h

theorem exposure_onResponse_le
    (sink : RiskCheckedExecutionSink) (response : OrderResponse ℚ)
    (orders : List OpenOrder) (side : OrderSide) (ticker : Bytes) :
    exposure (sink.onResponse response).submittedTrades orders side ticker ≤
      exposure sink.submittedTrades orders side ticker := by
  rw [RiskCheckedExecutionSink.submittedTrades_onResponse]
  split
  · exact exposure_forget_le _
  · exact le_rfl

/-- A fill of a known order takes as much from the exposure as it books. -/
theorem exposure_respond
    {s t : Session} {k : Nat} {response : OrderResponse ℚ} {trade : Trade ℚ}
    (h : s.step (.respond k response) = some t)
    (hknown : s.sink.submittedTrades response.clientOrderId = some trade)
    (side : OrderSide) (ticker : Bytes) :
    exposure s.sink.submittedTrades t.orders side ticker =
      exposure s.sink.submittedTrades s.orders side ticker -
        if isFill response = true ∧ trade.side = side ∧ trade.ticker.bytes = ticker then
          response.filledQuantity
        else 0 := by
  obtain ⟨order, horder, hid, -, ⟨hno, horders⟩ | ⟨hfill, hle, horders⟩⟩ := step_respond h
  · simp [horders, hno]
  · rw [hid] at hknown
    rw [horders, exposure, sum_map_set horder]
    simp only [exposure, OpenOrder.exposure, hknown, hfill, true_and]
    split
    · ring
    · ring

theorem exposure_respond_unknown
    {s t : Session} {k : Nat} {response : OrderResponse ℚ}
    (h : s.step (.respond k response) = some t)
    (hunknown : s.sink.submittedTrades response.clientOrderId = none)
    (side : OrderSide) (ticker : Bytes) :
    exposure s.sink.submittedTrades t.orders side ticker =
      exposure s.sink.submittedTrades s.orders side ticker := by
  obtain ⟨order, horder, hid, -, ⟨-, horders⟩ | ⟨-, hle, horders⟩⟩ := step_respond h
  · rw [horders]
  · rw [hid] at hunknown
    rw [horders, exposure, sum_map_set horder]
    simp [exposure, OpenOrder.exposure, hunknown]

variable {limit : ℚ} {s t : Session}

/-- A covered session is within the limit. -/
theorem Covered.within
    (h : s.Covered limit) (ticker : Bytes) :
    |s.sink.netQuantity ticker| ≤ limit := by
  obtain ⟨hbuy, hsell⟩ := h ticker
  have hb : 0 ≤ exposure s.sink.submittedTrades s.orders .buy ticker := exposure_nonneg
  have hs : 0 ≤ exposure s.sink.submittedTrades s.orders .sell ticker := exposure_nonneg
  rw [abs_le]
  constructor <;> linarith

/-- Responses keep a session covered. -/
theorem Covered.respond
    (h : s.Covered limit)
    {k : Nat} {response : OrderResponse ℚ}
    (hstep : s.step (.respond k response) = some t) :
    t.Covered limit := by
  obtain ⟨_, _, _, hsink, _⟩ := step_respond hstep
  intro ticker
  obtain ⟨hbuy, hsell⟩ := h ticker
  have hbuyLe := exposure_onResponse_le s.sink response t.orders .buy ticker
  have hsellLe := exposure_onResponse_le s.sink response t.orders .sell ticker
  rw [hsink]
  cases hknown : s.sink.submittedTrades response.clientOrderId with
  | none =>
      rw [exposure_respond_unknown hstep hknown] at hbuyLe hsellLe
      rw [RiskCheckedExecutionSink.onResponse_of_unknown hknown] at hbuyLe hsellLe ⊢
      constructor <;> linarith
  | some trade =>
      rw [exposure_respond hstep hknown] at hbuyLe hsellLe
      rw [RiskCheckedExecutionSink.netQuantity_onResponse hknown]
      by_cases hfill : isFill response = true ∧ trade.ticker.bytes = ticker
      · have hpos := filledQuantity_pos hfill.1
        cases hside : trade.side with
        | buy =>
            simp only [hfill, hside, signedQuantity, and_self, if_true, and_true,
              true_and, reduceCtorEq, if_false] at hbuyLe hsellLe ⊢
            constructor <;> linarith
        | sell =>
            simp only [hfill, hside, signedQuantity, and_self, if_true, and_true,
              true_and, reduceCtorEq, if_false] at hbuyLe hsellLe ⊢
            constructor <;> linarith
      · have hnone : ∀ side, ¬ (isFill response = true ∧ trade.side = side ∧
            trade.ticker.bytes = ticker) := by
          rintro side ⟨hf, -, ht⟩
          exact hfill ⟨hf, ht⟩
        rw [if_neg (hnone _)] at hbuyLe hsellLe
        rw [if_neg hfill]
        constructor <;> linarith

/-- One step of a run whose accepted orders leave the session covered. -/
theorem Covered.step
    (h : s.Covered limit)
    {a : Action}
    (hstep : s.step a = some t)
    (hcovers : s.Covers limit a) :
    t.Covered limit := by
  cases a with
  | submitTrade trade downstreamResult =>
      by_cases haccepted : (s.sink.riskManager.checkOrder trade).accepted = true
      · simp only [Session.step, dif_pos haccepted, Option.some.injEq] at hstep
        subst hstep
        rw [RiskCheckedExecutionSink.submitTrade_of_accepted haccepted]
        exact hcovers haccepted
      · simp only [Session.step, dif_neg haccepted, Option.some.injEq] at hstep
        subst hstep
        rw [RiskCheckedExecutionSink.submitTrade_of_refused haccepted]
        exact h
  | updateQuote quote =>
      simp only [Session.step, Option.some.injEq] at hstep
      subst hstep
      exact h
  | respond k response =>
      exact h.respond hstep

theorem covered_create
    (limits : RiskLimits)
    (hlimit : 0 ≤ limit) :
    (create limits).Covered limit := by
  intro ticker
  have hnet : (create limits).sink.netQuantity ticker = 0 := rfl
  rw [hnet]
  simpa [exposure, create] using hlimit

/-- A partial fill with nothing left open. -/
def fillUp (order : OpenOrder) : OrderResponse ℚ :=
  { OrderResponse.empty with
    clientOrderId := order.clientOrderId
    status := .partiallyFilled
    filledQuantity := order.openQuantity }

/-- One open order can be filled completely. -/
theorem fill_one
    {k : Nat} {order : OpenOrder}
    (horder : s.orders[k]? = some order)
    (side : OrderSide) (ticker : Bytes) :
    ∃ t, Reachable (Steps step) s t ∧
      t.sink.submittedTrades = s.sink.submittedTrades ∧
      (∀ j, j ≠ k → t.orders[j]? = s.orders[j]?) ∧
      t.sink.netQuantity ticker = s.sink.netQuantity ticker +
        signedQuantity side (order.exposure s.sink.submittedTrades side ticker) := by
  rcases (order.exposure_nonneg s.sink.submittedTrades side ticker).eq_or_lt with
    hzero | hpos
  · refine ⟨s, .init, rfl, fun _ _ => rfl, ?_⟩
    cases side <;> simp [← hzero, signedQuantity]
  · cases hknown : s.sink.submittedTrades order.clientOrderId with
    | none =>
        simp [OpenOrder.exposure, hknown] at hpos
    | some trade =>
        by_cases hmatch : trade.side = side ∧ trade.ticker.bytes = ticker
        · have hexp : order.exposure s.sink.submittedTrades side ticker =
              order.openQuantity := by
            simp [OpenOrder.exposure, hknown, hmatch]
          rw [hexp] at hpos
          have hfill : isFill (fillUp order) = true := by
            simp [isFill, fillUp, hpos]
          have hstep : s.step (.respond k (fillUp order)) =
              some ⟨s.sink.onResponse (fillUp order), s.orders.set k
                ⟨order.clientOrderId, order.openQuantity - order.openQuantity,
                  sub_nonneg.mpr le_rfl⟩⟩ := by
            have hid : ¬ (fillUp order).clientOrderId ≠ order.clientOrderId :=
              not_not_intro rfl
            have hle : (fillUp order).filledQuantity ≤ order.openQuantity := le_rfl
            simp only [step, horder]
            rw [if_neg hid, if_pos hfill, dif_pos hle]
            rfl
          have hknown' : s.sink.submittedTrades (fillUp order).clientOrderId =
              some trade := hknown
          refine ⟨_, Reachable.init.tail hstep, ?_, ?_, ?_⟩
          · rw [RiskCheckedExecutionSink.submittedTrades_onResponse]
            rfl
          · intro j hj
            exact List.getElem?_set_ne (Ne.symm hj)
          · rw [RiskCheckedExecutionSink.netQuantity_onResponse hknown',
              if_pos ⟨hfill, hmatch.2⟩, hexp, hmatch.1]
            rfl
        · simp [OpenOrder.exposure, hknown, hmatch] at hpos

/-- The first `n` open orders can be filled completely. -/
theorem fill_all
    (s : Session) (side : OrderSide) (ticker : Bytes) (n : Nat) :
    ∃ t, Reachable (Steps step) s t ∧
      t.sink.submittedTrades = s.sink.submittedTrades ∧
      (∀ j, n ≤ j → t.orders[j]? = s.orders[j]?) ∧
      t.sink.netQuantity ticker = s.sink.netQuantity ticker +
        signedQuantity side
          (exposure s.sink.submittedTrades (s.orders.take n) side ticker) := by
  induction n with
  | zero =>
      refine ⟨s, .init, rfl, fun _ _ => rfl, ?_⟩
      cases side <;> simp [exposure, signedQuantity]
  | succ n ih =>
      obtain ⟨t, hreach, hsubmitted, horders, hnet⟩ := ih
      cases horder : s.orders[n]? with
      | none =>
          have htake : s.orders.take (n + 1) = s.orders.take n := by
            have hlen := List.getElem?_eq_none_iff.mp horder
            rw [List.take_of_length_le (by omega), List.take_of_length_le hlen]
          rw [htake]
          exact ⟨t, hreach, hsubmitted, fun j hj => horders j (by omega), hnet⟩
      | some order =>
          have hlast : t.orders[n]? = some order := by
            rw [horders n le_rfl, horder]
          obtain ⟨t', hreach', hsubmitted', horders', hnet'⟩ := fill_one hlast side ticker
          refine ⟨t', hreach.trans hreach', hsubmitted'.trans hsubmitted, ?_, ?_⟩
          · intro j hj
            rw [horders' j (by omega), horders j (by omega)]
          · have hsum : exposure s.sink.submittedTrades (s.orders.take (n + 1)) side ticker =
                exposure s.sink.submittedTrades (s.orders.take n) side ticker +
                  order.exposure s.sink.submittedTrades side ticker := by
              simp [exposure, List.take_add_one, horder]
            rw [hnet', hnet, hsubmitted, hsum]
            cases side with
            | buy =>
                simp only [signedQuantity]
                ring
            | sell =>
                simp only [signedQuantity]
                ring

/-- All open orders of one side of a ticker can be filled completely. -/
theorem fill_side
    (s : Session) (side : OrderSide) (ticker : Bytes) :
    ∃ t, Reachable (Steps step) s t ∧
      t.sink.netQuantity ticker = s.sink.netQuantity ticker +
        signedQuantity side (exposure s.sink.submittedTrades s.orders side ticker) := by
  obtain ⟨t, hreach, -, -, hnet⟩ := s.fill_all side ticker s.orders.length
  rw [List.take_length] at hnet
  exact ⟨t, hreach, hnet⟩

/-- Fills can take a session that is not covered beyond the limit. -/
theorem exceeds
    (h : ¬ s.Covered limit) :
    ∃ t ticker, Reachable (Steps step) s t ∧ limit < |t.sink.netQuantity ticker| := by
  simp only [Covered, CoveredBy, not_forall, not_and_or, not_le] at h
  obtain ⟨ticker, hbuy | hsell⟩ := h
  · obtain ⟨t, hreach, hnet⟩ := s.fill_side .buy ticker
    refine ⟨t, ticker, hreach, lt_of_lt_of_le ?_ (le_abs_self _)⟩
    rw [hnet]
    exact hbuy
  · obtain ⟨t, hreach, hnet⟩ := s.fill_side .sell ticker
    refine ⟨t, ticker, hreach, lt_of_lt_of_le ?_ (neg_le_abs _)⟩
    rw [hnet]
    simp only [signedQuantity]
    linarith

/--
The net position limit.  It holds in every state of every run whose accepted
orders leave the session covered; and an accepted order that does not leave it
covered has a continuation by fills that exceeds the limit.
-/
theorem net_position_within_limit
    (limits : RiskLimits)
    (hlimit : 0 < limits.maxNetPositionAbs) :
    (∀ s, Reachable (Guarded (Steps step) (Covers limits.maxNetPositionAbs))
        (create limits) s →
      ∀ ticker, |(s.sink.riskManager.position ticker).netQuantity| ≤
        limits.maxNetPositionAbs) ∧
    (∀ (s t : Session) (trade : Trade ℚ) (downstreamResult : Bool),
      s.step (.submitTrade trade downstreamResult) = some t →
      ¬ s.Covers limits.maxNetPositionAbs (.submitTrade trade downstreamResult) →
      ∃ u ticker, Reachable (Steps step) t u ∧
        limits.maxNetPositionAbs <
          |(u.sink.riskManager.position ticker).netQuantity|) := by
  constructor
  · intro s hs ticker
    have hcovered : s.Covered limits.maxNetPositionAbs := by
      refine Reachable.invariant (covered_create limits hlimit.le) ?_ hs
      intro s a t h hstep
      exact h.step hstep.1 hstep.2
    exact hcovered.within ticker
  · intro s t trade downstreamResult hstep hno
    simp only [Covers, not_forall] at hno
    obtain ⟨haccepted, huncovered⟩ := hno
    simp only [step, dif_pos haccepted, Option.some.injEq] at hstep
    subst hstep
    refine exceeds ?_
    rw [RiskCheckedExecutionSink.submitTrade_of_accepted haccepted]
    exact huncovered

section TwoOrders

/-- Limit one, on the net position only. -/
def oneLot : RiskLimits :=
  { RiskLimits.unlimited with maxNetPositionAbs := 1 }

/-- A buy order of one lot. -/
def buyOne (clientOrderId : UInt64) : Trade ℚ :=
  (Trade.createLimitOrder clientOrderId 0 1 (text "BTC_USDT") .buy 1 100 .gtc .default).1

/-- The order is filled by one lot. -/
def filledOne (clientOrderId : UInt64) : OrderResponse ℚ :=
  { OrderResponse.empty with
    clientOrderId := clientOrderId
    status := .filled
    filledQuantity := 1
    avgPrice := 100 }

/-- One order of one lot leaves the session covered. -/
theorem covers_buyOne :
    (create oneLot).Covers 1 (.submitTrade (buyOne 0) true) := by
  intro haccepted ticker
  have hnet : (create oneLot).sink.netQuantity ticker = 0 := rfl
  have hquantity : (buyOne 0).quantity = 1 := rfl
  have hside : (buyOne 0).side = .buy := rfl
  rw [hnet]
  simp only [create, List.nil_append, exposure, List.map_cons, List.map_nil,
    List.sum_cons, List.sum_nil, OpenOrder.exposure, entered, Function.update_self,
    hside, hquantity, true_and, reduceCtorEq, false_and, if_true, if_false]
  constructor
  · split <;> norm_num
  · norm_num

theorem net_position_within_limit_one_order :
    0 < oneLot.maxNetPositionAbs ∧
      ∃ s, Reachable (Guarded (Steps step) (Covers oneLot.maxNetPositionAbs))
          (create oneLot) s ∧
        (s.sink.riskManager.position (text "BTC_USDT")).netQuantity = 1 ∧
        |(s.sink.riskManager.position (text "BTC_USDT")).netQuantity| ≤
          oneLot.maxNetPositionAbs := by
  have hpos : 0 < oneLot.maxNetPositionAbs := by decide
  have hrun : (runActions step (create oneLot)
      [.submitTrade (buyOne 0) true, .respond 0 (filledOne 0)]).map
        (fun s => (s.sink.riskManager.position (text "BTC_USDT")).netQuantity) =
      some 1 := by
    decide +kernel
  obtain ⟨s, hs, hnet⟩ := Option.map_eq_some_iff.mp hrun
  simp only [runActions, Option.bind_eq_some_iff, Option.some.injEq] at hs
  obtain ⟨s₁, hsubmit, s₂, hfill, rfl⟩ := hs
  have hreach : Reachable (Guarded (Steps step) (Covers oneLot.maxNetPositionAbs))
      (create oneLot) s₂ :=
    (Reachable.init.tail ⟨hsubmit, covers_buyOne⟩).tail ⟨hfill, trivial⟩
  exact ⟨hpos, s₂, hreach, hnet, (net_position_within_limit oneLot hpos).1 s₂ hreach _⟩

/-- Two orders are accepted against the same flat position, and both fill. -/
theorem two_open_orders_exceed_limit :
    0 < oneLot.maxNetPositionAbs ∧
      ∃ s, Reachable (Steps step) (create oneLot) s ∧
        oneLot.maxNetPositionAbs <
          |(s.sink.riskManager.position (text "BTC_USDT")).netQuantity| := by
  have hrun : (runActions step (create oneLot)
      [.submitTrade (buyOne 0) true, .submitTrade (buyOne 1) true,
        .respond 0 (filledOne 0), .respond 1 (filledOne 1)]).map
        (fun s => (s.sink.riskManager.position (text "BTC_USDT")).netQuantity) =
      some 2 := by
    decide +kernel
  obtain ⟨s, hs, hnet⟩ := Reachable.exists_of_runActions hrun
  refine ⟨by decide, s, hs, ?_⟩
  rw [hnet]
  decide

end TwoOrders

end Session

end Risk
end CryptoHft
