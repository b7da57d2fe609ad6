import CryptoHft.Risk.RiskCheckedSink
import CryptoHft.Exchange.ResponseParser
import CryptoHft.Lib.Runs

/-!
# Risk positions and the quantities the exchange reports

A reporting session is a `RiskCheckedExecutionSink` with the orders it accepted.
The exchange sends JSON messages about them, each with the cumulative quantity
executed so far; the messages are parsed and delivered to the callback of the
sink in any interleaving, until a terminal status ends the order.  With each
order the session remembers the last cumulative quantity reported.

The sink books the cumulative quantity of every response that counts as a fill,
and nothing for the others.  So the positions keep in step with the reports
exactly as long as every message `CountsOnce`: a fill comes when nothing was
reported before, and any other message reports nothing new.
-/

namespace CryptoHft
namespace Risk

open Lib Exchange

/-- An accepted order, with what the exchange last reported as executed. -/
structure ReportedOrder where
  trade : Trade ℚ
  reported : ℚ
  ended : Bool

/-- The signed quantity that an order has executed in a ticker. -/
def ReportedOrder.executed (ticker : Bytes) (order : ReportedOrder) : ℚ :=
  if order.trade.ticker.bytes = ticker then
    signedQuantity order.trade.side order.reported
  else 0

structure Reporting where
  sink : RiskCheckedExecutionSink
  orders : List ReportedOrder

namespace Reporting

inductive Action
  | submitTrade (trade : Trade ℚ)
  | updateQuote (quote : QuoteUpdate ℚ)
  | deliver (k : Nat) (msg : Json ℚ)

def create (limits : RiskLimits) : Reporting :=
  ⟨.create limits, []⟩

/-- The cumulative quantity that a message reports. -/
def reportedQuantity (msg : Json ℚ) : Option ℚ :=
  (orderPayload msg).bind (fun res => (res.find "cumulative_quantity").map jsonToDouble)

/-- The order after a message about it. -/
def after (order : ReportedOrder) (msg : Json ℚ) (response : OrderResponse ℚ) :
    ReportedOrder :=
  { order with
    reported := (reportedQuantity msg).getD order.reported
    ended := response.status.isTerminal }

/--
One step.  Client order ids are not reused; a message is delivered to an order
that has not ended, and carries its client order id and no error code.
-/
def step (s : Reporting) : Action → Option Reporting
  | .submitTrade trade =>
      if s.orders.any (fun order => order.trade.clientOrderId = trade.clientOrderId) then
        none
      else if (s.sink.riskManager.checkOrder trade).accepted then
        some ⟨(s.sink.submitTrade trade).1, s.orders ++ [⟨trade, 0, false⟩]⟩
      else
        some { s with sink := (s.sink.submitTrade trade).1 }
  | .updateQuote quote =>
      some { s with sink := s.sink.updateQuote quote }
  | .deliver k msg =>
      match s.orders[k]?, responseCode msg, parseOrderResponse msg with
      | some order, .ok code, .ok response =>
          if order.ended = false ∧ code = 0 ∧ Carries msg order.trade.clientOrderId then
            some ⟨s.sink.onResponse response, s.orders.set k (after order msg response)⟩
          else
            none
      | _, _, _ => none

/-- What the exchange has reported as executed in a ticker. -/
def executed (s : Reporting) (ticker : Bytes) : ℚ :=
  (s.orders.map (ReportedOrder.executed ticker)).sum

/-- The risk positions are what the exchange has reported. -/
def Agrees (s : Reporting) : Prop :=
  ∀ ticker, (s.sink.riskManager.position ticker).netQuantity = s.executed ticker

/--
A fill comes when nothing was reported for the order before; any other message
reports nothing new.
-/
def CountsOnce (s : Reporting) : Action → Prop
  | .submitTrade _ => True
  | .updateQuote _ => True
  | .deliver k msg =>
      ∀ order response, s.orders[k]? = some order →
        parseOrderResponse msg = .ok response →
        if isFill response = true then order.reported = 0
        else (reportedQuantity msg).getD order.reported = order.reported

/-- The sink knows the orders that have not ended, and their ids are distinct. -/
structure Known (s : Reporting) : Prop where
  submitted : ∀ (j : Nat) (order : ReportedOrder),
    s.orders[j]? = some order → order.ended = false →
    s.sink.submittedTrades order.trade.clientOrderId = some order.trade
  distinct : ∀ (i j : Nat) (order order' : ReportedOrder),
    s.orders[i]? = some order → s.orders[j]? = some order' →
    order.trade.clientOrderId = order'.trade.clientOrderId → i = j

variable {s t : Reporting}

/-- What a delivered message can do. -/
theorem step_deliver
    {k : Nat} {msg : Json ℚ}
    (h : s.step (.deliver k msg) = some t) :
    ∃ order response, s.orders[k]? = some order ∧ order.ended = false ∧
      parseOrderResponse msg = .ok response ∧
      response.clientOrderId = order.trade.clientOrderId ∧
      response.filledQuantity = (reportedQuantity msg).getD 0 ∧
      t = ⟨s.sink.onResponse response, s.orders.set k (after order msg response)⟩ := by
  simp only [step] at h
  split at h
  · rename_i order code response horder hcode hparse
    split at h
    · rename_i hguard
      obtain ⟨hopen, rfl, hcarries⟩ := hguard
      cases h
      refine ⟨order, response, horder, hopen, hparse,
        clientOrderId_of_carries hparse hcode hcarries, ?_, rfl⟩
      obtain ⟨res, oid, hpayload, -⟩ := hcarries
      rcases parseOrderResponse_eq_ok hparse with
        ⟨code, hcode', hne, -⟩ | ⟨-, res', hpayload', hres⟩ | ⟨-, hnone, -⟩
      · rw [hcode, Except.ok.injEq] at hcode'
        exact absurd hcode'.symm hne
      · rw [(parsePayload_eq_ok hres).2.1]
        simp [filledQuantity, reportedQuantity, hpayload']
      · rw [hpayload] at hnone
        cases hnone
    · cases h
  · cases h

theorem known_create (limits : RiskLimits) :
    (create limits).Known where
  submitted j order horder := by
    simp [create] at horder
  distinct i j order order' hi := by
    simp [create] at hi

/-- An accepted order with a new id. -/
theorem Known.submit
    (h : s.Known)
    {trade : Trade ℚ}
    (hfresh : ∀ order ∈ s.orders, order.trade.clientOrderId ≠ trade.clientOrderId)
    (haccepted : (s.sink.riskManager.checkOrder trade).accepted = true) :
    Known ⟨(s.sink.submitTrade trade).1, s.orders ++ [⟨trade, 0, false⟩]⟩ := by
  have hcases : ∀ {j order}, (s.orders ++ [⟨trade, 0, false⟩])[j]? = some order →
      s.orders[j]? = some order ∨ (j = s.orders.length ∧ order = ⟨trade, 0, false⟩) := by
    intro j order horder
    rw [List.getElem?_append] at horder
    split at horder
    · exact Or.inl horder
    · rename_i hj
      rw [List.getElem?_singleton] at horder
      split at horder
      · rename_i hlast
        exact Or.inr ⟨by omega, (Option.some.inj horder).symm⟩
      · cases horder
  rw [RiskCheckedExecutionSink.submitTrade_of_accepted haccepted]
  refine ⟨?_, ?_⟩
  · intro j order horder hopen
    rcases hcases horder with hold | ⟨-, rfl⟩
    · have hne := hfresh order (List.mem_of_getElem? hold)
      simpa [Function.update_of_ne hne] using h.submitted j order hold hopen
    · simp
  · intro i j order order' hi hj hid
    rcases hcases hi with hi | ⟨hi, rfl⟩
    · rcases hcases hj with hj | ⟨-, rfl⟩
      · exact h.distinct i j order order' hi hj hid
      · exact absurd hid (hfresh order (List.mem_of_getElem? hi))
    · rcases hcases hj with hj | ⟨hj, rfl⟩
      · exact absurd hid.symm (hfresh order' (List.mem_of_getElem? hj))
      · omega

/-- A delivered message. -/
theorem Known.deliver
    (h : s.Known)
    {k : Nat} {order : ReportedOrder} {msg : Json ℚ} {response : OrderResponse ℚ}
    (horder : s.orders[k]? = some order)
    (hopen : order.ended = false)
    (hid : response.clientOrderId = order.trade.clientOrderId) :
    Known ⟨s.sink.onResponse response, s.orders.set k (after order msg response)⟩ := by
  have hcases : ∀ {j order'}, (s.orders.set k (after order msg response))[j]? = some order' →
      (j = k ∧ order' = after order msg response) ∨
        (j ≠ k ∧ s.orders[j]? = some order') := by
    intro j order' hj
    by_cases hjk : j = k
    · subst hjk
      rw [List.getElem?_set_self (List.getElem?_eq_some_iff.mp horder).1] at hj
      exact Or.inl ⟨rfl, (Option.some.inj hj).symm⟩
    · rw [List.getElem?_set_ne (Ne.symm hjk)] at hj
      exact Or.inr ⟨hjk, hj⟩
  refine ⟨?_, ?_⟩
  · intro j order' hj hopen'
    simp only [RiskCheckedExecutionSink.submittedTrades_onResponse]
    rcases hcases hj with ⟨-, rfl⟩ | ⟨hjk, hj⟩
    · have hterminal : response.status.isTerminal = false := hopen'
      simpa [hterminal, after] using h.submitted k order horder hopen
    · have hne : order'.trade.clientOrderId ≠ response.clientOrderId := by
        intro heq
        exact hjk (h.distinct j k order' order hj horder (heq.trans hid))
      have hsubmitted := h.submitted j order' hj hopen'
      split
      · rw [Function.update_of_ne hne]
        exact hsubmitted
      · exact hsubmitted
  · intro i j o o' hi hj heq
    rcases hcases hi with ⟨hik, rfl⟩ | ⟨hik, hi⟩
    · rcases hcases hj with ⟨hjk, rfl⟩ | ⟨hjk, hj⟩
      · omega
      · exact absurd (h.distinct j k o' order hj horder heq.symm) hjk
    · rcases hcases hj with ⟨hjk, rfl⟩ | ⟨hjk, hj⟩
      · exact absurd (h.distinct i k o order hi horder heq) hik
      · exact h.distinct i j o o' hi hj heq

theorem Known.step
    (h : s.Known)
    {a : Action}
    (hstep : s.step a = some t) :
    t.Known := by
  cases a with
  | submitTrade trade =>
      simp only [Reporting.step] at hstep
      split at hstep
      · cases hstep
      · rename_i hany
        split at hstep
        · rename_i haccepted
          cases hstep
          refine h.submit ?_ haccepted
          intro order horder heq
          exact hany (List.any_eq_true.mpr ⟨order, horder, by simpa using heq⟩)
        · rename_i hrefused
          cases hstep
          rw [RiskCheckedExecutionSink.submitTrade_of_refused hrefused]
          exact ⟨h.submitted, h.distinct⟩
  | updateQuote quote =>
      cases hstep
      exact ⟨h.submitted, h.distinct⟩
  | deliver k msg =>
      obtain ⟨order, response, horder, hopen, -, hid, -, rfl⟩ := step_deliver hstep
      exact h.deliver horder hopen hid

/-- What the sink adds for a response. -/
def booked (response : OrderResponse ℚ) : ℚ :=
  if isFill response = true then response.filledQuantity else 0

/-- A response books the new part of the report exactly if it counts once. -/
theorem booked_eq_iff
    {reported : ℚ} {msg : Json ℚ} {response : OrderResponse ℚ}
    (hfilled : response.filledQuantity = (reportedQuantity msg).getD 0) :
    booked response = (reportedQuantity msg).getD reported - reported ↔
      if isFill response = true then reported = 0
      else (reportedQuantity msg).getD reported = reported := by
  unfold booked
  by_cases hfill : isFill response = true
  · have hpos := filledQuantity_pos hfill
    cases hq : reportedQuantity msg with
    | none =>
        rw [hfilled, hq, Option.getD_none] at hpos
        exact absurd hpos (lt_irrefl 0)
    | some q =>
        rw [hq, Option.getD_some] at hfilled
        simp only [hfill, if_true, hfilled, Option.getD_some]
        constructor
        · intro h
          linarith
        · intro h
          linarith
  · simp only [hfill, if_false, Bool.false_eq_true]
    constructor
    · intro h
      linarith
    · intro h
      linarith

/-- One message moves the position by what is booked, the report by what is new. -/
theorem disagreement_deliver
    (h : s.Known)
    {k : Nat} {order : ReportedOrder} {response : OrderResponse ℚ}
    (horder : s.orders[k]? = some order)
    (hopen : order.ended = false)
    (hid : response.clientOrderId = order.trade.clientOrderId)
    (msg : Json ℚ) (ticker : Bytes) :
    (s.sink.onResponse response).netQuantity ticker -
        executed ⟨s.sink.onResponse response, s.orders.set k (after order msg response)⟩
          ticker =
      s.sink.netQuantity ticker - s.executed ticker +
        if order.trade.ticker.bytes = ticker then
          signedQuantity order.trade.side
            (booked response - ((reportedQuantity msg).getD order.reported - order.reported))
        else 0 := by
  have hknown : s.sink.submittedTrades response.clientOrderId = some order.trade := by
    rw [hid]
    exact h.submitted k order horder hopen
  rw [RiskCheckedExecutionSink.netQuantity_onResponse hknown]
  simp only [executed, sum_map_set horder]
  simp only [ReportedOrder.executed, after, booked]
  by_cases hticker : order.trade.ticker.bytes = ticker
  · cases order.trade.side with
    | buy =>
        simp only [hticker, and_true, if_true, signedQuantity]
        split <;> ring
    | sell =>
        simp only [hticker, and_true, if_true, signedQuantity]
        split <;> ring
  · simp [hticker]

theorem signedQuantity_eq_zero
    {side : OrderSide} {q : ℚ} :
    signedQuantity side q = 0 ↔ q = 0 := by
  cases side <;> simp [signedQuantity]

/-- After one message the positions agree exactly if it counts once. -/
theorem agrees_deliver_iff
    (hknown : s.Known)
    (hagrees : s.Agrees)
    {k : Nat} {msg : Json ℚ}
    (hstep : s.step (.deliver k msg) = some t) :
    t.Agrees ↔ s.CountsOnce (.deliver k msg) := by
  obtain ⟨order, response, horder, hopen, hparse, hid, hfilled, rfl⟩ := step_deliver hstep
  have hcounts : s.CountsOnce (.deliver k msg) ↔
      booked response - ((reportedQuantity msg).getD order.reported - order.reported) = 0 := by
    rw [sub_eq_zero, booked_eq_iff hfilled]
    constructor
    · intro hc
      exact hc order response horder hparse
    · intro hc order' response' horder' hparse'
      rw [horder, Option.some.injEq] at horder'
      rw [hparse, Except.ok.injEq] at hparse'
      rw [← horder', ← hparse']
      exact hc
  rw [hcounts]
  have hdelta := disagreement_deliver hknown horder hopen hid msg
  have hzero : ∀ ticker, s.sink.netQuantity ticker - s.executed ticker = 0 :=
    fun ticker => sub_eq_zero.mpr (hagrees ticker)
  constructor
  · intro ht
    have hown := hdelta order.trade.ticker.bytes
    rw [hzero, zero_add, if_pos rfl] at hown
    exact signedQuantity_eq_zero.mp
      (hown.symm.trans (sub_eq_zero.mpr (ht order.trade.ticker.bytes)))
  · intro hc ticker
    have hown := hdelta ticker
    rw [hc, hzero, zero_add] at hown
    have hsame : (if order.trade.ticker.bytes = ticker then
        signedQuantity order.trade.side 0 else 0) = 0 := by
      simp [signedQuantity_eq_zero]
    rw [hsame] at hown
    exact sub_eq_zero.mp hown

/-- Submissions and quotes move neither positions nor reports. -/
theorem Agrees.submit
    (h : s.Agrees)
    {trade : Trade ℚ}
    (hstep : s.step (.submitTrade trade) = some t) :
    t.Agrees := by
  intro ticker
  have hnet : t.sink.netQuantity ticker = s.sink.netQuantity ticker ∧
      t.executed ticker = s.executed ticker := by
    simp only [Reporting.step] at hstep
    split at hstep
    · cases hstep
    · split at hstep
      · cases hstep
        refine ⟨RiskCheckedExecutionSink.netQuantity_submitTrade _ _ _, ?_⟩
        simp [executed, ReportedOrder.executed, signedQuantity_eq_zero]
      · cases hstep
        exact ⟨RiskCheckedExecutionSink.netQuantity_submitTrade _ _ _, rfl⟩
  exact hnet.1.trans ((h ticker).trans hnet.2.symm)

theorem agrees_step_iff
    (hknown : s.Known)
    (hagrees : s.Agrees)
    {a : Action}
    (hstep : s.step a = some t) :
    t.Agrees ↔ s.CountsOnce a := by
  cases a with
  | submitTrade trade =>
      exact ⟨fun _ => trivial, fun _ => hagrees.submit hstep⟩
  | updateQuote quote =>
      cases hstep
      exact ⟨fun _ => trivial, fun _ => hagrees⟩
  | deliver k msg =>
      exact agrees_deliver_iff hknown hagrees hstep

theorem known_of_reachable
    {limits : RiskLimits}
    (h : Reachable (Steps step) (create limits) s) :
    s.Known :=
  h.invariant (known_create limits) (fun _ _ _ hknown hstep => hknown.step hstep)

/--
Along any run, the risk positions are at all times what the exchange has
reported, exactly if every message of the run counts once.
-/
theorem positions_agree_with_reports_iff
    (limits : RiskLimits) (trace : List (Reporting × Action)) (s : Reporting)
    (hrun : Execution (Steps step) (create limits) trace s) :
    ((∀ p ∈ trace, p.1.Agrees) ∧ s.Agrees) ↔ ∀ p ∈ trace, p.1.CountsOnce p.2 := by
  refine Execution.forall_states_iff ?_ ?_ hrun
  · intro ticker
    rfl
  · intro s a t hs hagrees hstep
    exact agrees_step_iff (known_of_reachable hs) hagrees hstep

section PartialFills

/-- A buy order of two lots, the first order of its process. -/
def buyTwo : Trade ℚ :=
  (Trade.createLimitOrder 0 0 1 (text "BTC_USDT") .buy 2 100 .gtc .default).1

/-- An update of that order. -/
def updateOfBuyTwo (status quantity : String) : Action :=
  .deliver 0 (userOrderUpdate (text "0") (text status) (text quantity))

theorem positions_agree_filled_at_once :
    ∃ s t, Execution (Steps step) (create .unlimited)
        [(create .unlimited, .submitTrade buyTwo), (s, updateOfBuyTwo "FILLED" "2")] t ∧
      t.sink.netQuantity (text "BTC_USDT") = 2 ∧ s.Agrees ∧ t.Agrees := by
  have hrun : (runActions step (create .unlimited)
      [.submitTrade buyTwo, updateOfBuyTwo "FILLED" "2"]).map
        (fun s => s.sink.netQuantity (text "BTC_USDT")) = some 2 := by
    decide +kernel
  obtain ⟨t, ht, hnet⟩ := Option.map_eq_some_iff.mp hrun
  simp only [runActions, Option.bind_eq_some_iff, Option.some.injEq] at ht
  obtain ⟨s, hsubmit, t', hdeliver, rfl⟩ := ht
  have hexec : Execution (Steps step) (create .unlimited)
      ([] ++ [(create .unlimited, .submitTrade buyTwo)] ++
        [(s, updateOfBuyTwo "FILLED" "2")]) t' :=
    (Execution.init.tail hsubmit).tail hdeliver
  have hcounts : ∀ p ∈ [] ++ [(create .unlimited, .submitTrade buyTwo)] ++
      [(s, updateOfBuyTwo "FILLED" "2")], p.1.CountsOnce p.2 := by
    intro p hp
    simp only [List.nil_append, List.cons_append, List.mem_cons, List.not_mem_nil,
      or_false] at hp
    rcases hp with rfl | rfl
    · trivial
    · intro order response horder hparse
      have horders : ((create .unlimited).step (.submitTrade buyTwo)).map
          (fun s => s.orders) = some [⟨buyTwo, 0, false⟩] := rfl
      have hfill : (parseOrderResponse (userOrderUpdate (text "0") (text "FILLED")
          (text "2"))).toOption.map isFill = some true := by
        decide +kernel
      rw [hsubmit, Option.map_some, Option.some.injEq] at horders
      rw [hparse, Except.toOption, Option.map_some, Option.some.injEq] at hfill
      rw [horders, List.getElem?_cons_zero, Option.some.injEq] at horder
      rw [if_pos hfill, ← horder]
  have hagrees := (positions_agree_with_reports_iff _ _ _ hexec).mpr hcounts
  exact ⟨s, t', hexec, hnet, hagrees.1 (s, updateOfBuyTwo "FILLED" "2") (by simp), hagrees.2⟩

/-- A partial fill of one lot, then the fill of both: three lots are booked. -/
theorem partial_fill_counted_twice :
    ∃ s, Reachable (Steps step) (create .unlimited) s ∧
      (s.orders.map ReportedOrder.ended) = [true] ∧
      (s.sink.riskManager.position (text "BTC_USDT")).netQuantity = 3 ∧
      s.executed (text "BTC_USDT") = 2 := by
  have hrun : (runActions step (create .unlimited)
      [.submitTrade buyTwo, updateOfBuyTwo "PARTIALLY_FILLED" "1",
        updateOfBuyTwo "FILLED" "2"]).map
        (fun s => (s.orders.map ReportedOrder.ended,
          (s.sink.riskManager.position (text "BTC_USDT")).netQuantity,
          s.executed (text "BTC_USDT"))) =
      some ([true], 3, 2) := by
    decide +kernel
  obtain ⟨s, hs, hview⟩ := Reachable.exists_of_runActions hrun
  simp only [Prod.mk.injEq] at hview
  exact ⟨s, hs, hview⟩

end PartialFills

end Reporting

end Risk
end CryptoHft
