import CryptoHft.Backtest.SinkLedger
import CryptoHft.Exchange.MessageBuilder

/-!
# Canceling an order by its client id

The order factories of a process number the orders from zero.  `cancel_order` of
the simulator and `build_cancel_order` of the live client take a client id of zero
for no id, so the first order of a process cannot be canceled by its client id.
Every other order can, as long as the 64-bit counter has not come round: the loop
stops at the first resting order that matches, and no two orders have one id.
-/

namespace CryptoHft
namespace Backtest

open Lib Storage Exchange SimulatedExecutionSink

section Factories

variable {R : Type}

/-- A call of an order factory, with the clock reading it takes. -/
inductive FactoryCall (R : Type)
  | limitOrder (now : Int64) (strategyId : UInt32) (ticker : Bytes) (side : OrderSide)
      (quantity price : R) (tif : TimeInForce) (exec : ExecType)
  | marketOrder (now : Int64) (strategyId : UInt32) (ticker : Bytes) (side : OrderSide)
      (quantity : R)
  | stopOrder (now : Int64) (strategyId : UInt32) (ticker : Bytes) (side : OrderSide)
      (quantity triggerPrice : R) (limitPrice : Option R)

/-- The submitted orders are different ones of the orders created. -/
def SubmittedOnce (created trades : List (Trade R)) : Prop :=
  ∃ numbers : List Nat, numbers.Nodup ∧ trades.map some = numbers.map (created[·]?)

variable [Zero R]

def FactoryCall.create (orderIdCounter : UInt64) : FactoryCall R → Trade R × UInt64
  | .limitOrder now strategyId ticker side quantity price tif exec =>
      Trade.createLimitOrder orderIdCounter now strategyId ticker side quantity price tif exec
  | .marketOrder now strategyId ticker side quantity =>
      Trade.createMarketOrder orderIdCounter now strategyId ticker side quantity
  | .stopOrder now strategyId ticker side quantity triggerPrice limitPrice =>
      Trade.createStopOrder orderIdCounter now strategyId ticker side quantity triggerPrice
        limitPrice

/-- The orders that a process creates. -/
def createOrders (orderIdCounter : UInt64) : List (FactoryCall R) → List (Trade R)
  | [] => []
  | call :: rest =>
      let (trade, next) := call.create orderIdCounter
      trade :: createOrders next rest

theorem FactoryCall.create_ids
    (orderIdCounter : UInt64)
    (call : FactoryCall R) :
    (call.create orderIdCounter).1.clientOrderId = orderIdCounter ∧
      (call.create orderIdCounter).2 = orderIdCounter + 1 := by
  cases call with
  | limitOrder | marketOrder | stopOrder =>
      exact ⟨rfl, rfl⟩

/-- The orders are numbered in the order of their creation. -/
theorem clientOrderId_createOrders
    {orderIdCounter : UInt64} {calls : List (FactoryCall R)} {k : Nat} {trade : Trade R}
    (h : (createOrders orderIdCounter calls)[k]? = some trade) :
    trade.clientOrderId = orderIdCounter + UInt64.ofNat k ∧ k < calls.length := by
  induction calls generalizing orderIdCounter k with
  | nil =>
      simp [createOrders] at h
  | cons call rest ih =>
      obtain ⟨hid, hnext⟩ := call.create_ids orderIdCounter
      rw [createOrders] at h
      cases k with
      | zero =>
          obtain rfl : (call.create orderIdCounter).1 = trade := by simpa using h
          simp [hid]
      | succ k =>
          obtain ⟨htrade, hk⟩ := ih (by simpa using h)
          rw [hnext] at htrade
          refine ⟨?_, by simpa using hk⟩
          rw [htrade, UInt64.ofNat_add, UInt64.add_assoc, UInt64.add_comm 1]
          rfl

/-- Two of the first `2 ^ 64` orders of a process have different ids. -/
theorem SubmittedOnce.eq_of_clientOrderId_eq
    {calls : List (FactoryCall R)} {trades : List (Trade R)}
    (h : SubmittedOnce (createOrders 0 calls) trades)
    (hcalls : calls.length ≤ 2 ^ 64)
    {i j : Nat} {t u : Trade R}
    (hi : trades[i]? = some t)
    (hj : trades[j]? = some u)
    (hid : t.clientOrderId = u.clientOrderId) :
    i = j := by
  obtain ⟨numbers, hnodup, hnumbers⟩ := h
  have hnumber : ∀ {k : Nat} {v : Trade R}, trades[k]? = some v →
      ∃ n, numbers[k]? = some n ∧ (createOrders 0 calls)[n]? = some v := by
    intro k v hk
    have hmap := congrArg (·[k]?) hnumbers
    simp only [List.getElem?_map, hk, Option.map_some] at hmap
    obtain ⟨n, hn, hcreated⟩ := Option.map_eq_some_iff.mp hmap.symm
    exact ⟨n, hn, hcreated⟩
  obtain ⟨m, hm, hcreated⟩ := hnumber hi
  obtain ⟨n, hn, hcreated'⟩ := hnumber hj
  obtain ⟨ht, hlt⟩ := clientOrderId_createOrders hcreated
  obtain ⟨hu, hlt'⟩ := clientOrderId_createOrders hcreated'
  have hsame : m = n := by
    rw [ht, hu, UInt64.zero_add, UInt64.zero_add, ← UInt64.toNat_inj,
      UInt64.toNat_ofNat_of_lt' (lt_of_lt_of_le hlt hcalls),
      UInt64.toNat_ofNat_of_lt' (lt_of_lt_of_le hlt' hcalls)] at hid
    exact hid
  subst hsame
  exact (List.getElem?_inj (List.getElem?_eq_some_iff.mp hm).1 hnodup).mp (hm.trans hn.symm)

end Factories

section FirstMatch

variable {σ R κ φ : Type} [Field R]
variable {outcome : PendingOrder R κ φ → Option (Outcome R)} {now : Nat → Int64}

/-- A loop that stops at the first order it takes. -/
theorem sweep_once
    (s : SimulatedExecutionSink σ R κ φ)
    {front : List (PendingOrder R κ φ)} {order : PendingOrder R κ φ} {result : Outcome R}
    (hfront : ∀ p ∈ front, outcome p = none)
    (horder : outcome order = some result)
    (rest : List (PendingOrder R κ φ)) :
    sweep outcome true now s (front ++ order :: rest) =
      (front ++ rest,
        [⟨order, { (s.makeResponse order.trade result [] (now order.submission)).1 with
          exchangeOrderId := order.exchangeOrderId }⟩],
        (s.makeResponse order.trade result [] (now order.submission)).2) := by
  induction front with
  | nil =>
      simp [sweep, horder]
  | cons p front ih =>
      have ih' := ih (fun q hq => hfront q (by simp [hq]))
      simp [sweep, hfront p (by simp), ih']

end FirstMatch

namespace SinkRun

section Cancel

variable {σ R κ φ : Type} [Field R] [LinearOrder R] {s : SinkRun σ R κ φ}

/--
Canceling a resting order by its client id takes out this order and no other,
answers its callback and nothing else, and the live request names the order.
-/
structure CanceledByClientId (sink : SimulatedExecutionSink σ R κ φ)
    (front : List (PendingOrder R κ φ)) (order : PendingOrder R κ φ)
    (rest : List (PendingOrder R κ φ)) (now : Nat → Int64)
    (builder : CryptoComMessageBuilder R) (nonce : UInt64) : Prop where
  delivered : ∃ response,
    (sink.cancelOrder order.trade.ticker.bytes 0 order.trade.clientOrderId now).1 =
        [⟨order, response⟩] ∧
      response.status = .canceled ∧ response.clientOrderId = order.trade.clientOrderId
  resting : (sink.cancelOrder order.trade.ticker.bytes 0 order.trade.clientOrderId
    now).2.restingOrders = front ++ rest
  named : CryptoComMessageBuilder.NamesClientOid (builder.buildCancelOrder nonce
    order.trade.ticker.bytes 0 order.trade.clientOrderId).1 order.trade.clientOrderId

omit [LinearOrder R] in
/-- The orders that `cancel_order` takes for a client id. -/
theorem cancelOutcome_client
    (now : Nat → Int64)
    {order p : PendingOrder R κ φ}
    (hticker : order.trade.ticker.bytes ≠ [])
    (hid : order.trade.clientOrderId ≠ 0) :
    cancelOutcome order.trade.ticker.bytes 0 order.trade.clientOrderId now p =
      if p.trade.ticker = order.trade.ticker ∧ p.trade.clientOrderId = order.trade.clientOrderId
      then some ⟨.canceled, 0, now p.submission⟩ else none := by
  have hsame : order.trade.ticker.bytes = p.trade.ticker.bytes ↔
      p.trade.ticker = order.trade.ticker :=
    ⟨fun h => CString.ext h.symm, fun h => by rw [h]⟩
  simp [cancelOutcome, hticker, hid, hsame]

omit [Field R] [LinearOrder R] in
theorem exists_first_match
    {front : List (PendingOrder R κ φ)} {order p : PendingOrder R κ φ}
    (hp : p ∈ front)
    (hmatch : p.trade.ticker = order.trade.ticker ∧
      p.trade.clientOrderId = order.trade.clientOrderId) :
    ∃ front' q rest', front = front' ++ q :: rest' ∧
      (q.trade.ticker = order.trade.ticker ∧
        q.trade.clientOrderId = order.trade.clientOrderId) ∧
      ∀ p ∈ front', p.trade.ticker = order.trade.ticker →
        p.trade.clientOrderId ≠ order.trade.clientOrderId := by
  induction front with
  | nil =>
      simp at hp
  | cons q front ih =>
      by_cases hq : q.trade.ticker = order.trade.ticker ∧
          q.trade.clientOrderId = order.trade.clientOrderId
      · exact ⟨[], q, front, rfl, hq, by simp⟩
      · obtain rfl | hp := List.mem_cons.mp hp
        · exact absurd hmatch hq
        · obtain ⟨front', r, rest', rfl, hr, hfront'⟩ := ih hp
          refine ⟨q :: front', r, rest', rfl, hr, ?_⟩
          intro u hu hsame heq
          obtain rfl | hu := List.mem_cons.mp hu
          · exact hq ⟨hsame, heq⟩
          · exact hfront' u hu hsame heq

omit [LinearOrder R] in
/-- Canceling by client id, at the first order that matches. -/
theorem cancelOrder_first
    {sink : SimulatedExecutionSink σ R κ φ}
    {front rest : List (PendingOrder R κ φ)} {order q : PendingOrder R κ φ}
    (hresting : sink.restingOrders = front ++ q :: rest)
    (hticker : order.trade.ticker.bytes ≠ [])
    (hid : order.trade.clientOrderId ≠ 0)
    (hq : q.trade.ticker = order.trade.ticker ∧
      q.trade.clientOrderId = order.trade.clientOrderId)
    (hfront : ∀ p ∈ front, p.trade.ticker = order.trade.ticker →
      p.trade.clientOrderId ≠ order.trade.clientOrderId)
    (now : Nat → Int64) :
    (sink.cancelOrder order.trade.ticker.bytes 0 order.trade.clientOrderId now).2.restingOrders =
        front ++ rest ∧
      ∃ response,
        (sink.cancelOrder order.trade.ticker.bytes 0 order.trade.clientOrderId now).1 =
            [⟨q, response⟩] ∧
          response.status = .canceled ∧ response.clientOrderId = q.trade.clientOrderId := by
  have hbefore : ∀ p ∈ front,
      cancelOutcome order.trade.ticker.bytes 0 order.trade.clientOrderId now p = none := by
    intro p hp
    rw [cancelOutcome_client now hticker hid, if_neg]
    rintro ⟨hsame, heq⟩
    exact hfront p hp hsame heq
  have htaken : cancelOutcome order.trade.ticker.bytes 0 order.trade.clientOrderId now q =
      some ⟨.canceled, 0, now q.submission⟩ := by
    rw [cancelOutcome_client now hticker hid, if_pos hq]
  have hanswers := sink.makeResponse_answers q.trade ⟨.canceled, 0, now q.submission⟩ []
    (now q.submission)
  simp only [cancelOrder, sweepResting, hresting, sweep_once sink hbefore htaken]
  exact ⟨trivial, _, rfl, hanswers.status, hanswers.clientOrderId⟩

variable [IStorage σ R]

/--
A resting order is canceled by its client id exactly if the id is not zero and no
order with its id and ticker rests before it; of at most `2 ^ 64` orders of one
process, the first is the only one that is not.
-/
theorem canceled_by_client_id_iff
    {storage : Option σ} {config : SimulatedExecutionConfig R}
    (hs : Reachable (Steps SinkRun.step) (create storage config) s)
    {calls : List (FactoryCall R)}
    (hcreated : SubmittedOnce (createOrders 0 calls) s.trades)
    {front rest : List (PendingOrder R κ φ)} {order : PendingOrder R κ φ}
    (hresting : s.sink.restingOrders = front ++ order :: rest)
    (now : Nat → Int64)
    (builder : CryptoComMessageBuilder R)
    (nonce : UInt64) :
    (CanceledByClientId s.sink front order rest now builder nonce ↔
      order.trade.clientOrderId ≠ 0 ∧
        ∀ p ∈ front, p.trade.ticker = order.trade.ticker →
          p.trade.clientOrderId ≠ order.trade.clientOrderId) ∧
    (calls.length ≤ 2 ^ 64 →
      (CanceledByClientId s.sink front order rest now builder nonce ↔
        order.trade.clientOrderId ≠ 0)) := by
  have hticker : order.trade.ticker.bytes ≠ [] := by
    refine forall_resting_of_reachable (K := fun trade => trade.ticker.bytes ≠ []) ?_ hs order
      (by simp [hresting])
    intro u trade _ hvalid _ hempty
    simp [validateOrder, hempty] at hvalid
  have haccounts := (ledger_of_reachable hs).accounts
  -- the orders before this one have other submission numbers
  have hother : ∀ p ∈ front, p.submission ≠ order.submission := by
    have hnodup : (s.orders.map PendingOrder.submission).Nodup :=
      haccounts.partition.nodup_iff.mpr List.nodup_range
    rw [orders, hresting, List.map_append, List.map_append, List.map_cons] at hnodup
    intro p hp heq
    have hdisjoint := (List.nodup_append.mp (List.nodup_append.mp hnodup).1).2.2
    exact hdisjoint p.submission (List.mem_map_of_mem hp) order.submission (by simp) heq
  have hiff : CanceledByClientId s.sink front order rest now builder nonce ↔
      order.trade.clientOrderId ≠ 0 ∧
        ∀ p ∈ front, p.trade.ticker = order.trade.ticker →
          p.trade.clientOrderId ≠ order.trade.clientOrderId := by
    constructor
    · intro h
      have hid : order.trade.clientOrderId ≠ 0 :=
        (CryptoComMessageBuilder.namesClientOid_iff _ _ _ _ _).mp h.named
      refine ⟨hid, ?_⟩
      by_contra hmatch
      push Not at hmatch
      obtain ⟨p, hp, hsame, heq⟩ := hmatch
      -- the first order that matches is taken in place of this one
      obtain ⟨front', q, rest', rfl, hq, hfront'⟩ := exists_first_match hp ⟨hsame, heq⟩
      obtain ⟨-, response, hdelivered, -⟩ := cancelOrder_first
        (by simpa using hresting) hticker hid hq hfront' now
      obtain ⟨response', hdelivered', -⟩ := h.delivered
      have hq' : q = order := by
        rw [hdelivered] at hdelivered'
        simpa using congrArg (List.map ResponseDelivery.pending) hdelivered'
      exact hother q (by simp) (by rw [hq'])
    · rintro ⟨hid, hfront⟩
      obtain ⟨hkept, hdelivered⟩ := cancelOrder_first hresting hticker hid ⟨rfl, rfl⟩ hfront now
      exact ⟨hdelivered, hkept, (CryptoComMessageBuilder.namesClientOid_iff _ _ _ _ _).mpr hid⟩
  refine ⟨hiff, ?_⟩
  intro hcalls
  rw [hiff]
  refine ⟨And.left, fun hid => ⟨hid, ?_⟩⟩
  intro p hp _ heq
  have hmem : ∀ q ∈ front ++ order :: rest, s.trades[q.submission]? = some q.trade := by
    intro q hq
    exact haccounts.trades q (List.mem_append_left _ (hresting ▸ hq))
  exact hother p hp (hcreated.eq_of_clientOrderId_eq hcalls (hmem p (by simp [hp]))
    (hmem order (by simp)) heq)

end Cancel

section TwoOrders

/-- Two buy orders of one ticker. -/
def twoBids : List (FactoryCall ℚ) :=
  [.limitOrder 5 1 (text "BTC_USDT") .buy 2 100 .gtc .default,
    .limitOrder 6 1 (text "BTC_USDT") .buy 3 99 .gtc .default]

/-- The orders are submitted one after the other. -/
def submissions (trades : List (Trade ℚ)) : List (SinkAction ℚ Unit Unit) :=
  trades.flatMap (fun trade => [.call (.submitTrade trade (some ()) none 7 7 7), .callReturns])

theorem twoBids_resting :
    ∃ s : SinkRun (InMemoryStorage ℚ) ℚ Unit Unit,
      Reachable (Steps SinkRun.step) (create none ⟨0, 0, true⟩) s ∧
        s.trades = createOrders 0 twoBids ∧
        ∃ first second, s.sink.restingOrders = [first, second] ∧
          first.trade.clientOrderId = 0 ∧ second.trade.clientOrderId = 1 := by
  have hrun : (runActions SinkRun.step
      (create none ⟨0, 0, true⟩ : SinkRun (InMemoryStorage ℚ) ℚ Unit Unit)
      (submissions (createOrders 0 twoBids))).map
        (fun s => (s.trades, s.sink.restingOrders.map (·.trade.clientOrderId))) =
      some (createOrders 0 twoBids, [0, 1]) := by
    decide +kernel
  obtain ⟨s, hs, hview⟩ := Reachable.exists_of_runActions hrun
  obtain ⟨htrades, hresting⟩ := Prod.mk.inj hview
  obtain ⟨first, orders, hfirst, hid, horders⟩ := List.map_eq_cons_iff.mp hresting
  obtain ⟨second, orders', rfl, hid', hnil⟩ := List.map_eq_cons_iff.mp horders
  obtain rfl := List.map_eq_nil_iff.mp hnil
  exact ⟨s, hs, htrades, first, second, hfirst, hid, hid'⟩

theorem submittedOnce_twoBids : SubmittedOnce (createOrders 0 twoBids) (createOrders 0 twoBids) :=
  ⟨[0, 1], by simp, rfl⟩

/-- The second order of a process is canceled by its client id. -/
theorem canceled_by_client_id_second :
    ∃ (s : SinkRun (InMemoryStorage ℚ) ℚ Unit Unit) (first second : PendingOrder ℚ Unit Unit),
      Reachable (Steps SinkRun.step) (create none ⟨0, 0, true⟩) s ∧
        second.trade.clientOrderId = 1 ∧
        CanceledByClientId s.sink [first] second [] (fun _ => 8)
          (.create ⟨text "key", id, fun _ => []⟩) 9 := by
  obtain ⟨s, hs, htrades, first, second, hresting, -, hid⟩ := twoBids_resting
  have hcreated : SubmittedOnce (createOrders 0 twoBids) s.trades := by
    rw [htrades]
    exact submittedOnce_twoBids
  have hsecond : s.sink.restingOrders = [first] ++ second :: [] := hresting
  have hcanceled := (canceled_by_client_id_iff hs hcreated hsecond
    (fun _ => 8) (.create ⟨text "key", id, fun _ => []⟩) 9).2 (by decide)
  exact ⟨s, first, second, hs, hid, hcanceled.mpr (by simp [hid])⟩

/-- The first order of a process is not. -/
theorem first_order_not_canceled :
    ∃ (s : SinkRun (InMemoryStorage ℚ) ℚ Unit Unit) (first second : PendingOrder ℚ Unit Unit),
      Reachable (Steps SinkRun.step) (create none ⟨0, 0, true⟩) s ∧
        s.trades = createOrders 0 twoBids ∧ s.sink.restingOrders = [first, second] ∧
        (s.sink.cancelOrder first.trade.ticker.bytes 0 first.trade.clientOrderId
          (fun _ => 8)).1 = [] ∧
        ∀ (builder : CryptoComMessageBuilder ℚ) (nonce : UInt64),
          ¬ CanceledByClientId s.sink [] first [second] (fun _ => 8) builder nonce := by
  obtain ⟨s, hs, htrades, first, second, hresting, hid, -⟩ := twoBids_resting
  refine ⟨s, first, second, hs, htrades, hresting, ?_, ?_⟩
  · simp [cancelOrder, sweepResting, hresting, sweep, cancelOutcome, hid]
  · intro builder nonce h
    exact (CryptoComMessageBuilder.namesClientOid_iff _ _ _ _ _).mp h.named hid

end TwoOrders

end SinkRun

end Backtest
end CryptoHft
