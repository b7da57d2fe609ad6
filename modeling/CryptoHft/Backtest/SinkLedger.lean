import CryptoHft.Backtest.SinkRun

/-!
# The ledger of the simulated execution sink

Every submitted order is in exactly one of three places: it rests, its response
is made and waits for delivery, or its response was published.  The operations
move orders between these places and book a fill when the response is made, while
the counters move when it is published; `Ledger` states what the state says about
the three places at every moment of a run, and `ledger_exact` what is left of it
when no call is in progress.

The ids are drawn from a 64-bit counter, so they are distinct as long as no more
than `2 ^ 64` of them were drawn.
-/

namespace CryptoHft
namespace Backtest

open Lib Storage

namespace SimulatedExecutionSink

section Calls

variable {σ R κ φ : Type} [Field R] [LinearOrder R] [IStorage σ R]

/-- The operations other than a submission are loops that fill or cancel. -/
theorem call_swept
    (s : SimulatedExecutionSink σ R κ φ)
    {c : SinkCall R κ φ}
    (hc : c.trades = []) :
    ∃ outcome quotes,
      (∀ order result, outcome order = some result →
        result.status = .filled ∨ result.status = .canceled) ∧
      Swept outcome { s with quotes := quotes } (s.call c).1 (s.call c).2 := by
  cases c with
  | submitTrade trade responseCallback storageFailureCallback eventNs storageNs now =>
      cases hc
  | cancelOrder instrument orderId clientOid now =>
      refine ⟨_, s.quotes, ?_, s.sweepResting_swept _ _ now⟩
      intro order result hresult
      simp only [cancelOutcome, Option.ite_none_right_eq_some, Option.some.injEq] at hresult
      exact .inr (by rw [← hresult.2])
  | cancelAllOrders instrument now =>
      refine ⟨_, s.quotes, ?_, s.sweepResting_swept _ _ now⟩
      intro order result hresult
      simp only [cancelAllOutcome, Option.ite_none_left_eq_some, Option.some.injEq] at hresult
      exact .inr (by rw [← hresult.2])
  | onQuote quote now =>
      refine ⟨_, _, ?_, sweepResting_swept _ (quoteOutcome quote) false now⟩
      intro order result hresult
      simp only [quoteOutcome, Option.ite_none_left_eq_some, Option.some.injEq] at hresult
      exact .inl (by rw [← hresult.2.2])
  | onTrade tradeEvent now =>
      refine ⟨_, s.quotes, ?_, s.sweepResting_swept _ _ now⟩
      intro order result hresult
      simp only [tradeOutcome, Option.ite_none_left_eq_some, Option.some.injEq] at hresult
      exact .inl (by rw [← hresult.2])

/-- A submission is logged and then accepted. -/
theorem call_accepted
    (s : SimulatedExecutionSink σ R κ φ)
    (trade : Trade R)
    (responseCallback : Option κ)
    (storageFailureCallback : Option φ)
    (eventNs storageNs now : Int64) :
    ∃ failures calls,
      Accepted
        { s with
          submitted := s.submitted + 1
          submissions := s.submissions + 1
          storage := appended s.storage ⟨0, eventNs, .tradeSubmitted, .trade trade⟩ storageNs
          storageAppendFailures := failures
          storageFailureCalls := calls }
        trade responseCallback storageFailureCallback s.submissions
        (s.call (.submitTrade trade responseCallback storageFailureCallback eventNs storageNs
          now)).1
        (s.call (.submitTrade trade responseCallback storageFailureCallback eventNs storageNs
          now)).2 := by
  obtain ⟨failures, calls, hrecorded⟩ :=
    s.recordSubmission_eq trade storageFailureCallback eventNs storageNs
  refine ⟨failures, calls, ?_⟩
  rw [← hrecorded]
  exact accept_accepted _ trade responseCallback storageFailureCallback s.submissions now

end Calls

end SimulatedExecutionSink

/-- The `k`-th id drawn. -/
def drawnId (k : Nat) : UInt64 :=
  1 + UInt64.ofNat k

theorem drawnId_injOn {j k : Nat} (hj : j < 2 ^ 64) (hk : k < 2 ^ 64)
    (h : drawnId j = drawnId k) :
    j = k := by
  have hnat := congrArg UInt64.toNat (UInt64.add_right_inj 1 |>.mp h)
  rwa [UInt64.toNat_ofNat_of_lt' hj, UInt64.toNat_ofNat_of_lt' hk] at hnat

theorem drawnId_add (k n : Nat) :
    drawnId k + UInt64.ofNat n = drawnId (k + n) := by
  simp [drawnId, UInt64.ofNat_add, UInt64.add_assoc]

section Accounts

variable {R κ φ : Type}

/-- Each submission has one order, and the orders have ids from different draws. -/
structure Accounts (orders : List (PendingOrder R κ φ)) (trades : List (Trade R))
    (draws : Nat) : Prop where
  partition : (orders.map PendingOrder.submission).Perm (List.range trades.length)
  trades : ∀ order ∈ orders, trades[order.submission]? = some order.trade
  ids : ∃ ks : List Nat, ks.Nodup ∧ (∀ k ∈ ks, k < draws) ∧
    (orders.map PendingOrder.exchangeOrderId).Perm (ks.map drawnId)

namespace Accounts

variable {orders orders' : List (PendingOrder R κ φ)} {trades : List (Trade R)}
  {draws draws' : Nat}

/-- The accounts do not depend on where the orders are. -/
theorem perm
    (h : Accounts orders trades draws)
    (hperm : orders'.Perm orders)
    (hdraws : draws ≤ draws') :
    Accounts orders' trades draws' where
  partition := (hperm.map _).trans h.partition
  trades := fun order horder => h.trades order (hperm.subset horder)
  ids := by
    obtain ⟨ks, hnodup, hlt, hids⟩ := h.ids
    exact ⟨ks, hnodup, fun k hk => lt_of_lt_of_le (hlt k hk) hdraws, (hperm.map _).trans hids⟩

/-- A new order under the next number and the next id. -/
theorem add
    (h : Accounts orders trades draws)
    (order : PendingOrder R κ φ)
    (hsubmission : order.submission = trades.length)
    (hid : order.exchangeOrderId = drawnId draws)
    (hperm : orders'.Perm (order :: orders)) :
    Accounts orders' (trades ++ [order.trade]) (draws + 1) where
  partition := by
    refine (hperm.map _).trans ?_
    rw [List.map_cons, hsubmission, List.length_append, List.length_singleton,
      List.range_succ]
    exact (h.partition.cons _).trans (List.perm_append_singleton _ _).symm
  trades := by
    intro other hother
    rcases List.mem_cons.mp (hperm.subset hother) with rfl | hother
    · rw [hsubmission, List.getElem?_append_right le_rfl, Nat.sub_self]
      rfl
    · have htrade := h.trades other hother
      have hlt := (List.getElem?_eq_some_iff.mp htrade).1
      rw [List.getElem?_append_left hlt]
      exact htrade
  ids := by
    obtain ⟨ks, hnodup, hlt, hids⟩ := h.ids
    refine ⟨draws :: ks, ?_, ?_, ?_⟩
    · rw [List.nodup_cons]
      exact ⟨fun hk => absurd (hlt draws hk) (lt_irrefl _), hnodup⟩
    · intro k hk
      rcases List.mem_cons.mp hk with rfl | hk
      · exact Nat.lt_succ_self _
      · exact Nat.lt_succ_of_lt (hlt k hk)
    · refine (hperm.map _).trans ?_
      rw [List.map_cons, List.map_cons, hid]
      exact hids.cons _

/-- Below the bound the ids of different draws differ. -/
theorem ids_nodup
    (h : Accounts orders trades draws)
    (hdraws : draws ≤ 2 ^ 64) :
    (orders.map PendingOrder.exchangeOrderId).Nodup := by
  obtain ⟨ks, hnodup, hlt, hids⟩ := h.ids
  refine hids.nodup_iff.mpr (List.Nodup.map_on ?_ hnodup)
  intro j hj k hk heq
  exact drawnId_injOn (lt_of_lt_of_le (hlt j hj) hdraws) (lt_of_lt_of_le (hlt k hk) hdraws) heq

end Accounts

end Accounts

namespace SinkRun

open SimulatedExecutionSink

section Invariant

variable {σ R κ φ : Type} [Field R]

/-- The orders of a run, wherever they are. -/
def orders (s : SinkRun σ R κ φ) : List (PendingOrder R κ φ) :=
  s.sink.restingOrders ++ ordersOf s.made

/-- How many responses with a status were published. -/
def publishedCount (s : SinkRun σ R κ φ) (status : OrderStatus) : Nat :=
  s.published.countP (fun delivery => delivery.response.status = status)

/-- What the state says about the orders at every moment of a run. -/
structure Ledger (s : SinkRun σ R κ φ) : Prop where
  accounts : Accounts s.orders s.trades s.sink.draws
  submissions : s.sink.submissions = s.trades.length
  settled : ∀ delivery ∈ s.made, ∃ result, Settles delivery result ∧
    (result.status = .filled ∨ result.status = .canceled ∨ result.status = .rejected)
  submitted : s.sink.submitted = UInt64.ofNat s.trades.length
  filled : s.sink.filled = UInt64.ofNat (s.publishedCount .filled)
  canceled : s.sink.canceled = UInt64.ofNat (s.publishedCount .canceled)
  rejected : s.sink.rejected = UInt64.ofNat (s.publishedCount .rejected)
  grossNotional : s.sink.grossNotional = ((responsesOf s.made).map notional).sum
  fees : s.sink.fees = ((responsesOf s.made).map charged).sum
  nextId : s.sink.nextExchangeOrderId = drawnId s.sink.draws

theorem ledger_create
    (storage : Option σ)
    (config : SimulatedExecutionConfig R) :
    Ledger (create storage config : SinkRun σ R κ φ) := by
  constructor
  case accounts =>
    exact ⟨by simp [create, orders, made, undelivered, ordersOf, SimulatedExecutionSink.create],
      by simp [create, orders, made, undelivered, ordersOf, SimulatedExecutionSink.create],
      [], by simp [create, orders, made, undelivered, ordersOf, SimulatedExecutionSink.create]⟩
  all_goals
    simp [create, made, undelivered, responsesOf, publishedCount, drawnId,
      SimulatedExecutionSink.create]

end Invariant

section Entering

variable {σ R κ φ : Type} [Field R] {s : SinkRun σ R κ φ}

/-- The ledger depends on the stack only through the responses made. -/
theorem Ledger.of_made_eq
    (h : Ledger s)
    {stack : List (Activation R κ φ)}
    (hmade : made { s with stack := stack } = s.made) :
    Ledger { s with stack := stack } where
  accounts := by
    rw [orders, hmade]
    exact h.accounts
  submissions := h.submissions
  settled := by
    rw [hmade]
    exact h.settled
  submitted := h.submitted
  filled := h.filled
  canceled := h.canceled
  rejected := h.rejected
  grossNotional := by
    rw [hmade]
    exact h.grossNotional
  fees := by
    rw [hmade]
    exact h.fees
  nextId := h.nextId

/-- The locked part of a call draws ids, books its responses and counts its submissions. -/
theorem Ledger.entered
    (h : Ledger s)
    {deliveries : List (ResponseDelivery R κ φ)}
    {t : SimulatedExecutionSink σ R κ φ}
    {trades : List (Trade R)}
    (ids : Nat)
    (hstate : ∃ kept quotes storage failures calls, t =
      { s.sink.booked ids (responsesOf deliveries) with
        submitted := s.sink.submitted + UInt64.ofNat trades.length
        submissions := s.sink.submissions + trades.length
        restingOrders := kept
        quotes := quotes
        storage := storage
        storageAppendFailures := failures
        storageFailureCalls := calls })
    (haccounts : Accounts (s.entered (deliveries, t) trades).orders (s.trades ++ trades)
      (s.sink.draws + ids))
    (hsettled : ∀ delivery ∈ deliveries, ∃ result, Settles delivery result ∧
      (result.status = .filled ∨ result.status = .canceled ∨ result.status = .rejected)) :
    Ledger (s.entered (deliveries, t) trades) := by
  obtain ⟨kept, quotes, storage, failures, calls, rfl⟩ := hstate
  have hsum : ∀ f : OrderResponse R → R, ((responsesOf (deliveries ++ s.made)).map f).sum =
      ((responsesOf s.made).map f).sum + ((responsesOf deliveries).map f).sum := by
    intro f
    rw [responsesOf, List.map_append, List.map_append, List.sum_append, add_comm]
    rfl
  constructor
  case accounts =>
    exact haccounts
  case settled =>
    intro delivery hdelivery
    rw [made_entered] at hdelivery
    rcases List.mem_append.mp hdelivery with hdelivery | hdelivery
    · exact hsettled delivery hdelivery
    · exact h.settled delivery hdelivery
  case submissions =>
    rw [SinkRun.entered, List.length_append, ← h.submissions]
  case submitted =>
    rw [SinkRun.entered, List.length_append, UInt64.ofNat_add, ← h.submitted]
  case filled =>
    exact h.filled
  case canceled =>
    exact h.canceled
  case rejected =>
    exact h.rejected
  case grossNotional =>
    rw [made_entered, hsum, ← h.grossNotional]
    rfl
  case fees =>
    rw [made_entered, hsum, ← h.fees]
    rfl
  case nextId =>
    exact (congrArg (· + _) h.nextId).trans (drawnId_add _ _)

/-- A loop moves orders from the resting ones to the deliveries and books the responses. -/
theorem Ledger.swept
    (h : Ledger s)
    {outcome : PendingOrder R κ φ → Option (Outcome R)}
    (hstatus : ∀ order result, outcome order = some result →
      result.status = .filled ∨ result.status = .canceled)
    {quotes : CString 16 → Option (QuoteUpdate R)}
    {result : List (ResponseDelivery R κ φ) × SimulatedExecutionSink σ R κ φ}
    (hswept : Swept outcome { s.sink with quotes := quotes } result.1 result.2) :
    Ledger (s.entered result []) := by
  obtain ⟨deliveries, t⟩ := result
  refine h.entered deliveries.length ?_ ?_ ?_
  · refine ⟨t.restingOrders, quotes, s.sink.storage, s.sink.storageAppendFailures,
      s.sink.storageFailureCalls, hswept.state.trans ?_⟩
    simp [booked]
  · rw [List.append_nil]
    refine h.accounts.perm ?_ (Nat.le_add_right _ _)
    rw [orders, made_entered, ordersOf, List.map_append, ← List.append_assoc]
    exact hswept.perm.append_right _
  · intro delivery hdelivery
    obtain ⟨result, hresult, hsettles⟩ := hswept.settles delivery hdelivery
    rcases hstatus _ result hresult with hfilled | hcanceled
    · exact ⟨result, hsettles, .inl hfilled⟩
    · exact ⟨result, hsettles, .inr (.inl hcanceled)⟩

/-- A submission adds an order and, if it does not rest, its response. -/
theorem Ledger.accepted [LinearOrder R]
    (h : Ledger s)
    (trade : Trade R)
    (responseCallback : Option κ)
    (storageFailureCallback : Option φ)
    (storage : Option σ)
    (failures : UInt64)
    (calls : List φ)
    {result : List (ResponseDelivery R κ φ) × SimulatedExecutionSink σ R κ φ}
    (haccepted : Accepted
      { s.sink with
        submitted := s.sink.submitted + 1
        submissions := s.sink.submissions + 1
        storage := storage
        storageAppendFailures := failures
        storageFailureCalls := calls }
      trade responseCallback storageFailureCallback s.sink.submissions result.1 result.2) :
    Ledger (s.entered result [trade]) := by
  obtain ⟨deliveries, t⟩ := result
  cases haccepted with
  | answered response outcome hanswers hid hresult =>
      refine h.entered 1 ?_ ?_ ?_
      · exact ⟨s.sink.restingOrders, s.sink.quotes, storage, failures, calls, rfl⟩
      · refine h.accounts.add ⟨trade, response.exchangeOrderId, responseCallback,
          storageFailureCallback, s.sink.submissions⟩ h.submissions (hid.trans h.nextId) ?_
        rw [orders, made_entered]
        exact List.perm_middle
      · intro delivery hdelivery
        rw [List.mem_singleton.mp hdelivery]
        refine ⟨outcome, ⟨hanswers, rfl⟩, ?_⟩
        rcases hresult with hrejected | ⟨fill, -, rfl⟩
        · exact .inr (.inr hrejected)
        · exact .inl rfl
  | rests hvalid hfill =>
      refine h.entered 1 ?_ ?_ ?_
      · exact ⟨_, s.sink.quotes, storage, failures, calls, rfl⟩
      · refine h.accounts.add ⟨trade, s.sink.nextExchangeOrderId, responseCallback,
          storageFailureCallback, s.sink.submissions⟩ h.submissions h.nextId ?_
        rw [orders, made_entered]
        simp only [SinkRun.entered, List.nil_append, List.append_assoc, List.singleton_append]
        exact List.perm_middle
      · intro delivery hdelivery
        cases hdelivery

/-- The only order that a submission adds is its own. -/
theorem mem_orders_of_accepted [LinearOrder R]
    {sink : SimulatedExecutionSink σ R κ φ} {trade : Trade R} {responseCallback : Option κ}
    {storageFailureCallback : Option φ} {n : Nat}
    {result : List (ResponseDelivery R κ φ) × SimulatedExecutionSink σ R κ φ}
    (haccepted : Accepted sink trade responseCallback storageFailureCallback n result.1 result.2)
    (hresting : sink.restingOrders = s.sink.restingOrders)
    {order : PendingOrder R κ φ}
    (horder : order ∈ (s.entered result [trade]).orders) :
    order ∈ s.orders ∨ (order.trade = trade ∧ order.responseCallback = responseCallback) := by
  rw [orders, made_entered] at horder
  obtain ⟨deliveries, t⟩ := result
  cases haccepted with
  | answered response result hanswers hid houtcome =>
      simp only [entered, hresting, ordersOf, List.map_append, List.map_cons, List.map_nil,
        List.mem_append, List.mem_singleton] at horder
      rcases horder with horder | rfl | horder
      · exact .inl (List.mem_append_left _ horder)
      · exact .inr ⟨rfl, rfl⟩
      · exact .inl (List.mem_append_right _ horder)
  | rests hvalid hfill =>
      simp only [entered, booked, hresting, List.nil_append, List.mem_append,
        List.mem_singleton] at horder
      rcases horder with (horder | rfl) | horder
      · exact .inl (List.mem_append_left _ horder)
      · exact .inr ⟨rfl, rfl⟩
      · exact .inl (List.mem_append_right _ horder)

end Entering

section Steps

variable {σ R κ φ : Type} [Field R] [LinearOrder R] [IStorage σ R] {s t : SinkRun σ R κ φ}

omit [Field R] [LinearOrder R] [IStorage σ R] in
theorem count_published
    {counter : UInt64} {status : OrderStatus}
    (h : counter = UInt64.ofNat (s.publishedCount status))
    (delivery : ResponseDelivery R κ φ) :
    counter + (if delivery.response.status = status then 1 else 0) =
      UInt64.ofNat ((s.published ++ [delivery]).countP
        (fun d => d.response.status = status)) := by
  rw [h, publishedCount, List.countP_append, UInt64.ofNat_add, List.countP_singleton]
  congr 1
  by_cases hstatus : delivery.response.status = status
  · simp [hstatus]
  · simp [hstatus]

omit [LinearOrder R] in
/-- A delivery moves one response to the published ones and counts it. -/
theorem Ledger.deliver
    (h : Ledger s)
    {delivery : ResponseDelivery R κ φ} {rest : List (ResponseDelivery R κ φ)}
    {below : List (Activation R κ φ)}
    (hstack : s.stack = .delivering (delivery :: rest) :: below)
    (eventNs now : Int64) :
    Ledger { s with
      sink := s.sink.publish delivery eventNs now
      stack := callbackActivation delivery ++ .delivering rest :: below
      published := s.published ++ [delivery] } := by
  obtain ⟨failures, calls, hsink⟩ := s.sink.publish_eq delivery eventNs now
  have hmade : List.Perm (made { s with
      sink := s.sink.publish delivery eventNs now
      stack := callbackActivation delivery ++ .delivering rest :: below
      published := s.published ++ [delivery] }) s.made :=
    made_perm_of_deliver hstack eventNs now
  rw [hsink] at hmade ⊢
  constructor
  case accounts =>
    exact h.accounts.perm ((hmade.map _).append_left _) le_rfl
  case settled =>
    intro d hd
    exact h.settled d (hmade.subset hd)
  case submissions =>
    exact h.submissions
  case submitted =>
    exact h.submitted
  case filled =>
    exact count_published h.filled delivery
  case canceled =>
    exact count_published h.canceled delivery
  case rejected =>
    exact count_published h.rejected delivery
  case grossNotional =>
    refine h.grossNotional.trans ?_
    exact (((hmade.map _).map _).sum_eq).symm
  case fees =>
    refine h.fees.trans ?_
    exact (((hmade.map _).map _).sum_eq).symm
  case nextId =>
    exact h.nextId

/-- Every step keeps the ledger. -/
theorem Ledger.step
    (h : Ledger s)
    {a : SinkAction R κ φ}
    (ha : s.step a = some t) :
    Ledger t := by
  cases a with
  | call c =>
      obtain ⟨-, rfl⟩ := step_call ha
      rcases c.submits_or_trades_nil with
        ⟨trade, responseCallback, storageFailureCallback, eventNs, storageNs, now, rfl⟩ | hc
      · obtain ⟨failures, calls, haccepted⟩ := s.sink.call_accepted trade responseCallback
          storageFailureCallback eventNs storageNs now
        exact h.accepted trade responseCallback storageFailureCallback _ failures calls haccepted
      · obtain ⟨outcome, quotes, hstatus, hswept⟩ := s.sink.call_swept hc
        rw [hc]
        exact h.swept hstatus hswept
  | deliver eventNs now =>
      obtain ⟨delivery, rest, below, hstack, rfl⟩ := step_deliver ha
      exact h.deliver hstack eventNs now
  | callbackReturns =>
      obtain ⟨stack, rfl, hmade⟩ := step_returns (.inl rfl) ha
      exact h.of_made_eq hmade
  | callReturns =>
      obtain ⟨stack, rfl, hmade⟩ := step_returns (.inr rfl) ha
      exact h.of_made_eq hmade

/-- A step makes no orders but the one it submits. -/
theorem mem_orders_of_step
    {a : SinkAction R κ φ}
    (ha : s.step a = some t)
    {order : PendingOrder R κ φ}
    (horder : order ∈ t.orders) :
    order ∈ s.orders ∨
      ∃ trade responseCallback storageFailureCallback eventNs storageNs now,
        a = .call (.submitTrade trade responseCallback storageFailureCallback eventNs storageNs
          now) ∧ order.trade = trade ∧ order.responseCallback = responseCallback := by
  cases a with
  | call c =>
      obtain ⟨-, rfl⟩ := step_call ha
      rcases c.submits_or_trades_nil with
        ⟨trade, responseCallback, storageFailureCallback, eventNs, storageNs, now, rfl⟩ | hc
      · obtain ⟨failures, calls, haccepted⟩ := s.sink.call_accepted trade responseCallback
          storageFailureCallback eventNs storageNs now
        exact (mem_orders_of_accepted haccepted rfl horder).imp_right
          (fun h => ⟨_, _, _, _, _, _, rfl, h⟩)
      · left
        obtain ⟨outcome, quotes, -, hswept⟩ := s.sink.call_swept hc
        rw [orders, made_entered, ordersOf, List.map_append, ← List.append_assoc] at horder
        exact (hswept.perm.append_right _).subset horder
  | deliver eventNs now =>
      left
      obtain ⟨delivery, rest, below, hstack, rfl⟩ := step_deliver ha
      have hmade := made_perm_of_deliver hstack eventNs now
      obtain ⟨failures, calls, hsink⟩ := s.sink.publish_eq delivery eventNs now
      rw [hsink] at hmade horder
      exact ((hmade.map _).append_left _).subset horder
  | callbackReturns =>
      obtain ⟨stack, rfl, hmade⟩ := step_returns (.inl rfl) ha
      rw [orders, hmade] at horder
      exact .inl horder
  | callReturns =>
      obtain ⟨stack, rfl, hmade⟩ := step_returns (.inr rfl) ha
      rw [orders, hmade] at horder
      exact .inl horder

theorem ledger_of_reachable
    {storage : Option σ} {config : SimulatedExecutionConfig R}
    (hs : Reachable (Steps step) (create storage config) s) :
    Ledger s :=
  hs.invariant (ledger_create storage config) (fun _ _ _ h ha => h.step ha)

/-- The locked part of a call leaves the configuration, and adds only valid orders. -/
theorem resting_call
    {sink : SimulatedExecutionSink σ R κ φ}
    {K : Trade R → Prop}
    (hK : ∀ (u : SimulatedExecutionSink σ R κ φ) trade, u.config = sink.config →
      u.validateOrder trade = none → u.immediateFill trade = none → K trade)
    (h : ∀ order ∈ sink.restingOrders, K order.trade)
    (c : SinkCall R κ φ) :
    (sink.call c).2.config = sink.config ∧
      ∀ order ∈ (sink.call c).2.restingOrders, K order.trade := by
  rcases c.submits_or_trades_nil with
    ⟨trade, responseCallback, storageFailureCallback, eventNs, storageNs, now, rfl⟩ | hc
  · obtain ⟨failures, calls, haccepted⟩ := sink.call_accepted trade responseCallback
      storageFailureCallback eventNs storageNs now
    generalize sink.call (.submitTrade trade responseCallback storageFailureCallback eventNs
      storageNs now) = result at haccepted ⊢
    obtain ⟨deliveries, t⟩ := result
    cases haccepted with
    | answered response result hanswers hid hresult =>
        exact ⟨rfl, h⟩
    | rests hvalid hfill =>
        refine ⟨rfl, ?_⟩
        intro order horder
        rcases List.mem_append.mp horder with horder | horder
        · exact h order horder
        · rw [List.mem_singleton.mp horder]
          refine hK _ trade ?_ hvalid hfill
          rfl
  · obtain ⟨outcome, quotes, -, hswept⟩ := sink.call_swept hc
    refine ⟨by rw [hswept.state]; rfl, ?_⟩
    intro order horder
    exact h order (hswept.perm.subset (List.mem_append_left _ horder))

/-- What is checked when an order comes to rest holds of all resting orders. -/
theorem forall_resting_of_reachable
    {storage : Option σ} {config : SimulatedExecutionConfig R}
    {K : Trade R → Prop}
    (hK : ∀ (u : SimulatedExecutionSink σ R κ φ) trade, u.config = config →
      u.validateOrder trade = none → u.immediateFill trade = none → K trade)
    (hs : Reachable (Steps step) (create storage config) s) :
    ∀ order ∈ s.sink.restingOrders, K order.trade := by
  have h : s.sink.config = config ∧ ∀ order ∈ s.sink.restingOrders, K order.trade := by
    refine hs.invariant
      (P := fun s => s.sink.config = config ∧ ∀ order ∈ s.sink.restingOrders, K order.trade) ?_ ?_
    · exact ⟨rfl, by simp [create, SimulatedExecutionSink.create]⟩
    · rintro s a t ⟨hconfig, h⟩ ha
      cases a with
      | call c =>
          obtain ⟨-, rfl⟩ := step_call ha
          obtain ⟨hsame, hresting⟩ := resting_call (by rwa [hconfig]) h c
          exact ⟨hsame.trans hconfig, hresting⟩
      | deliver eventNs now =>
          obtain ⟨delivery, rest, below, -, rfl⟩ := step_deliver ha
          obtain ⟨failures, calls, heq⟩ := s.sink.publish_eq delivery eventNs now
          rw [heq]
          exact ⟨hconfig, h⟩
      | callbackReturns =>
          obtain ⟨stack, rfl, -⟩ := step_returns (.inl rfl) ha
          exact ⟨hconfig, h⟩
      | callReturns =>
          obtain ⟨stack, rfl, -⟩ := step_returns (.inr rfl) ha
          exact ⟨hconfig, h⟩
  exact h.2

end Steps

section Results

variable {σ R κ φ : Type} [Field R]

/-- The responses that submission `n` has received. -/
def responsesTo (s : SinkRun σ R κ φ) (n : Nat) : List (OrderResponse R) :=
  responsesOf (s.published.filter (fun delivery => delivery.pending.submission = n))

/-- The order of submission `n` rests. -/
def isResting (s : SinkRun σ R κ φ) (n : Nat) : Bool :=
  s.sink.restingOrders.any (fun order => order.submission = n)

/-- The responses that report a fill. -/
def fills (s : SinkRun σ R κ φ) : List (OrderResponse R) :=
  (responsesOf s.published).filter (fun response => response.status = .filled)

/-- The ids of the resting orders and of the responses, one for each order. -/
def exchangeOrderIds (s : SinkRun σ R κ φ) : List UInt64 :=
  s.sink.restingOrders.map PendingOrder.exchangeOrderId ++
    (responsesOf s.published).map OrderResponse.exchangeOrderId

/-- What a sink on which no call is in progress says about its orders. -/
structure Balanced (s : SinkRun σ R κ φ) : Prop where
  counts : s.sink.stats.submitted = s.sink.stats.resting + s.sink.stats.filled +
    s.sink.stats.canceled + s.sink.stats.rejected
  responses : ∀ n < s.trades.length,
    (s.responsesTo n).length = if s.isResting n then 0 else 1
  answered : ∀ n trade, s.trades[n]? = some trade → ∀ response ∈ s.responsesTo n,
    response.clientOrderId = trade.clientOrderId
  grossNotional : s.sink.stats.grossNotional =
    (s.fills.map (fun response => response.avgPrice * response.filledQuantity)).sum
  fees : s.sink.stats.fees = (s.fills.map OrderResponse.fee).sum
  ids : s.sink.draws ≤ 2 ^ 64 → s.exchangeOrderIds.Nodup

theorem sum_map_ite
    (f : OrderResponse R → R)
    (responses : List (OrderResponse R)) :
    (responses.map (fun response => if response.status = .filled then f response else 0)).sum =
      ((responses.filter (fun response => response.status = .filled)).map f).sum := by
  induction responses with
  | nil =>
      rfl
  | cons response rest ih =>
      by_cases hstatus : response.status = .filled
      · simp [hstatus, ih]
      · simp [hstatus, ih]

variable {s : SinkRun σ R κ φ}

omit [Field R] in
theorem made_of_idle
    (hidle : s.stack = []) :
    s.made = s.published := by
  simp [made, undelivered, hidle]

/-- Each submission is counted once, with the resting orders or with the responses. -/
theorem Ledger.count_eq_one
    (h : Ledger s)
    (hidle : s.stack = [])
    {n : Nat}
    (hn : n < s.trades.length) :
    s.sink.restingOrders.countP (fun order => order.submission = n) +
      (s.responsesTo n).length = 1 := by
  have hcount := h.accounts.partition.count_eq n
  rw [List.count_eq_one_of_mem List.nodup_range (List.mem_range.mpr hn), orders,
    made_of_idle hidle, List.map_append, List.count_append, ordersOf, List.map_map] at hcount
  rw [← hcount, responsesTo, responsesOf, List.length_map, ← List.countP_eq_length_filter]
  simp only [List.count, List.countP_map]
  congr 1

theorem Ledger.responses_length
    (h : Ledger s)
    (hidle : s.stack = [])
    {n : Nat}
    (hn : n < s.trades.length) :
    (s.responsesTo n).length = if s.isResting n then 0 else 1 := by
  have hone := h.count_eq_one hidle hn
  by_cases hresting : s.isResting n = true
  · have hpos : 0 < s.sink.restingOrders.countP (fun order => order.submission = n) := by
      rw [List.countP_pos_iff]
      simpa [isResting] using hresting
    rw [if_pos hresting]
    omega
  · have hzero : s.sink.restingOrders.countP (fun order => order.submission = n) = 0 := by
      rw [List.countP_eq_zero]
      simpa [isResting] using hresting
    rw [if_neg hresting]
    omega

/-- Every published response is counted under one status. -/
theorem Ledger.published_length
    (h : Ledger s)
    (hidle : s.stack = []) :
    s.published.length = s.publishedCount .filled + s.publishedCount .canceled +
      s.publishedCount .rejected := by
  have hsettled := h.settled
  rw [made_of_idle hidle] at hsettled
  simp only [publishedCount]
  generalize s.published = published at hsettled
  induction published with
  | nil =>
      rfl
  | cons delivery rest ih =>
      have hrest := ih (fun d hd => hsettled d (List.mem_cons_of_mem _ hd))
      obtain ⟨result, hsettles, hstatus⟩ := hsettled delivery List.mem_cons_self
      rw [← hsettles.answers.status] at hstatus
      rcases hstatus with hstatus | hstatus | hstatus
      · simp [hstatus, hrest]
        omega
      · simp [hstatus, hrest]
        omega
      · simp [hstatus, hrest]
        omega

theorem Ledger.counts
    (h : Ledger s)
    (hidle : s.stack = []) :
    s.sink.stats.submitted = s.sink.stats.resting + s.sink.stats.filled +
      s.sink.stats.canceled + s.sink.stats.rejected := by
  have hlength := h.accounts.partition.length_eq
  rw [List.length_map, List.length_range, orders, List.length_append, made_of_idle hidle,
    ordersOf, List.length_map, h.published_length hidle] at hlength
  simp only [stats]
  rw [h.submitted, h.filled, h.canceled, h.rejected, ← hlength]
  simp only [UInt64.ofNat_add, UInt64.add_assoc]

/--
When no call is in progress the counters add up, every order that does not rest
has exactly one response and a resting one none, the money booked is the sum over
the fills, and, as long as no more than `2 ^ 64` ids were drawn, no two orders
have the same id.
-/
theorem ledger_exact [LinearOrder R] [IStorage σ R]
    {storage : Option σ} {config : SimulatedExecutionConfig R}
    (hs : Reachable (Steps step) (create storage config) s)
    (hidle : s.stack = []) :
    Balanced s := by
  have h := ledger_of_reachable hs
  have hmade := made_of_idle hidle
  constructor
  case counts =>
    exact h.counts hidle
  case responses =>
    intro n hn
    exact h.responses_length hidle hn
  case answered =>
    intro n trade htrade response hresponse
    obtain ⟨delivery, hdelivery, rfl⟩ := List.mem_map.mp hresponse
    obtain ⟨hpublished, hsubmission⟩ := List.mem_filter.mp hdelivery
    rw [← hmade] at hpublished
    obtain ⟨result, hsettles, -⟩ := h.settled delivery hpublished
    have hown := h.accounts.trades delivery.pending
      (List.mem_append_right _ (List.mem_map.mpr ⟨delivery, hpublished, rfl⟩))
    rw [of_decide_eq_true hsubmission, htrade, Option.some.injEq] at hown
    rw [hown]
    exact hsettles.answers.clientOrderId
  case grossNotional =>
    rw [fills, ← sum_map_ite, ← hmade]
    exact h.grossNotional
  case fees =>
    rw [fills, ← sum_map_ite, ← hmade]
    exact h.fees
  case ids =>
    intro hdraws
    have hnodup := h.accounts.ids_nodup hdraws
    have hids : s.orders.map PendingOrder.exchangeOrderId = s.exchangeOrderIds := by
      rw [orders, hmade, List.map_append, exchangeOrderIds, ordersOf, responsesOf, List.map_map,
        List.map_map]
      congr 1
      refine List.map_congr_left ?_
      intro delivery hdelivery
      rw [← hmade] at hdelivery
      obtain ⟨result, hsettles, -⟩ := h.settled delivery hdelivery
      exact hsettles.exchangeOrderId.symm
    rwa [hids] at hnodup

end Results

section Reentrancy

def noFees : SimulatedExecutionConfig ℚ :=
  ⟨0, 0, true⟩

def btcQuote : QuoteUpdate ℚ where
  ticker := .copyString (text "BTC_USDT")
  bidPrice := 100
  bidSize := 1
  askPrice := 101
  askSize := 1
  timestampNs := 5

/-- A limit order rests; the callback of a market order that fills cancels it. -/
def cancelFromCallback : List (SinkAction ℚ Unit Unit) :=
  [.call (.onQuote btcQuote (fun _ => 6)), .callReturns,
    .call (.submitTrade (Trade.createLimitOrder 1 0 1 (text "BTC_USDT") .buy 2 99).1
      (some ()) none 7 7 7), .callReturns,
    .call (.submitTrade (Trade.createMarketOrder 2 0 1 (text "BTC_USDT") .buy 3).1
      (some ()) none 8 8 8), .deliver 9 9,
    .call (.cancelAllOrders [] (fun _ => 10)), .deliver 11 11, .callbackReturns, .callReturns,
    .callbackReturns, .callReturns]

theorem ledger_exact_cancel_from_callback :
    ∃ s : SinkRun (InMemoryStorage ℚ) ℚ Unit Unit,
      Reachable (Steps step) (create (some .create) noFees) s ∧ s.stack = [] ∧
        s.sink.grossNotional = 303 ∧ s.published.length = 2 ∧ Balanced s := by
  have hrun : (runActions step
      (create (some .create) noFees : SinkRun (InMemoryStorage ℚ) ℚ Unit Unit)
      cancelFromCallback).map
        (fun s => (s.stack.length, s.sink.grossNotional, s.published.length)) =
      some (0, 303, 2) := by
    decide +kernel
  obtain ⟨s, hs, hview⟩ := Reachable.exists_of_runActions hrun
  simp only [Prod.mk.injEq, List.length_eq_zero_iff] at hview
  obtain ⟨hidle, hgross, hpublished⟩ := hview
  exact ⟨s, hs, hidle, hgross, hpublished, ledger_exact hs hidle⟩

end Reentrancy

section Rejections

/-- An order without a ticker. -/
def noTicker : Trade ℚ :=
  (Trade.createMarketOrder 0 0 1 [] .buy 1).1

/-- A sink without storage after `n` orders that it rejected. -/
structure Rejected (s : SinkRun (InMemoryStorage ℚ) ℚ Unit Unit) (n : Nat) : Prop where
  stack : s.stack = []
  storage : s.sink.storage = none
  resting : s.sink.restingOrders = []
  nextId : s.sink.nextExchangeOrderId = drawnId n
  ids : (responsesOf s.published).map OrderResponse.exchangeOrderId = (List.range n).map drawnId

/-- One more order is rejected under the next id. -/
theorem Rejected.next
    {s : SinkRun (InMemoryStorage ℚ) ℚ Unit Unit} {n : Nat}
    (h : Rejected s n) :
    ∃ t, runActions step s [.call (.submitTrade noTicker none none 0 0 0), .deliver 0 0,
      .callReturns] = some t ∧ Rejected t (n + 1) := by
  have hturn : s.clientTurn = true := by
    rw [clientTurn, h.stack]
  obtain ⟨recorded, hrecorded, hnone⟩ : ∃ recorded,
      s.sink.recordSubmission noTicker none 0 0 = recorded ∧ recorded =
        { s.sink with
          submitted := s.sink.submitted + 1
          submissions := s.sink.submissions + 1 } := by
    refine ⟨_, rfl, ?_⟩
    simp [recordSubmission, appendStorageEvent, h.storage]
  obtain ⟨response, hresponse⟩ : ∃ response, response =
      (recorded.makeResponse noTicker ⟨.rejected, 0, 0⟩ (text "missing ticker") 0).1 := ⟨_, rfl⟩
  have hcall : s.sink.call (.submitTrade noTicker none none 0 0 0) =
      ([⟨⟨noTicker, response.exchangeOrderId, none, none, s.sink.submissions⟩, response⟩],
        recorded.booked 1 [response]) := by
    have hinvalid : recorded.validateOrder noTicker = some (text "missing ticker") := rfl
    simp only [SimulatedExecutionSink.call, submitTrade, hrecorded, accept, hinvalid,
      makeResponse_state, ← hresponse]
  have hid : response.exchangeOrderId = drawnId n := by
    rw [hresponse, makeResponse_exchangeOrderId, hnone]
    exact h.nextId
  have hpublish : (recorded.booked 1 [response]).publish
      ⟨⟨noTicker, response.exchangeOrderId, none, none, s.sink.submissions⟩, response⟩ 0 0 =
      { recorded.booked 1 [response] with rejected := recorded.rejected + 1 } := by
    have hstatus : response.status = .rejected := by
      rw [hresponse]
      rfl
    simp [publish, publishResponse, hstatus, appendStorageEvent, booked, hnone, h.storage]
  refine ⟨⟨{ recorded.booked 1 [response] with rejected := recorded.rejected + 1 }, [],
    s.trades ++ [noTicker], s.published ++
      [⟨⟨noTicker, response.exchangeOrderId, none, none, s.sink.submissions⟩, response⟩]⟩, ?_, ?_⟩
  · simp only [runActions, step, hturn, if_true, hcall, Option.bind_some, hpublish,
      callbackActivation, List.nil_append, h.stack]
    rfl
  · constructor
    · rfl
    · rw [hnone]
      exact h.storage
    · rw [hnone]
      exact h.resting
    · rw [hnone]
      exact (congrArg (· + UInt64.ofNat 1) h.nextId).trans (drawnId_add n 1)
    · simp only [responsesOf, List.map_append, List.map_cons, List.map_nil, List.range_succ, hid]
      exact congrArg (· ++ [drawnId n]) h.ids

theorem rejected_reachable
    (n : Nat) :
    ∃ s : SinkRun (InMemoryStorage ℚ) ℚ Unit Unit,
      Reachable (Steps step) (create none noFees) s ∧ Rejected s n := by
  induction n with
  | zero =>
      exact ⟨_, .init, rfl, rfl, rfl, rfl, rfl⟩
  | succ n ih =>
      obtain ⟨s, hs, hrejected⟩ := ih
      obtain ⟨t, hrun, ht⟩ := hrejected.next
      exact ⟨t, Reachable.of_runActions _ hs hrun, ht⟩

/-- The id of the first response comes back after `2 ^ 64` more. -/
theorem exchange_order_id_repeats :
    ∃ s : SinkRun (InMemoryStorage ℚ) ℚ Unit Unit,
      Reachable (Steps step) (create none noFees) s ∧ s.stack = [] ∧
        ¬ s.exchangeOrderIds.Nodup := by
  obtain ⟨s, hs, hrejected⟩ := rejected_reachable (2 ^ 64 + 1)
  refine ⟨s, hs, hrejected.stack, ?_⟩
  rw [exchangeOrderIds, hrejected.resting, hrejected.ids, List.map_nil, List.nil_append]
  intro hnodup
  have hinj := List.inj_on_of_nodup_map hnodup
  have hzero : (0 : Nat) ∈ List.range (2 ^ 64 + 1) := List.mem_range.mpr (by omega)
  have hlast : 2 ^ 64 ∈ List.range (2 ^ 64 + 1) := List.mem_range.mpr (by omega)
  have hsame : drawnId 0 = drawnId (2 ^ 64) := by
    decide
  have heq := hinj hzero hlast hsame
  omega

end Rejections

end SinkRun

end Backtest
end CryptoHft
