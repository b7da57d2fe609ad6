import CryptoHft.Core.OrderExecutor

/-!
# Which updates of an order reach its strategy

The messages about one order, interleaved with submissions and messages of other
orders, are handled one after the other.  Seen from one order, an entry of
`pending_orders_` goes through three states: it holds the callback, the callback
has been moved out, it is erased.  `calls` are the invocations that a sequence of
responses makes from an entry, and `run_entry` says that a run of the executor
behaves so on each order.

Since the first response moves the callback out of the entry, later ones find
nothing to call: the updates of an order are delivered in full exactly if it has
at most one update, or the first one is terminal.

An update of the exchange may list several orders.  The parser reads the first of
them only, so such a message is delivered in full exactly if it lists one order
and that order still has its callback.
-/

namespace CryptoHft
namespace Core
namespace OrderExecutor

open Lib Exchange

section Entry

variable {κ R : Type}

/-- The invocations that a sequence of responses makes from an entry. -/
def calls (c : UInt64) (entry : Option (Option κ)) :
    List (OrderResponse R) → List (Invocation κ R)
  | [] => []
  | response :: rest =>
      (entry.join.map (fun k => (⟨c, k, response⟩ : Invocation κ R))).toList ++
        calls c (entryAfter entry response) rest

/-- The responses up to and including the first terminal one. -/
def upToTerminal : List (OrderResponse R) → List (OrderResponse R)
  | [] => []
  | response :: rest =>
      if response.status.isTerminal then [response] else response :: upToTerminal rest

/-- At most one update, or a terminal one first. -/
def SingleUpdate (responses : List (OrderResponse R)) : Prop :=
  ∀ first rest, responses = first :: rest → rest = [] ∨ first.status.isTerminal = true

variable {c : UInt64} {k : κ}

theorem calls_of_no_callback
    {entry : Option (Option κ)} {responses : List (OrderResponse R)}
    (h : entry.join = none) :
    calls c entry responses = [] := by
  induction responses generalizing entry with
  | nil =>
      rfl
  | cons response rest ih =>
      have hafter : (entryAfter entry response).join = none := by
        cases entry with
        | none =>
            rfl
        | some callback =>
            simp only [entryAfter]
            split <;> rfl
      simp [calls, h, ih hafter]

/-- Only the first response finds the callback. -/
theorem calls_of_callback
    (responses : List (OrderResponse R)) :
    calls c (some (some k)) responses = (responses.take 1).map (fun r => ⟨c, k, r⟩) := by
  cases responses with
  | nil =>
      rfl
  | cons response rest =>
      have hafter : (entryAfter (some (some k)) response).join = none := by
        simp only [entryAfter]
        split <;> rfl
      simp [calls, calls_of_no_callback hafter]

theorem foldl_entryAfter_eq_none
    {entry : Option (Option κ)} {responses : List (OrderResponse R)}
    (hentry : entry ≠ none) :
    responses.foldl entryAfter entry = none ↔
      ∃ r ∈ responses, r.status.isTerminal = true := by
  induction responses generalizing entry with
  | nil =>
      simpa using hentry
  | cons response rest ih =>
      obtain ⟨callback, rfl⟩ := Option.ne_none_iff_exists'.mp hentry
      by_cases hterminal : response.status.isTerminal = true
      · have hgone : ∀ rs : List (OrderResponse R),
            rs.foldl entryAfter (none : Option (Option κ)) = none := by
          intro rs
          induction rs with
          | nil =>
              rfl
          | cons r rs ih' =>
              exact ih'
        simp [entryAfter, hterminal, hgone]
      · have hsome : (some none : Option (Option κ)) ≠ none := by simp
        simp [entryAfter, hterminal, ih hsome]

/-- Delivering the first response only is enough exactly for a single update. -/
theorem take_one_eq_upToTerminal_iff
    (responses : List (OrderResponse R)) :
    responses.take 1 = upToTerminal responses ↔ SingleUpdate responses := by
  cases responses with
  | nil =>
      simp [upToTerminal, SingleUpdate]
  | cons first rest =>
      by_cases hterminal : first.status.isTerminal = true
      · simp [upToTerminal, SingleUpdate, hterminal]
      · cases rest with
        | nil =>
            simp [upToTerminal, SingleUpdate, hterminal]
        | cons second rest =>
            constructor
            · intro h
              by_cases hsecond : second.status.isTerminal = true
              · simp [upToTerminal, hterminal, hsecond] at h
              · simp [upToTerminal, hterminal, hsecond] at h
            · intro h
              rcases h first (second :: rest) rfl with hnil | hfirst
              · cases hnil
              · exact absurd hfirst hterminal

end Entry

section Runs

variable {κ R : Type} [Double R]

/-- What can happen to an executor; a message comes with the order it is about. -/
inductive Event (κ R : Type)
  | submitTrade (trade : Trade R) (callback : Option κ)
  | message (nowNs : Int64) (order : UInt64) (msg : Json R)

def apply (e : OrderExecutor κ R) : Event κ R → OrderExecutor κ R × List (Invocation κ R)
  | .submitTrade trade callback => ((e.submitTrade trade callback).2, [])
  | .message nowNs _ msg => ((e.receive nowNs msg).1, (e.receive nowNs msg).2.toList)

/-- The state after a sequence of events, and the invocations made. -/
def run (e : OrderExecutor κ R) : List (Event κ R) → OrderExecutor κ R × List (Invocation κ R)
  | [] => (e, [])
  | a :: rest =>
      (((e.apply a).1.run rest).1, (e.apply a).2 ++ ((e.apply a).1.run rest).2)

/-- The events around the order `c`: messages name their order, and no other order has its id. -/
def Event.Proper (c : UInt64) : Event κ R → Prop
  | .submitTrade trade _ => c ≠ trade.clientOrderId
  | .message _ order msg => About msg order

/-- The response of an event to the order `c`. -/
def Event.responseTo (c : UInt64) : Event κ R → Option (OrderResponse R)
  | .submitTrade _ _ => none
  | .message _ order msg => if order = c then orderResponseOf msg else none

def responsesTo (c : UInt64) (events : List (Event κ R)) : List (OrderResponse R) :=
  events.filterMap (Event.responseTo c)

/-- The invocations of the callback of the order `c`. -/
def callsOf (c : UInt64) (invocations : List (Invocation κ R)) : List (Invocation κ R) :=
  invocations.filter (fun i => i.entry = c)

/--
The strategy of the order `c` gets every response up to the first terminal one,
once and in order, and the entry is erased exactly at that one.
-/
structure DeliversInFull (c : UInt64) (k : κ) (e : OrderExecutor κ R)
    (events : List (Event κ R)) : Prop where
  delivered : callsOf c (e.run events).2 =
    (upToTerminal (responsesTo c events)).map (fun r => ⟨c, k, r⟩)
  erased : ∀ before, before <+: events →
    ((e.run before).1.pendingOrders c = none ↔
      ∃ r ∈ responsesTo c before, r.status.isTerminal = true)

variable {e : OrderExecutor κ R} {c : UInt64}

/-- One event, seen from the order `c`. -/
theorem apply_entry
    {a : Event κ R}
    (h : a.Proper c) :
    (e.apply a).1.pendingOrders c =
        ((a.responseTo c).map (entryAfter (e.pendingOrders c))).getD (e.pendingOrders c) ∧
      callsOf c (e.apply a).2 = calls c (e.pendingOrders c) (a.responseTo c).toList := by
  cases a with
  | submitTrade trade callback =>
      exact ⟨pendingOrders_submitTrade_of_ne h callback, rfl⟩
  | message nowNs order msg =>
      obtain ⟨response, hresponse, hid⟩ := About.exists_response h
      subst hid
      obtain ⟨hpending, hcall⟩ := receive_response e nowNs hresponse
      by_cases hc : response.clientOrderId = c
      · subst hc
        cases hentry : (e.pendingOrders response.clientOrderId).join with
        | none =>
            simp [Event.responseTo, hresponse, apply, hpending, hcall, callsOf, calls, hentry]
        | some k =>
            simp [Event.responseTo, hresponse, apply, hpending, hcall, callsOf, calls, hentry]
      · cases hentry : (e.pendingOrders response.clientOrderId).join with
        | none =>
            simp [Event.responseTo, hc, apply, hpending, hcall, callsOf, calls, hentry,
              Function.update_of_ne (Ne.symm hc)]
        | some k =>
            simp [Event.responseTo, hc, apply, hpending, hcall, callsOf, calls, hentry,
              Function.update_of_ne (Ne.symm hc)]

/-- A run, seen from the order `c`. -/
theorem run_entry
    {events : List (Event κ R)}
    (h : ∀ a ∈ events, a.Proper c) :
    (e.run events).1.pendingOrders c =
        (responsesTo c events).foldl entryAfter (e.pendingOrders c) ∧
      callsOf c (e.run events).2 =
        calls c (e.pendingOrders c) (responsesTo c events) := by
  induction events generalizing e with
  | nil =>
      exact ⟨rfl, rfl⟩
  | cons a rest ih =>
      obtain ⟨hentry, hcalls⟩ := apply_entry (e := e) (h a (by simp))
      obtain ⟨ihentry, ihcalls⟩ := ih (e := (e.apply a).1) (fun b hb => h b (by simp [hb]))
      have happend : callsOf c (e.run (a :: rest)).2 =
          callsOf c (e.apply a).2 ++ callsOf c ((e.apply a).1.run rest).2 :=
        List.filter_append ..
      have hrun : (e.run (a :: rest)).1 = ((e.apply a).1.run rest).1 := rfl
      rw [hrun, happend, ihentry, ihcalls, hcalls, hentry]
      cases hresponse : a.responseTo c with
      | none =>
          simp [responsesTo, hresponse, calls]
      | some response =>
          simp [responsesTo, hresponse, calls]

/--
Every update of an order reaches its strategy, and the entry goes away with the
first terminal one, exactly if the order has a single update.
-/
theorem delivers_in_full_iff
    (e : OrderExecutor κ R) (trade : Trade R) (k : κ) (events : List (Event κ R))
    (hsubmit : (e.submitTrade trade (some k)).1 = true)
    (hproper : ∀ a ∈ events, a.Proper trade.clientOrderId) :
    DeliversInFull trade.clientOrderId k (e.submitTrade trade (some k)).2 events ↔
      SingleUpdate (responsesTo trade.clientOrderId events) := by
  have hentry : (e.submitTrade trade (some k)).2.pendingOrders trade.clientOrderId =
      some (some k) := by
    rw [pendingOrders_submitTrade hsubmit, Function.update_self]
  have hcalls : callsOf trade.clientOrderId ((e.submitTrade trade (some k)).2.run events).2 =
      ((responsesTo trade.clientOrderId events).take 1).map
        (fun r => ⟨trade.clientOrderId, k, r⟩) := by
    rw [(run_entry hproper).2, hentry, calls_of_callback]
  rw [← take_one_eq_upToTerminal_iff]
  constructor
  · intro h
    have hmap := hcalls.symm.trans h.delivered
    refine List.map_injective_iff.mpr ?_ hmap
    intro r r' hr
    exact congrArg Invocation.response hr
  · intro h
    refine ⟨by rw [hcalls, h], ?_⟩
    intro before hbefore
    have hproper' : ∀ a ∈ before, a.Proper trade.clientOrderId :=
      fun a ha => hproper a (hbefore.subset ha)
    rw [(run_entry hproper').1, hentry]
    exact foldl_entryAfter_eq_none (by simp)

end Runs

section TwoUpdates

/-- An update of the first order. -/
def updateOfFirst (status quantity : String) : Event Unit ℚ :=
  .message 0 0 (userOrderUpdate (text "0") (text status) (text quantity))

theorem proper_updateOfFirst
    {status quantity : String}
    (h : (orderResponseOf
      (userOrderUpdate (R := ℚ) (text "0") (text status) (text quantity))).isSome) :
    (updateOfFirst status quantity).Proper 0 :=
  ⟨h, rfl, _, _, rfl, rfl, rfl⟩

theorem delivers_in_full_iff_filled_at_once :
    ((create : OrderExecutor Unit ℚ).start.submitTrade firstOrder (some ())).1 = true ∧
      DeliversInFull 0 () ((create : OrderExecutor Unit ℚ).start.submitTrade firstOrder
        (some ())).2 [updateOfFirst "FILLED" "1"] := by
  have hsubmit : ((create : OrderExecutor Unit ℚ).start.submitTrade firstOrder
      (some ())).1 = true := rfl
  have hproper : ∀ a ∈ [updateOfFirst "FILLED" "1"], a.Proper firstOrder.clientOrderId := by
    intro a ha
    rw [List.mem_singleton.mp ha]
    exact proper_updateOfFirst rfl
  refine ⟨hsubmit, (delivers_in_full_iff _ firstOrder () _ hsubmit hproper).mpr ?_⟩
  intro first rest hresponses
  have hlength : (responsesTo (κ := Unit) 0 [updateOfFirst "FILLED" "1"]).length = 1 := rfl
  left
  rw [show responsesTo (κ := Unit) 0 [updateOfFirst "FILLED" "1"] = first :: rest
    from hresponses] at hlength
  simpa using hlength

/-- An order that is first reported as active and then as filled. -/
theorem second_update_not_delivered :
    ((create : OrderExecutor Unit ℚ).start.submitTrade firstOrder (some ())).1 = true ∧
      (∀ a ∈ [updateOfFirst "ACTIVE" "0", updateOfFirst "FILLED" "1"], a.Proper 0) ∧
      ¬ DeliversInFull 0 () ((create : OrderExecutor Unit ℚ).start.submitTrade firstOrder
        (some ())).2 [updateOfFirst "ACTIVE" "0", updateOfFirst "FILLED" "1"] := by
  refine ⟨rfl, ?_, ?_⟩
  · intro a ha
    simp only [List.mem_cons, List.not_mem_nil, or_false] at ha
    rcases ha with rfl | rfl
    · exact proper_updateOfFirst rfl
    · exact proper_updateOfFirst rfl
  · intro h
    have hlength := congrArg List.length h.delivered
    revert hlength
    decide +kernel

end TwoUpdates

section Batches

variable {κ R : Type} [Double R]

/-- A `user.order` message without error that lists the orders `items`. -/
structure Batch (msg : Json R) (items : List (Json R)) (responses : List (OrderResponse R)) :
    Prop where
  method : ∃ method, msg.find "method" = some (.string method)
  update : isOrderUpdate msg = .ok true
  code : responseCode msg = .ok 0
  data : ∃ result, msg.find "result" = some result ∧ result.find "data" = some (.array items)
  nonempty : items ≠ []
  objects : ∀ item ∈ items, item.isObject = true
  clientOids : ∀ item ∈ items, (item.find "client_oid").isSome
  parsed : items.map parsePayload = responses.map .ok

/-- The invocation that a response is due, in the state `e`. -/
def Due (e : OrderExecutor κ R) (invocation : Invocation κ R) (response : OrderResponse R) :
    Prop :=
  e.pendingOrders response.clientOrderId = some (some invocation.callback) ∧
    invocation.entry = response.clientOrderId ∧ invocation.response = response

def filledIn (responses : List (OrderResponse R)) : Nat :=
  responses.countP (fun r => r.status = .filled)

def rejectedIn (responses : List (OrderResponse R)) : Nat :=
  responses.countP (fun r => r.status = .rejected)

/-- Every listed order is delivered, in the order of the list, and counted. -/
structure DeliversBatch (e : OrderExecutor κ R) (nowNs : Int64) (msg : Json R)
    (responses : List (OrderResponse R)) : Prop where
  delivered : List.Forall₂ e.Due (e.receive nowNs msg).2.toList responses
  filled : (e.receive nowNs msg).1.ordersFilled =
    e.ordersFilled + UInt64.ofNat (filledIn responses)
  rejected : (e.receive nowNs msg).1.ordersRejected =
    e.ordersRejected + UInt64.ofNat (rejectedIn responses)

variable {msg : Json R} {items : List (Json R)} {responses : List (OrderResponse R)}

/-- The message is handled as the response of its first order. -/
theorem Batch.exists_first
    (h : Batch msg items responses) :
    ∃ first rest, responses = first :: rest ∧ orderResponseOf msg = some first := by
  obtain ⟨method, hmethod⟩ := h.method
  obtain ⟨result, hresult, hdata⟩ := h.data
  cases items with
  | nil =>
      exact absurd rfl h.nonempty
  | cons item items =>
      cases responses with
      | nil =>
          cases h.parsed
      | cons first rest =>
          have hparse : parsePayload item = .ok first := (List.cons.inj h.parsed).1
          have hpayload : orderPayload msg = some item := by
            simp [orderPayload, hresult, firstData, hdata, h.objects item (by simp)]
          have hkind : isOrderMessage msg = .ok true := by
            simp only [isOrderMessage, hmethod, Json.getString, bind, Except.bind, pure,
              Except.pure, h.update]
            split
            · rfl
            · rfl
          refine ⟨first, rest, rfl, ?_⟩
          simp [orderResponseOf, hkind, parseOrderResponse, bind, Except.bind, h.code, hpayload,
            hparse, Except.toOption]

/--
A message that lists pending orders is delivered in full exactly if it lists a
single order, and the callback of that order has not been moved out before.
-/
theorem delivers_batch_iff
    (e : OrderExecutor κ R) (nowNs : Int64)
    (hbatch : Batch msg items responses)
    (hpending : ∀ r ∈ responses, e.pendingOrders r.clientOrderId ≠ none) :
    DeliversBatch e nowNs msg responses ↔
      items.length = 1 ∧ ∀ r ∈ responses, e.pendingOrders r.clientOrderId ≠ some none := by
  obtain ⟨first, rest, rfl, hfirst⟩ := hbatch.exists_first
  have hlength : items.length = rest.length + 1 := by
    simpa using congrArg List.length hbatch.parsed
  obtain ⟨-, hcall⟩ := receive_response e nowNs hfirst
  constructor
  · rintro ⟨hdelivered, -, -⟩
    have hone := hdelivered.length_eq
    have hle : (e.receive nowNs msg).2.toList.length ≤ 1 := Option.length_toList_le
    rw [List.length_cons] at hone
    obtain rfl : rest = [] := by
      rw [← List.length_eq_zero_iff]
      omega
    refine ⟨by simpa using hlength, ?_⟩
    intro r hr hmoved
    obtain rfl : r = first := by simpa using hr
    -- nothing is called for an entry whose callback is gone
    simp [hcall, hmoved] at hone
  · rintro ⟨hone, hthere⟩
    obtain rfl : rest = [] := by
      rw [← List.length_eq_zero_iff]
      omega
    have hentry : ∃ k, e.pendingOrders first.clientOrderId = some (some k) := by
      cases hentry : e.pendingOrders first.clientOrderId with
      | none =>
          exact absurd hentry (hpending first (by simp))
      | some callback =>
          cases callback with
          | none =>
              exact absurd hentry (hthere first (by simp))
          | some k =>
              exact ⟨k, rfl⟩
    obtain ⟨k, hk⟩ := hentry
    refine ⟨?_, ?_, ?_⟩
    · rw [hcall, hk]
      exact .cons ⟨hk, rfl, rfl⟩ .nil
    · rw [receive_of_some hfirst]
      by_cases hstatus : first.status = .filled
      · simp [takeCallback, countResponse, hk, filledIn, hstatus]
      · simp [takeCallback, countResponse, hk, filledIn, hstatus]
    · rw [receive_of_some hfirst]
      by_cases hstatus : first.status = .rejected
      · simp [takeCallback, countResponse, hk, rejectedIn, hstatus]
      · simp [takeCallback, countResponse, hk, rejectedIn, hstatus]

/-- An order as an update lists it. -/
def listedOrder (clientOid status : String) : Json ℚ :=
  .object
    [("client_oid", .string (text clientOid)),
      ("status", .string (text status))]

/-- An update that lists several orders. -/
def batchedUpdate (items : List (Json ℚ)) : Json ℚ :=
  .object
    [("method", .string (text "subscribe")),
      ("code", .ofUInt64 0),
      ("result", .object
        [("channel", .string (text "user.order")),
          ("data", .array items)])]

/-- The response to a listed order. -/
def listedResponse (c : UInt64) (status : OrderStatus) : OrderResponse ℚ :=
  { OrderResponse.empty with clientOrderId := c, status := status }

theorem batch_batchedUpdate
    {items : List (Json ℚ)} {responses : List (OrderResponse ℚ)}
    (hnonempty : items ≠ [])
    (hobjects : ∀ item ∈ items, item.isObject = true)
    (hclientOids : ∀ item ∈ items, (item.find "client_oid").isSome)
    (hparsed : items.map parsePayload = responses.map .ok) :
    Batch (batchedUpdate items) items responses :=
  ⟨⟨_, rfl⟩, rfl, rfl, ⟨_, rfl, rfl⟩, hnonempty, hobjects, hclientOids, hparsed⟩

/-- The executor with the first two orders of a process. -/
def twoPending : OrderExecutor Unit ℚ :=
  ((create.start.submitTrade firstOrder (some ())).2.submitTrade
    (Trade.createLimitOrder 1 0 1 (text "BTC_USDT") .buy 1 100 .gtc .default).1 (some ())).2

theorem delivers_batch_iff_one_order :
    DeliversBatch twoPending 0 (batchedUpdate [listedOrder "1" "FILLED"])
      [listedResponse 1 .filled] :=
  (delivers_batch_iff twoPending 0
    (batch_batchedUpdate (by simp) (by decide) (by decide) (by rfl)) (by decide)).mpr
    ⟨rfl, by decide⟩

/-- Two orders filled in one message: only the first one is delivered and counted. -/
theorem second_of_batch_not_delivered :
    Batch (batchedUpdate [listedOrder "0" "FILLED", listedOrder "1" "FILLED"])
        [listedOrder "0" "FILLED", listedOrder "1" "FILLED"]
        [listedResponse 0 .filled, listedResponse 1 .filled] ∧
      (∀ r ∈ [listedResponse 0 .filled, listedResponse 1 .filled],
        twoPending.pendingOrders r.clientOrderId = some (some ())) ∧
      ¬ DeliversBatch twoPending 0
        (batchedUpdate [listedOrder "0" "FILLED", listedOrder "1" "FILLED"])
        [listedResponse 0 .filled, listedResponse 1 .filled] := by
  refine ⟨batch_batchedUpdate (by simp) (by decide) (by decide) (by rfl), by decide, ?_⟩
  intro h
  have hfilled := h.filled
  revert hfilled
  decide +kernel

end Batches

end OrderExecutor
end Core
end CryptoHft
