import CryptoHft.Risk.ProfitAccounting
import CryptoHft.Lib.Runs

/-!
# What `check_order` depends on

After any sequence of calls of `set_limits`, `update_quote` and `on_fill` the decision
on an order is a function of three things: the limits that were set last, the mid price
of the last quote of the ticker, and the sum of the signed fills of the ticker.
`decision` is that function: the first of five objections that applies gives the reason.

In particular the calls that concern other tickers do not matter.
-/

namespace CryptoHft
namespace Risk

open Lib

/-- What `check_order` may object to, in the order of its tests. -/
inductive Objection
  | quantity
  | marketOrder
  | orderQuantity
  | orderNotional
  | netPosition

namespace Objection

def all : List Objection :=
  [.quantity, .marketOrder, .orderQuantity, .orderNotional, .netPosition]

def reason : Objection → Bytes
  | .quantity => text "quantity must be positive"
  | .marketOrder => text "market orders disabled"
  | .orderQuantity => text "order quantity exceeds limit"
  | .orderNotional => text "order notional exceeds limit"
  | .netPosition => text "net position exceeds limit"

/-- The value of an order at its own price, or else at the mid price. -/
def notional (mid : Option ℚ) (trade : Trade ℚ) : ℚ :=
  (if 0 < trade.price then trade.price else mid.getD 0) * trade.quantity

/-- A limit of zero or less is no limit. -/
def Exceeds (limit value : ℚ) : Prop :=
  0 < limit ∧ limit < value

instance (limit value : ℚ) : Decidable (Exceeds limit value) :=
  inferInstanceAs (Decidable (_ ∧ _))

def Applies (limits : RiskLimits) (mid : Option ℚ) (filled : ℚ) (trade : Trade ℚ) :
    Objection → Prop
  | .quantity => trade.quantity ≤ 0
  | .marketOrder => limits.allowMarketOrders = false ∧ trade.type = .market
  | .orderQuantity => Exceeds limits.maxOrderQuantity trade.quantity
  | .orderNotional => Exceeds limits.maxOrderNotional (notional mid trade)
  | .netPosition =>
      Exceeds limits.maxNetPositionAbs |filled + signedQuantity trade.side trade.quantity|

instance (limits : RiskLimits) (mid : Option ℚ) (filled : ℚ) (trade : Trade ℚ) :
    DecidablePred (Applies limits mid filled trade)
  | .quantity => inferInstanceAs (Decidable (_ ≤ _))
  | .marketOrder => inferInstanceAs (Decidable (_ ∧ _))
  | .orderQuantity => inferInstanceAs (Decidable (Exceeds _ _))
  | .orderNotional => inferInstanceAs (Decidable (Exceeds _ _))
  | .netPosition => inferInstanceAs (Decidable (Exceeds _ _))

end Objection

theorem map_find?_cons
    {α β : Type}
    (p : α → Prop) [DecidablePred p]
    (f : α → β)
    (a : α)
    (rest : List α)
    (b : β) :
    (((a :: rest).find? p).map f).getD b =
      if p a then f a else ((rest.find? p).map f).getD b := by
  by_cases h : p a <;> simp [h]

/-- The decision on an order: the first objection that applies. -/
def decision (limits : RiskLimits) (mid : Option ℚ) (filled : ℚ) (trade : Trade ℚ) :
    RiskDecision :=
  ((Objection.all.find? (Objection.Applies limits mid filled trade)).map
    (fun objection => .reject objection.reason)).getD .accept

namespace RiskManager

/-- The limits that a call sets. -/
def Call.limitsSet : Call → Option RiskLimits
  | .setLimits limits => some limits
  | .updateQuote _ => none
  | .onFill _ _ => none

/-- The mid price that a call quotes for a ticker. -/
def Call.midOf (ticker : Bytes) : Call → Option ℚ
  | .updateQuote quote =>
      if quote.ticker.bytes = ticker then some ((quote.bidPrice + quote.askPrice) / 2) else none
  | .setLimits _ => none
  | .onFill _ _ => none

/-- A call that sets limits, or is about the ticker. -/
def Call.concerns (ticker : Bytes) : Call → Bool
  | .setLimits _ => true
  | .updateQuote quote => quote.ticker.bytes = ticker
  | .onFill trade _ => trade.ticker.bytes = ticker

def lastLimits (limits : RiskLimits) (calls : List Call) : RiskLimits :=
  (calls.filterMap Call.limitsSet).getLast?.getD limits

def lastMid (ticker : Bytes) (calls : List Call) : Option ℚ :=
  (calls.filterMap (Call.midOf ticker)).getLast?

def netFilled (ticker : Bytes) (calls : List Call) : ℚ :=
  ((fillsOf ticker calls).map Prod.fst).sum

section History

variable (rm : RiskManager) (limits : RiskLimits) (calls : List Call)

/-- `on_fill` moves positions only. -/
theorem onFill_frame
    (trade : Trade ℚ) (response : OrderResponse ℚ) :
    (rm.onFill trade response).limits = rm.limits ∧
      (rm.onFill trade response).midPrices = rm.midPrices := by
  unfold onFill
  split <;> exact ⟨rfl, rfl⟩

theorem limits_apply (call : Call) :
    some (rm.apply call).limits = call.limitsSet.or (some rm.limits) := by
  cases call with
  | setLimits limits => rfl
  | updateQuote quote => rfl
  | onFill trade response =>
      show some (rm.onFill trade response).limits = some rm.limits
      rw [(rm.onFill_frame trade response).1]

theorem midPrices_apply (ticker : Bytes) (call : Call) :
    (rm.apply call).midPrices ticker = (call.midOf ticker).or (rm.midPrices ticker) := by
  cases call with
  | setLimits limits => rfl
  | updateQuote quote =>
      show Function.update rm.midPrices _ _ ticker = _
      by_cases hticker : quote.ticker.bytes = ticker
      · subst hticker
        simp [Call.midOf]
      · simp [Call.midOf, hticker, Function.update_of_ne (Ne.symm hticker)]
  | onFill trade response =>
      show (rm.onFill trade response).midPrices ticker = rm.midPrices ticker
      rw [(rm.onFill_frame trade response).2]

theorem limits_run :
    ((create limits).run calls).limits = lastLimits limits calls := by
  have hview := view_foldl (fun rm => some rm.limits) limits_apply (create limits) calls
  rw [lastLimits, ← Option.some_inj]
  refine hview.trans ?_
  cases (calls.filterMap Call.limitsSet).getLast? <;> rfl

theorem midPrices_run (ticker : Bytes) :
    ((create limits).run calls).midPrices ticker = lastMid ticker calls := by
  have hview := view_foldl (fun rm => rm.midPrices ticker)
    (fun rm => midPrices_apply rm ticker) (create limits) calls
  exact hview.trans (Option.or_none)

theorem netQuantity_run (ticker : Bytes) :
    (((create limits).run calls).position ticker).netQuantity = netFilled ticker calls :=
  (balanced_run limits ticker calls).net

theorem checkOrder_eq_decision (trade : Trade ℚ) :
    rm.checkOrder trade = decision rm.limits (rm.midPrices trade.ticker.bytes)
      (rm.position trade.ticker.bytes).netQuantity trade := by
  unfold checkOrder decision Objection.all
  simp only [map_find?_cons, List.find?_nil]
  rfl

end History

section Concerns

variable (ticker : Bytes) (calls : List Call)

/-- What a selection of the calls does not see, the history does not have. -/
theorem filterMap_filter_concerns
    {β : Type}
    {f : Call → Option β}
    (hf : ∀ call, call.concerns ticker = false → f call = none) :
    (calls.filter (Call.concerns ticker)).filterMap f = calls.filterMap f := by
  induction calls with
  | nil =>
      rfl
  | cons call rest ih =>
      cases hcall : call.concerns ticker with
      | true =>
          rw [List.filter_cons_of_pos hcall, List.filterMap_cons, List.filterMap_cons, ih]
      | false =>
          rw [List.filter_cons_of_neg (by simp [hcall]), List.filterMap_cons_none (hf call hcall),
            ih]

theorem limitsSet_of_not_concerns
    {call : Call}
    (h : call.concerns ticker = false) :
    call.limitsSet = none := by
  cases call with
  | setLimits limits => cases h
  | updateQuote | onFill => rfl

theorem midOf_of_not_concerns
    {call : Call}
    (h : call.concerns ticker = false) :
    call.midOf ticker = none := by
  cases call with
  | updateQuote quote => exact if_neg (by simpa [Call.concerns] using h)
  | setLimits | onFill => rfl

theorem fillOf_of_not_concerns
    {call : Call}
    (h : call.concerns ticker = false) :
    call.fillOf ticker = none := by
  cases call with
  | onFill trade response =>
      exact if_neg fun hboth => by simp [Call.concerns, hboth.2] at h
  | setLimits | updateQuote => rfl

end Concerns

/--
After any sequence of calls the decision is that of the last limits, the mid price of the
ticker's last quote and the sum of the ticker's fills; the calls about other tickers can be
left out.
-/
theorem check_order_of_history
    (limits : RiskLimits) (calls : List Call) (trade : Trade ℚ) :
    ((create limits).run calls).checkOrder trade =
        decision (lastLimits limits calls) (lastMid trade.ticker.bytes calls)
          (netFilled trade.ticker.bytes calls) trade ∧
      ((create limits).run (calls.filter (Call.concerns trade.ticker.bytes))).checkOrder trade =
        ((create limits).run calls).checkOrder trade := by
  have hdecision : ∀ calls : List Call, ((create limits).run calls).checkOrder trade =
      decision (lastLimits limits calls) (lastMid trade.ticker.bytes calls)
        (netFilled trade.ticker.bytes calls) trade := by
    intro calls
    rw [checkOrder_eq_decision, limits_run, midPrices_run, netQuantity_run]
  refine ⟨hdecision calls, ?_⟩
  rw [hdecision, hdecision, lastLimits, lastMid, netFilled, fillsOf,
    filterMap_filter_concerns _ _ fun call => limitsSet_of_not_concerns _,
    filterMap_filter_concerns _ _ fun call => midOf_of_not_concerns _,
    filterMap_filter_concerns _ _ fun call => fillOf_of_not_concerns _]
  rfl

end RiskManager

end Risk
end CryptoHft
