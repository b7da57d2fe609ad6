import CryptoHft.Exchange.FormatDouble
import CryptoHft.Types.Trade

/-!
# `build_create_order`

The request that enters an order.  The limit price is sent only for the types that
have one, and so is the trigger price; the numbers are texts of `format_double`.
Two orders with the same parameters agree in everything that the exchange is told,
except for what is beyond eight decimals.
-/

namespace CryptoHft
namespace Exchange

open Lib

/-- `order_type_to_string`. -/
def orderTypeToString : OrderType → Bytes
  | .limit => text "LIMIT"
  | .market => text "MARKET"
  | .stopLoss => text "STOP_LOSS"
  | .stopLimit => text "STOP_LIMIT"
  | .takeProfit => text "TAKE_PROFIT"
  | .takeProfitLimit => text "TAKE_PROFIT_LIMIT"

/-- `time_in_force_to_string`. -/
def timeInForceToString : TimeInForce → Bytes
  | .gtc => text "GOOD_TILL_CANCEL"
  | .ioc => text "IMMEDIATE_OR_CANCEL"
  | .fok => text "FILL_OR_KILL"
  | .gtd => text "GOOD_TILL_DATE"

/-- The order types whose requests carry a limit price. -/
def HasPrice (type : OrderType) : Prop :=
  type = .limit ∨ type = .stopLimit ∨ type = .takeProfitLimit

/-- The order types whose requests carry a trigger price. -/
def HasTrigger (type : OrderType) : Prop :=
  type = .stopLoss ∨ type = .stopLimit ∨ type = .takeProfit ∨ type = .takeProfitLimit

instance (type : OrderType) : Decidable (HasPrice type) :=
  inferInstanceAs (Decidable (_ ∨ _ ∨ _))

instance (type : OrderType) : Decidable (HasTrigger type) :=
  inferInstanceAs (Decidable (_ ∨ _ ∨ _ ∨ _))

/-- A member of an object, if `p` holds. -/
def memberIf {R : Type} (p : Prop) [Decidable p] (key : String) (value : Json R) :
    List (String × Json R) :=
  if p then [(key, value)] else []

namespace CryptoComMessageBuilder

/-- The parameters of the request. -/
def createOrderParams (trade : Trade Binary64) : Json Binary64 :=
  .object
    ([("instrument_name", .string trade.ticker.bytes),
        ("side", .string (if trade.side = .buy then text "BUY" else text "SELL")),
        ("type", .string (orderTypeToString trade.type)),
        ("quantity", .string (formatDouble trade.quantity)),
        ("client_oid", .string (decimal trade.clientOrderId.toNat))] ++
      memberIf (HasPrice trade.type) "price" (.string (formatDouble trade.price)) ++
      memberIf (HasTrigger trade.type) "trigger_price"
        (.string (formatDouble trade.triggerPrice)) ++
      [("time_in_force", .string (timeInForceToString trade.timeInForce))] ++
      memberIf (trade.execType = .postOnly) "exec_inst" (.array [.string (text "POST_ONLY")]))

/-- `build_create_order`, at the time `nonce` in milliseconds. -/
def buildCreateOrder (builder : CryptoComMessageBuilder Binary64) (nonce : UInt64)
    (trade : Trade Binary64) :
    Json Binary64 × CryptoComMessageBuilder Binary64 :=
  let (id, builder') := builder.nextId
  let method := text "private/create-order"
  let params := createOrderParams trade
  (.object
    [("id", .ofUInt64 id),
      ("method", .string method),
      ("params", params),
      ("sig", .string (builder.auth.sign method id params nonce)),
      ("nonce", .ofUInt64 nonce)],
    builder')

section Parameters

variable {R : Type}

theorem lookup_memberIf
    (p : Prop) [Decidable p]
    (key name : String)
    (value : Json R) :
    (memberIf p name value).lookup key = if p ∧ key = name then some value else none := by
  by_cases hp : p
  · by_cases hk : key = name
    · simp [memberIf, hp, hk]
    · have hbeq : (key == name) = false := beq_eq_false_iff_ne.mpr hk
      simp [memberIf, hp, hk, hbeq, List.lookup]
  · simp [memberIf, hp]

/-- The value of a member counts only if the member is there. -/
theorem memberIf_congr
    {R : Type} {p : Prop} [Decidable p] {key : String} {v w : Json R}
    (h : p → v = w) :
    memberIf p key v = memberIf p key w := by
  by_cases hp : p
  · rw [h hp]
  · rw [memberIf, memberIf, if_neg hp, if_neg hp]

theorem params_buildCreateOrder
    (builder : CryptoComMessageBuilder Binary64)
    (nonce : UInt64)
    (trade : Trade Binary64) :
    (builder.buildCreateOrder nonce trade).1.find "params" = some (createOrderParams trade) :=
  rfl

variable (trade : Trade Binary64)

theorem find_price :
    (createOrderParams trade).find "price" =
      if HasPrice trade.type then some (.string (formatDouble trade.price)) else none := by
  simp [createOrderParams, Json.find, List.lookup_append, lookup_memberIf, List.lookup]

theorem find_trigger_price :
    (createOrderParams trade).find "trigger_price" =
      if HasTrigger trade.type then some (.string (formatDouble trade.triggerPrice)) else none := by
  simp [createOrderParams, Json.find, List.lookup_append, lookup_memberIf, List.lookup]

theorem find_time_in_force :
    (createOrderParams trade).find "time_in_force" =
      some (.string (timeInForceToString trade.timeInForce)) := by
  simp [createOrderParams, Json.find, List.lookup_append, lookup_memberIf, List.lookup]

theorem find_exec_inst :
    (createOrderParams trade).find "exec_inst" =
      if trade.execType = .postOnly then some (.array [.string (text "POST_ONLY")]) else none := by
  simp [createOrderParams, Json.find, List.lookup_append, lookup_memberIf, List.lookup]

end Parameters

/-- The numbers of an order can be rendered without loss of a character. -/
structure NumbersFit (trade : Trade Binary64) : Prop where
  quantity : (renderFixed trade.quantity).length ≤ 31
  price : (renderFixed trade.price).length ≤ 31
  triggerPrice : (renderFixed trade.triggerPrice).length ≤ 31

/-- Two orders that are the same for the exchange. -/
structure SameOrder (t u : Trade Binary64) : Prop where
  clientOrderId : t.clientOrderId = u.clientOrderId
  ticker : t.ticker = u.ticker
  side : t.side = u.side
  type : t.type = u.type
  timeInForce : t.timeInForce = u.timeInForce
  execType : t.execType = u.execType
  quantity : renderFixed t.quantity = renderFixed u.quantity
  price : HasPrice t.type → renderFixed t.price = renderFixed u.price
  triggerPrice : HasTrigger t.type → renderFixed t.triggerPrice = renderFixed u.triggerPrice

theorem orderTypeToString_injective :
    Function.Injective orderTypeToString := by
  intro s t h
  cases s <;> cases t <;> first | rfl | exact absurd h (by decide)

theorem timeInForceToString_injective :
    Function.Injective timeInForceToString := by
  intro s t h
  cases s <;> cases t <;> first | rfl | exact absurd h (by decide)

theorem decimal_injective :
    Function.Injective decimal := by
  intro n m h
  rw [← digitsValue_decimal n, h, digitsValue_decimal]

/-- The parameters of a request tell orders apart up to eight decimals. -/
theorem createOrderParams_eq_iff
    {t u : Trade Binary64}
    (ht : NumbersFit t)
    (hu : NumbersFit u) :
    createOrderParams t = createOrderParams u ↔ SameOrder t u := by
  constructor
  · intro h
    have hfind : ∀ key, (createOrderParams t).find key = (createOrderParams u).find key :=
      fun key => by rw [h]
    have hname : t.ticker.bytes = u.ticker.bytes :=
      Json.string.inj (Option.some.inj (hfind "instrument_name"))
    have hside := Json.string.inj (Option.some.inj (hfind "side"))
    have htype : t.type = u.type :=
      orderTypeToString_injective (Json.string.inj (Option.some.inj (hfind "type")))
    have hquantity : formatDouble t.quantity = formatDouble u.quantity :=
      Json.string.inj (Option.some.inj (hfind "quantity"))
    have hid : t.clientOrderId.toNat = u.clientOrderId.toNat :=
      decimal_injective (Json.string.inj (Option.some.inj (hfind "client_oid")))
    have hprice := hfind "price"
    have htrigger := hfind "trigger_price"
    have htif := hfind "time_in_force"
    have hexec := hfind "exec_inst"
    rw [find_price, find_price, ← htype] at hprice
    rw [find_trigger_price, find_trigger_price, ← htype] at htrigger
    rw [find_time_in_force, find_time_in_force] at htif
    rw [find_exec_inst, find_exec_inst] at hexec
    refine ⟨UInt64.toNat_inj.mp hid, CString.ext hname, ?_, htype,
      timeInForceToString_injective (Json.string.inj (Option.some.inj htif)), ?_,
      (formatDouble_eq_iff ht.quantity hu.quantity).mp hquantity, ?_, ?_⟩
    · cases hs : t.side <;> cases hs' : u.side <;> rw [hs, hs'] at hside <;>
        first | rfl | exact absurd hside (by decide)
    · cases hs : t.execType <;> cases hs' : u.execType <;> simp [hs, hs'] at hexec <;> rfl
    · intro hhas
      rw [if_pos hhas, if_pos hhas] at hprice
      exact (formatDouble_eq_iff ht.price hu.price).mp (Json.string.inj (Option.some.inj hprice))
    · intro hhas
      rw [if_pos hhas, if_pos hhas] at htrigger
      exact (formatDouble_eq_iff ht.triggerPrice hu.triggerPrice).mp
        (Json.string.inj (Option.some.inj htrigger))
  · intro h
    have hquantity := (formatDouble_eq_iff ht.quantity hu.quantity).mpr h.quantity
    have hprice :
        memberIf (HasPrice t.type) "price" (.string (formatDouble t.price) : Json Binary64) =
          memberIf (HasPrice t.type) "price" (.string (formatDouble u.price)) := by
      refine memberIf_congr fun hhas => ?_
      rw [(formatDouble_eq_iff ht.price hu.price).mpr (h.price hhas)]
    have htrigger :
        memberIf (HasTrigger t.type) "trigger_price"
            (.string (formatDouble t.triggerPrice) : Json Binary64) =
          memberIf (HasTrigger t.type) "trigger_price" (.string (formatDouble u.triggerPrice)) := by
      refine memberIf_congr fun hhas => ?_
      rw [(formatDouble_eq_iff ht.triggerPrice hu.triggerPrice).mpr (h.triggerPrice hhas)]
    rw [createOrderParams, createOrderParams, hquantity, hprice, htrigger, h.clientOrderId,
      h.ticker, h.side, h.type, h.timeInForce]
    simp only [h.execType]

/-- A stop order, with a limit price that the request leaves out. -/
def stopOrder (price : Binary64) : Trade Binary64 where
  clientOrderId := 7
  strategyId := 1
  ticker := .copyString (text "BTC_USDT")
  side := .sell
  type := .stopLoss
  timeInForce := .gtc
  execType := .default
  quantity := .ofRat false (1 / 10)
  price := price
  triggerPrice := .ofRat false 100
  timestampNs := 5
  priority := 0

theorem createOrderParams_eq_iff_stop_orders :
    createOrderParams (stopOrder (.ofRat false 0)) = createOrderParams (stopOrder (.ofRat false 7)) ∧
      stopOrder (.ofRat false 0) ≠ stopOrder (.ofRat false 7) := by
  have hfits : ∀ q ∈ ([0, 7, 1 / 10, 100] : List ℚ),
      (renderFixed (.ofRat false q)).length ≤ 31 := by
    decide +kernel
  have hquantity := hfits (1 / 10) (by simp)
  have htrigger := hfits 100 (by simp)
  refine ⟨(createOrderParams_eq_iff ⟨hquantity, hfits 0 (by simp), htrigger⟩
    ⟨hquantity, hfits 7 (by simp), htrigger⟩).mpr ?_, ?_⟩
  · exact ⟨rfl, rfl, rfl, rfl, rfl, rfl, rfl, fun hhas => absurd hhas (by decide), fun _ => rfl⟩
  · intro heq
    have hprice := congrArg (fun trade => renderFixed trade.price) heq
    revert hprice
    decide +kernel

end CryptoComMessageBuilder

end Exchange
end CryptoHft
