import CryptoHft.Core.ResponseDelivery

/-!
# Which order a message is attributed to

`handle_message` looks up the pending order under the client order id that the
parser found.  The parser gives zero for everything it cannot read, and reads
texts leniently, so a message can be attributed to an order whose id it does not
carry.  `Misattributed` lists these messages, and `misattributed_iff` says that
the list is complete.

A message is attributed correctly exactly if it is none of these, or the order it
is attributed to has nothing left to lose: it is not pending, or its callback has
been moved out already and the message does not end it.
-/

namespace CryptoHft
namespace Core
namespace OrderExecutor

open Lib Exchange

section ClientOid

variable {R : Type} {c : UInt64}

/-- The client order ids that the parser turns into zero. -/
def Unreadable : Json R → Prop
  | .integer i => i.val < 0
  | .string s => stoull s = none
  | _ => True

/-- An integer is misread exactly if it is negative. -/
theorem misread_integer_iff
    {i : JsonInt} :
    (jsonToU64 (.integer i : Json R) = c ∧ ¬ IsClientOid (.integer i : Json R) c) ↔
      c = 0 ∧ i.val < 0 := by
  have hupper := i.upper
  constructor
  · rintro ⟨rfl, hno⟩
    by_cases hpos : 0 < i.val
    · have hread : (jsonToU64 (.integer i : Json R)).toNat = i.val.toNat := by
        simp only [jsonToU64, if_pos hpos, UInt64.toNat_ofNat']
        omega
      exfalso
      apply hno
      show i.val = (jsonToU64 (.integer i : Json R)).toNat
      omega
    · have hread : jsonToU64 (.integer i : Json R) = 0 := if_neg hpos
      refine ⟨hread, ?_⟩
      rcases (not_lt.mp hpos).lt_or_eq with hneg | hzero
      · exact hneg
      · exfalso
        apply hno
        rw [hread]
        exact hzero
  · rintro ⟨rfl, hneg⟩
    refine ⟨if_neg (not_lt.mpr hneg.le), ?_⟩
    intro hzero
    have : i.val = 0 := hzero
    omega

/-- A text is misread if it is no number, or another text of the number. -/
theorem misread_string_iff
    {s : Bytes} :
    (jsonToU64 (.string s : Json R) = c ∧ ¬ IsClientOid (.string s : Json R) c) ↔
      (c = 0 ∧ stoull s = none) ∨ (stoull s = some c ∧ s ≠ decimal c.toNat) := by
  cases hread : stoull s with
  | none =>
      simp only [jsonToU64, hread, Option.getD_none, IsClientOid, and_true, reduceCtorEq,
        false_and, or_false]
      constructor
      · rintro ⟨rfl, -⟩
        rfl
      · rintro rfl
        refine ⟨rfl, ?_⟩
        rintro rfl
        rw [stoull_decimal] at hread
        cases hread
  | some v =>
      simp [jsonToU64, hread, IsClientOid]

/-- The client order ids that are read as an order id they are not. -/
theorem misread_iff
    {oid : Json R} :
    (jsonToU64 oid = c ∧ ¬ IsClientOid oid c) ↔
      (c = 0 ∧ Unreadable oid) ∨
        ∃ s, oid = .string s ∧ stoull s = some c ∧ s ≠ decimal c.toNat := by
  cases oid with
  | integer i =>
      simp [misread_integer_iff, Unreadable]
  | string s =>
      simp [misread_string_iff, Unreadable]
  | null | bool | float | array | object =>
      simp [jsonToU64, IsClientOid, Unreadable, eq_comm]

end ClientOid

section Attribution

variable {κ R : Type} [Double R]

/-- The messages that are attributed to an order whose id they do not carry. -/
inductive Misattributed (msg : Json R) : UInt64 → Prop
  | errorReply {code : Int32}
      (hcode : responseCode msg = .ok code)
      (hne : code ≠ 0)
      (hzero : ¬ Carries msg 0) :
      Misattributed msg 0
  | noPayload
      (hcode : responseCode msg = .ok 0)
      (hpayload : orderPayload msg = none) :
      Misattributed msg 0
  | noClientOid {res : Json R}
      (hcode : responseCode msg = .ok 0)
      (hpayload : orderPayload msg = some res)
      (hoid : res.find "client_oid" = none) :
      Misattributed msg 0
  | unreadable {res oid : Json R}
      (hcode : responseCode msg = .ok 0)
      (hpayload : orderPayload msg = some res)
      (hoid : res.find "client_oid" = some oid)
      (hread : Unreadable oid) :
      Misattributed msg 0
  | lenient {res : Json R} {s : Bytes} {c : UInt64}
      (hcode : responseCode msg = .ok 0)
      (hpayload : orderPayload msg = some res)
      (hoid : res.find "client_oid" = some (.string s))
      (hread : stoull s = some c)
      (htext : s ≠ decimal c.toNat) :
      Misattributed msg c

/-- The messages that end an order: error replies and terminal status texts. -/
def EndsOrder (msg : Json R) : Prop :=
  (∃ code, responseCode msg = .ok code ∧ code ≠ 0) ∨
    (responseCode msg = .ok 0 ∧ ∃ res s, orderPayload msg = some res ∧
      res.find "status" = some (.string s) ∧ isTerminalText s = true)

variable {msg : Json R} {response : OrderResponse R} {c : UInt64}

/-- The error branch attributes to order zero, whatever the payload is. -/
theorem misattributed_iff_of_error
    {code : Int32}
    (hcode : responseCode msg = .ok code)
    (hne : code ≠ 0) :
    Misattributed msg c ↔ 0 = c ∧ ¬ Carries msg c := by
  constructor
  · intro hm
    cases hm with
    | errorReply _ _ hzero =>
        exact ⟨rfl, hzero⟩
    | noPayload hcode' _ | noClientOid hcode' _ _ | unreadable hcode' _ _ _
    | lenient hcode' _ _ _ _ =>
        rw [hcode, Except.ok.injEq] at hcode'
        exact absurd hcode' hne
  · rintro ⟨rfl, hno⟩
    exact .errorReply hcode hne hno

theorem misattributed_iff_of_client_oid
    {res oid : Json R}
    (hcode : responseCode msg = .ok 0)
    (hpayload : orderPayload msg = some res)
    (hoid : res.find "client_oid" = some oid) :
    Misattributed msg c ↔ jsonToU64 oid = c ∧ ¬ Carries msg c := by
  rw [carries_iff hpayload hoid, misread_iff]
  constructor
  · intro hm
    cases hm with
    | errorReply hcode' hne _ =>
        rw [hcode, Except.ok.injEq] at hcode'
        exact absurd hcode'.symm hne
    | noPayload _ hpayload' =>
        rw [hpayload] at hpayload'
        cases hpayload'
    | noClientOid _ hpayload' hoid' =>
        rw [hpayload, Option.some.injEq] at hpayload'
        subst hpayload'
        rw [hoid] at hoid'
        cases hoid'
    | unreadable _ hpayload' hoid' hread =>
        rw [hpayload, Option.some.injEq] at hpayload'
        subst hpayload'
        rw [hoid, Option.some.injEq] at hoid'
        subst hoid'
        exact Or.inl ⟨rfl, hread⟩
    | lenient _ hpayload' hoid' hread htext =>
        rw [hpayload, Option.some.injEq] at hpayload'
        subst hpayload'
        rw [hoid, Option.some.injEq] at hoid'
        exact Or.inr ⟨_, hoid', hread, htext⟩
  · rintro (⟨rfl, hread⟩ | ⟨s, rfl, hread, htext⟩)
    · exact .unreadable hcode hpayload hoid hread
    · exact .lenient hcode hpayload hoid hread htext

/-- Without an error and a client order id, a message is attributed to order zero. -/
theorem misattributed_iff_of_no_client_oid
    (hcode : responseCode msg = .ok 0)
    (hno : ∀ res, orderPayload msg = some res → res.find "client_oid" = none) :
    Misattributed msg c ↔ 0 = c ∧ ¬ Carries msg c := by
  have hcarries : ¬ Carries msg c := not_carries hno
  constructor
  · intro hm
    refine ⟨?_, hcarries⟩
    cases hm with
    | errorReply _ _ _ | noPayload _ _ | noClientOid _ _ _ | unreadable _ _ _ _ =>
        rfl
    | lenient _ hpayload hoid _ _ =>
        rw [hno _ hpayload] at hoid
        cases hoid
  · rintro ⟨rfl, -⟩
    cases hpayload : orderPayload msg with
    | none =>
        exact .noPayload hcode hpayload
    | some res =>
        exact .noClientOid hcode hpayload (hno res hpayload)

/-- The list is complete, and every message of it is attributed as it says. -/
theorem misattributed_iff
    (h : parseOrderResponse msg = .ok response) :
    Misattributed msg c ↔ response.clientOrderId = c ∧ ¬ Carries msg c := by
  rcases parseOrderResponse_eq_ok h with
    ⟨code, hcode, hne, herror⟩ | ⟨hcode, res, hpayload, hparse⟩ | ⟨hcode, hpayload, rfl⟩
  · rw [(errorResponse_eq_ok herror).1]
    exact misattributed_iff_of_error hcode hne
  · rw [(parsePayload_eq_ok hparse).1]
    cases hoid : res.find "client_oid" with
    | none =>
        refine misattributed_iff_of_no_client_oid hcode ?_
        intro res' hpayload'
        rw [hpayload, Option.some.injEq] at hpayload'
        rw [← hpayload', hoid]
    | some oid =>
        exact misattributed_iff_of_client_oid hcode hpayload hoid
  · refine misattributed_iff_of_no_client_oid hcode ?_
    intro res hpayload'
    rw [hpayload] at hpayload'
    cases hpayload'

/-- The response is terminal exactly if the message ends its order. -/
theorem isTerminal_iff
    (h : parseOrderResponse msg = .ok response) :
    response.status.isTerminal = true ↔ EndsOrder msg := by
  rcases parseOrderResponse_eq_ok h with
    ⟨code, hcode, hne, herror⟩ | ⟨hcode, res, hpayload, hparse⟩ | ⟨hcode, hpayload, rfl⟩
  · rw [(errorResponse_eq_ok herror).2.2]
    exact ⟨fun _ => Or.inl ⟨code, hcode, hne⟩, fun _ => rfl⟩
  · have hends : EndsOrder msg ↔
        ∃ s, res.find "status" = some (.string s) ∧ isTerminalText s = true := by
      simp [EndsOrder, hcode, hpayload]
    rw [hends]
    exact isTerminal_payloadStatus (parsePayload_eq_ok hparse).2.2
  · simp [EndsOrder, hcode, hpayload, OrderResponse.empty, OrderStatus.isTerminal]

/-- The message invokes the callback of the entry `c`. -/
def Invokes (e : OrderExecutor κ R) (nowNs : Int64) (msg : Json R) (c : UInt64) : Prop :=
  ∃ i, (e.receive nowNs msg).2 = some i ∧ i.entry = c

/-- The message erases the entry `c`. -/
def Erases (e : OrderExecutor κ R) (nowNs : Int64) (msg : Json R) (c : UInt64) : Prop :=
  e.pendingOrders c ≠ none ∧ (e.receive nowNs msg).1.pendingOrders c = none

/--
The message reaches only the order whose id it carries; if that is no pending
order, it invokes nothing and leaves the pending orders alone.
-/
structure AttributedCorrectly (e : OrderExecutor κ R) (nowNs : Int64) (msg : Json R) :
    Prop where
  carries : ∀ c, e.Invokes nowNs msg c ∨ e.Erases nowNs msg c → Carries msg c
  unchanged : (∀ c, Carries msg c → e.pendingOrders c = none) →
    (e.receive nowNs msg).2 = none ∧
      (e.receive nowNs msg).1.pendingOrders = e.pendingOrders

/-- The order has nothing left that a message could take. -/
def NothingToLose (e : OrderExecutor κ R) (msg : Json R) (c : UInt64) : Prop :=
  e.pendingOrders c = none ∨ (e.pendingOrders c = some none ∧ ¬ EndsOrder msg)

variable {e : OrderExecutor κ R} {nowNs : Int64}

/-- A response reaches its order, or the order has nothing to lose. -/
theorem reaches_iff
    (h : orderResponseOf msg = some response) :
    (e.Invokes nowNs msg c ∨ e.Erases nowNs msg c) ↔
      response.clientOrderId = c ∧ ¬ e.NothingToLose msg c := by
  obtain ⟨hpending, hcall⟩ := receive_response e nowNs h
  have hterminal := isTerminal_iff (parse_of_orderResponseOf h).2
  unfold Invokes Erases NothingToLose
  rw [hpending, hcall]
  by_cases hc : response.clientOrderId = c
  · subst hc
    cases hentry : e.pendingOrders response.clientOrderId with
    | none =>
        simp
    | some callback =>
        cases callback with
        | none =>
            simp [entryAfter, ← hterminal]
        | some k =>
            simp [entryAfter]
  · constructor
    · rintro (⟨i, hi, rfl⟩ | ⟨hsome, hnone⟩)
      · obtain ⟨k, -, rfl⟩ := Option.map_eq_some_iff.mp hi
        exact absurd rfl hc
      · rw [Function.update_of_ne (Ne.symm hc)] at hnone
        exact absurd hnone hsome
    · rintro ⟨hid, -⟩
      exact absurd hid hc

/-- A response to an order with nothing to lose changes nothing. -/
theorem receive_of_nothingToLose
    (h : orderResponseOf msg = some response)
    (hlose : e.NothingToLose msg response.clientOrderId) :
    (e.receive nowNs msg).2 = none ∧
      (e.receive nowNs msg).1.pendingOrders = e.pendingOrders := by
  obtain ⟨hpending, hcall⟩ := receive_response e nowNs h
  have hterminal := isTerminal_iff (parse_of_orderResponseOf h).2
  have hsame : entryAfter (e.pendingOrders response.clientOrderId) response =
        e.pendingOrders response.clientOrderId ∧
      (e.pendingOrders response.clientOrderId).join = none := by
    rcases hlose with hentry | ⟨hentry, hends⟩
    · rw [hentry]
      exact ⟨rfl, rfl⟩
    · rw [← hterminal] at hends
      rw [hentry]
      exact ⟨if_neg hends, rfl⟩
  rw [hpending, hcall, hsame.1, hsame.2, Function.update_eq_self]
  exact ⟨rfl, rfl⟩

/--
A message is attributed correctly exactly if every order that it is wrongly
attributed to has nothing to lose.
-/
theorem attributed_correctly_iff
    (e : OrderExecutor κ R) (nowNs : Int64) (msg : Json R) :
    e.AttributedCorrectly nowNs msg ↔
      ((orderResponseOf msg).isSome → ∀ c, Misattributed msg c → e.NothingToLose msg c) := by
  cases hresponse : orderResponseOf msg with
  | none =>
      have hsame : e.receive nowNs msg = (e, none) := receive_of_none hresponse
      simp only [Option.isSome_none, Bool.false_eq_true, false_implies, iff_true]
      refine ⟨?_, ?_⟩
      · rintro c (⟨i, hi, -⟩ | ⟨hsome, hnone⟩)
        · rw [hsame] at hi
          cases hi
        · rw [hsame] at hnone
          exact absurd hnone hsome
      · intro _
        rw [hsame]
        exact ⟨rfl, rfl⟩
  | some response =>
      have hmis := fun c => misattributed_iff (c := c) (parse_of_orderResponseOf hresponse).2
      simp only [Option.isSome_some, true_implies]
      constructor
      · intro h c hm
        obtain ⟨hid, hno⟩ := (hmis c).mp hm
        by_contra hlose
        exact hno (h.carries c ((reaches_iff hresponse).mpr ⟨hid, hlose⟩))
      · intro h
        refine ⟨?_, ?_⟩
        · intro c hreach
          obtain ⟨hid, hlose⟩ := (reaches_iff hresponse).mp hreach
          by_contra hno
          exact hlose (h c ((hmis c).mpr ⟨hid, hno⟩))
        · intro hcarried
          refine receive_of_nothingToLose hresponse ?_
          by_cases hc : Carries msg response.clientOrderId
          · exact Or.inl (hcarried _ hc)
          · exact h _ ((hmis _).mpr ⟨rfl, hc⟩)

end Attribution

section ErrorReply

/-- The reply of the exchange to a refused order. -/
def refusedReply : Json ℚ :=
  .object
    [("method", .string (text "private/create-order")),
      ("code", .integer ⟨306, by decide, by decide⟩),
      ("message", .string (text "INSUFFICIENT_AVAILABLE_BALANCE"))]

/-- The error reply to another order is delivered to the first order of the process. -/
theorem error_reply_reaches_first_order :
    ((create : OrderExecutor Unit ℚ).start.submitTrade firstOrder (some ())).1 = true ∧
      ¬ AttributedCorrectly
        ((create : OrderExecutor Unit ℚ).start.submitTrade firstOrder (some ())).2
        0 refusedReply := by
  refine ⟨rfl, ?_⟩
  intro h
  obtain ⟨res, oid, hpayload, -⟩ := h.carries 0 (Or.inl ⟨_, rfl, rfl⟩)
  have hnone : orderPayload refusedReply = none := rfl
  rw [hnone] at hpayload
  cases hpayload

end ErrorReply

end OrderExecutor
end Core
end CryptoHft
