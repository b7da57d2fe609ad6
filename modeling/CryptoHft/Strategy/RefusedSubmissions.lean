import CryptoHft.Core.ExecutionLoop
import CryptoHft.Risk.RiskCheckedSink
import CryptoHft.Strategy.LiveOrderExecutorSink

/-!
# Refused submissions in the live stack

`RiskCheckedExecutionSink` over `LiveOrderExecutorSink` over `OrderExecutor`, as
a live session wires them.  The risk sink remembers an order in
`submitted_trades_` and the executor registers its callback in `pending_orders_`
before the step below can refuse the order, and neither takes it back.

A call of `submit_trade` and the handling of a message are one step each; the
strategy's callback runs at the end of both, so what it calls in turn is a later
step.  The steps of the execution loop, of `start` and `stop` and of the
connection come in between.  `log` records the orders for which `submit_trade`
returned true and the terminal responses of the exchange.

`refused_leave_no_trace_iff` says in which runs a refused submission leaves no
trace and the two maps hold open orders only.
-/

namespace CryptoHft
namespace Strategy

open Lib Storage Exchange Risk

/-- The callback registered with the executor: what the two lambdas have captured. -/
structure CapturedCallback (χ φ : Type) where
  responseCallback : Option χ
  storageFailureCallback : Option φ
deriving DecidableEq

/-- What happens to an order, in the order of time. -/
inductive OrderRecord
  | accepted (trade : Trade ℚ)
  | ended (clientOrderId : UInt64)

/-- The orders that were accepted and have had no terminal response since. -/
def openOrders (log : List OrderRecord) : List (Trade ℚ) :=
  log.foldl
    (fun orders record =>
      match record with
      | .accepted trade => orders ++ [trade]
      | .ended c => orders.filter (fun trade => trade.clientOrderId ≠ c))
    []

theorem mem_openOrders_accepted
    {log : List OrderRecord} {trade order : Trade ℚ} :
    order ∈ openOrders (log ++ [.accepted trade]) ↔ order ∈ openOrders log ∨ order = trade := by
  simp [openOrders]

theorem mem_openOrders_ended
    {log : List OrderRecord} {c : UInt64} {order : Trade ℚ} :
    order ∈ openOrders (log ++ [.ended c]) ↔
      order ∈ openOrders log ∧ order.clientOrderId ≠ c := by
  simp [openOrders]

/-- The three components, with the calls made to strategies and the record of orders. -/
structure LiveStack (σ χ φ : Type) where
  risk : RiskCheckedExecutionSink
  live : LiveOrderExecutorSink σ φ
  running : Core.RunningExecutor Empty (CapturedCallback χ φ) ℚ
  strategyCalls : List (χ × OrderResponse ℚ)
  log : List OrderRecord

inductive LiveStackAction (χ φ : Type)
  | submitTrade (trade : Trade ℚ) (callback : CapturedCallback χ φ) (eventNs now : Int64)
  | message (nowNs : Int64) (msg : Json ℚ) (eventNs now : Int64)
  | updateQuote (quote : QuoteUpdate ℚ)
  | setLimits (limits : RiskLimits)
  | executor (a : Core.ExecutorAction Empty (CapturedCallback χ φ) ℚ)

namespace LiveStack

section Steps

variable {σ χ φ : Type}

def create (limits : RiskLimits) (storage : Option σ) : LiveStack σ χ φ where
  risk := .create limits
  live := .create storage
  running := .create
  strategyCalls := []
  log := []

def pendingOrders (s : LiveStack σ χ φ) : UInt64 → Option (Option (CapturedCallback χ φ)) :=
  s.running.executor.pendingOrders

def submittedTrades (s : LiveStack σ χ φ) : UInt64 → Option (Trade ℚ) :=
  s.risk.submittedTrades

/-- The call of a strategy's callback, if it gave one. -/
def callStrategy (s : LiveStack σ χ φ) (responseCallback : Option χ)
    (response : OrderResponse ℚ) : LiveStack σ χ φ :=
  { s with
    strategyCalls := s.strategyCalls ++ (responseCallback.map (fun k => (k, response))).toList }

variable [IStorage σ ℚ]

/-- `submit_trade` of the risk sink, with all that it calls. -/
def submitTrade (s : LiveStack σ χ φ) (trade : Trade ℚ) (callback : CapturedCallback χ φ)
    (eventNs now : Int64) : Bool × LiveStack σ χ φ :=
  match s.risk.submitTrade trade with
  | (risk, some refusal) =>
      (false, { s with risk := risk }.callStrategy callback.responseCallback refusal)
  | (risk, none) =>
      let (submitted, executor) := s.running.executor.submitTrade trade (some callback)
      let s := { s with
        risk := risk
        running := { s.running with executor := executor } }
      if submitted then
        (true, { s with
          live := s.live.recordSubmission trade eventNs now
          running := { s.running with accepted := s.running.accepted ++ [trade] }
          log := s.log ++ [.accepted trade] })
      else (false, s)

/-- The callback of the live sink, and the one of the risk sink inside it. -/
def respond (s : LiveStack σ χ φ) (callback : CapturedCallback χ φ)
    (response : OrderResponse ℚ) (eventNs now : Int64) : LiveStack σ χ φ :=
  { s with
    live := s.live.recordResponse response callback.storageFailureCallback eventNs now
    risk := s.risk.onResponse response }.callStrategy callback.responseCallback response

/-- The terminal response of a message, for the record. -/
def endedBy (msg : Json ℚ) : List OrderRecord :=
  match Core.OrderExecutor.orderResponseOf msg with
  | none => []
  | some response =>
      if response.status.isTerminal then [.ended response.clientOrderId] else []

/-- A message of the exchange, handled by the executor. -/
def receive (s : LiveStack σ χ φ) (nowNs : Int64) (msg : Json ℚ) (eventNs now : Int64) :
    LiveStack σ χ φ :=
  let (executor, invocation) := s.running.executor.receive nowNs msg
  let s := { s with
    running := { s.running with executor := executor }
    log := s.log ++ endedBy msg }
  match invocation with
  | none => s
  | some i => s.respond i.callback i.response eventNs now

def step (s : LiveStack σ χ φ) : LiveStackAction χ φ → Option (LiveStack σ χ φ)
  | .submitTrade trade callback eventNs now => some (s.submitTrade trade callback eventNs now).2
  | .message nowNs msg eventNs now => some (s.receive nowNs msg eventNs now)
  | .updateQuote quote => some { s with risk := s.risk.updateQuote quote }
  | .setLimits limits =>
      some { s with
        risk := { s.risk with riskManager := s.risk.riskManager.setLimits limits } }
  | .executor a => (s.running.step a).map (fun running => { s with running := running })

/-- A call of `submit_trade` that returns false leaves both maps as they were. -/
def NoTrace (s : LiveStack σ χ φ) : LiveStackAction χ φ → Prop
  | .submitTrade trade callback eventNs now =>
      (s.submitTrade trade callback eventNs now).1 = false →
        (s.submitTrade trade callback eventNs now).2.pendingOrders = s.pendingOrders ∧
          (s.submitTrade trade callback eventNs now).2.submittedTrades = s.submittedTrades
  | _ => True

/-- Both maps hold only orders that were accepted and have had no terminal response. -/
structure OnlyOpen (s : LiveStack σ χ φ) : Prop where
  pending : ∀ c, s.pendingOrders c ≠ none →
    ∃ order ∈ openOrders s.log, order.clientOrderId = c
  submitted : ∀ c order, s.submittedTrades c = some order →
    order ∈ openOrders s.log ∧ order.clientOrderId = c

/-- `submit_trade` of the executor will take the order. -/
def HasRoom (s : LiveStack σ χ φ) : Prop :=
  s.running.executor.running = true ∧
    s.running.executor.tradeQueue.length < Core.OrderExecutor.queueCapacity

/--
An order passes the risk check only while the executor takes it, or while the maps
hold just this order already; and no terminal response finds the callback of its
order moved out.
-/
def LeavesNoTrace (s : LiveStack σ χ φ) : LiveStackAction χ φ → Prop
  | .submitTrade trade callback _ _ =>
      (s.risk.riskManager.checkOrder trade).accepted = false ∨ s.HasRoom ∨
        (s.submittedTrades trade.clientOrderId = some trade ∧
          (s.running.executor.running = true →
            s.pendingOrders trade.clientOrderId = some (some callback)))
  | .message _ msg _ _ =>
      ∀ response, Core.OrderExecutor.orderResponseOf msg = some response →
        response.status.isTerminal = true →
          s.pendingOrders response.clientOrderId ≠ some none
  | _ => True

end Steps

section Spec

variable {σ χ φ : Type} [IStorage σ ℚ] {s : LiveStack σ χ φ} {trade : Trade ℚ}
variable (callback : CapturedCallback χ φ) (eventNs now : Int64)

theorem submitTrade_of_refused
    (h : (s.risk.riskManager.checkOrder trade).accepted = false) :
    (s.submitTrade trade callback eventNs now).1 = false ∧
      (s.submitTrade trade callback eventNs now).2.pendingOrders = s.pendingOrders ∧
      (s.submitTrade trade callback eventNs now).2.submittedTrades = s.submittedTrades ∧
      (s.submitTrade trade callback eventNs now).2.log = s.log := by
  simp [submitTrade, RiskCheckedExecutionSink.submitTrade, h, callStrategy, pendingOrders,
    submittedTrades]

/-- What an order that passes the risk check does to the maps, taken or not. -/
theorem submitTrade_of_accepted
    (h : (s.risk.riskManager.checkOrder trade).accepted = true) :
    ((s.submitTrade trade callback eventNs now).1 = true ↔ s.HasRoom) ∧
      (s.submitTrade trade callback eventNs now).2.pendingOrders =
        (if s.running.executor.running then
          Function.update s.pendingOrders trade.clientOrderId (some (some callback))
        else s.pendingOrders) ∧
      (s.submitTrade trade callback eventNs now).2.submittedTrades =
        Function.update s.submittedTrades trade.clientOrderId (some trade) ∧
      (s.submitTrade trade callback eventNs now).2.log =
        s.log ++ if (s.submitTrade trade callback eventNs now).1 then [.accepted trade] else [] := by
  have htaken := Core.OrderExecutor.submitTrade_eq_true_iff s.running.executor trade (some callback)
  have hpending := s.running.executor.pendingOrders_submitTrade_some trade callback
  have hrisk : s.risk.submitTrade trade =
      ({ s.risk with
        submittedTrades :=
          Function.update s.risk.submittedTrades trade.clientOrderId (some trade) }, none) := by
    simp [RiskCheckedExecutionSink.submitTrade, h]
  cases htake : (s.running.executor.submitTrade trade (some callback)).1 with
  | false =>
      have hroom : ¬ s.HasRoom := by
        intro hroom
        rw [htaken.mpr hroom] at htake
        cases htake
      simp [submitTrade, hrisk, htake, hroom, pendingOrders, submittedTrades, hpending]
  | true =>
      have hroom : s.HasRoom := htaken.mp htake
      simp [submitTrade, hrisk, htake, hroom, pendingOrders, submittedTrades, hpending]

/-- A message that is no order response. -/
theorem receive_of_none
    {msg : Json ℚ} (nowNs : Int64)
    (h : Core.OrderExecutor.orderResponseOf msg = none) :
    s.receive nowNs msg eventNs now = s := by
  simp [receive, Core.OrderExecutor.receive_of_none h, endedBy, h]

/-- What a response does to the maps and the record. -/
theorem receive_of_some
    {msg : Json ℚ} {response : OrderResponse ℚ} (nowNs : Int64)
    (h : Core.OrderExecutor.orderResponseOf msg = some response) :
    (s.receive nowNs msg eventNs now).pendingOrders =
        Function.update s.pendingOrders response.clientOrderId
          (Core.OrderExecutor.entryAfter (s.pendingOrders response.clientOrderId) response) ∧
      (s.receive nowNs msg eventNs now).submittedTrades =
        (if (s.pendingOrders response.clientOrderId).join.isSome ∧
            response.status.isTerminal = true then
          Function.update s.submittedTrades response.clientOrderId none
        else s.submittedTrades) ∧
      (s.receive nowNs msg eventNs now).log =
        s.log ++ if response.status.isTerminal then [.ended response.clientOrderId] else [] := by
  obtain ⟨hpending, hcall⟩ :=
    Core.OrderExecutor.receive_response s.running.executor nowNs h
  cases hjoin : (s.running.executor.pendingOrders response.clientOrderId).join with
  | none =>
      rw [hjoin, Option.map_none] at hcall
      simp [receive, hcall, pendingOrders, submittedTrades, hpending, hjoin, endedBy, h]
  | some k =>
      rw [hjoin, Option.map_some] at hcall
      simp [receive, hcall, pendingOrders, submittedTrades, hpending, hjoin, endedBy, h, respond,
        callStrategy, RiskCheckedExecutionSink.submittedTrades_onResponse]

end Spec

section Invariant

variable {σ χ φ : Type} {s t : LiveStack σ χ φ}

/-- No step of the threads of the executor touches the pending orders. -/
theorem pendingOrders_running_step
    {e e' : Core.RunningExecutor Empty (CapturedCallback χ φ) ℚ}
    {a : Core.ExecutorAction Empty (CapturedCallback χ φ) ℚ}
    (h : e.step a = some e') :
    e'.executor.pendingOrders = e.executor.pendingOrders := by
  cases a with
  | start =>
      simp only [Core.RunningExecutor.step] at h
      split at h
      · cases h
        rfl
      · cases h
  | stop | setAuthenticated =>
      cases h
      rfl
  | callSubmit i | submit i =>
      exact i.elim
  | loop ms unpublished =>
      exact Core.RunningExecutor.pendingOrders_loopStep h

/-- The two maps hold the same client order ids, all of open orders. -/
structure Inv (s : LiveStack σ χ φ) : Prop where
  onlyOpen : s.OnlyOpen
  matched : ∀ c, s.submittedTrades c ≠ none ↔ s.pendingOrders c ≠ none

theorem inv_create
    (limits : RiskLimits) (storage : Option σ) :
    Inv (create limits storage : LiveStack σ χ φ) := by
  refine ⟨⟨?_, ?_⟩, ?_⟩
  · intro c h
    exact absurd rfl h
  · intro c order h
    cases h
  · intro c
    exact iff_of_false (fun h => h rfl) (fun h => h rfl)

/-- A step that opens and closes no entry. -/
theorem Inv.of_keys
    (h : Inv s)
    (hpending : ∀ c, t.pendingOrders c ≠ none ↔ s.pendingOrders c ≠ none)
    (hsubmitted : t.submittedTrades = s.submittedTrades)
    (hlog : t.log = s.log) :
    Inv t := by
  refine ⟨⟨?_, ?_⟩, ?_⟩
  · intro c hc
    rw [hlog]
    exact h.onlyOpen.pending c ((hpending c).mp hc)
  · rw [hsubmitted, hlog]
    exact h.onlyOpen.submitted
  · intro c
    rw [hpending, hsubmitted]
    exact h.matched c

/-- An accepted order enters both maps. -/
theorem Inv.accept
    (h : Inv s)
    {trade : Trade ℚ} {callback : CapturedCallback χ φ}
    (hpending : t.pendingOrders =
      Function.update s.pendingOrders trade.clientOrderId (some (some callback)))
    (hsubmitted : t.submittedTrades =
      Function.update s.submittedTrades trade.clientOrderId (some trade))
    (hlog : t.log = s.log ++ [.accepted trade]) :
    Inv t := by
  refine ⟨⟨?_, ?_⟩, ?_⟩
  · intro c hc
    rw [hlog]
    by_cases hid : c = trade.clientOrderId
    · exact ⟨trade, mem_openOrders_accepted.mpr (.inr rfl), hid.symm⟩
    · rw [hpending, Function.update_of_ne hid] at hc
      obtain ⟨order, horder, hc⟩ := h.onlyOpen.pending c hc
      exact ⟨order, mem_openOrders_accepted.mpr (.inl horder), hc⟩
  · intro c order hc
    rw [hlog]
    by_cases hid : c = trade.clientOrderId
    · rw [hsubmitted, hid, Function.update_self, Option.some.injEq] at hc
      subst hc
      exact ⟨mem_openOrders_accepted.mpr (.inr rfl), hid.symm⟩
    · rw [hsubmitted, Function.update_of_ne hid] at hc
      obtain ⟨horder, hc⟩ := h.onlyOpen.submitted c order hc
      exact ⟨mem_openOrders_accepted.mpr (.inl horder), hc⟩
  · intro c
    rw [hpending, hsubmitted]
    by_cases hid : c = trade.clientOrderId
    · simp [hid]
    · rw [Function.update_of_ne hid, Function.update_of_ne hid]
      exact h.matched c

/-- A terminal response takes its order out of both maps. -/
theorem Inv.finish
    (h : Inv s)
    {c : UInt64}
    (hpending : t.pendingOrders = Function.update s.pendingOrders c none)
    (hsubmitted : t.submittedTrades = Function.update s.submittedTrades c none)
    (hlog : t.log = s.log ++ [.ended c]) :
    Inv t := by
  refine ⟨⟨?_, ?_⟩, ?_⟩
  · intro d hd
    rw [hlog]
    by_cases hdc : d = c
    · simp [hpending, hdc] at hd
    · rw [hpending, Function.update_of_ne hdc] at hd
      obtain ⟨order, horder, rfl⟩ := h.onlyOpen.pending d hd
      exact ⟨order, mem_openOrders_ended.mpr ⟨horder, hdc⟩, rfl⟩
  · intro d order hd
    rw [hlog]
    by_cases hdc : d = c
    · simp [hsubmitted, hdc] at hd
    · rw [hsubmitted, Function.update_of_ne hdc] at hd
      obtain ⟨horder, rfl⟩ := h.onlyOpen.submitted d order hd
      exact ⟨mem_openOrders_ended.mpr ⟨horder, hdc⟩, rfl⟩
  · intro d
    rw [hpending, hsubmitted]
    by_cases hdc : d = c
    · simp [hdc]
    · rw [Function.update_of_ne hdc, Function.update_of_ne hdc]
      exact h.matched d

variable [IStorage σ ℚ]

/-- A response that finds no callback moved out if it is terminal. -/
theorem Inv.receive
    (h : Inv s)
    {msg : Json ℚ} {nowNs eventNs now : Int64}
    (hclean : s.LeavesNoTrace (.message nowNs msg eventNs now)) :
    Inv (s.receive nowNs msg eventNs now) := by
  cases hresponse : Core.OrderExecutor.orderResponseOf msg with
  | none =>
      rw [receive_of_none eventNs now nowNs hresponse]
      exact h
  | some response =>
      obtain ⟨hpending, hsubmitted, hlog⟩ :=
        receive_of_some (s := s) eventNs now nowNs hresponse
      by_cases hterminal : response.status.isTerminal = true
      · have hmoved := hclean response hresponse hterminal
        have hmatched := h.matched response.clientOrderId
        rw [if_pos hterminal] at hlog
        cases hentry : s.pendingOrders response.clientOrderId with
        | none =>
            have hnone : s.submittedTrades response.clientOrderId = none := by
              by_contra hne
              exact hmatched.mp hne hentry
            refine h.finish ?_ ?_ hlog
            · rw [hpending, hentry]
              rfl
            · rw [hsubmitted, hentry, ← hnone, Function.update_eq_self]
              simp
        | some entry =>
            cases entry with
            | none =>
                exact absurd hentry hmoved
            | some k =>
                refine h.finish ?_ ?_ hlog
                · simp [hpending, hentry, Core.OrderExecutor.entryAfter, hterminal]
                · simp [hsubmitted, hentry, hterminal]
      · refine h.of_keys ?_ ?_ ?_
        · intro c
          rw [hpending]
          by_cases hc : c = response.clientOrderId
          · subst hc
            cases hentry : s.pendingOrders response.clientOrderId with
            | none =>
                simp [Core.OrderExecutor.entryAfter]
            | some entry =>
                simp [Core.OrderExecutor.entryAfter, hterminal]
          · rw [Function.update_of_ne hc]
        · simp [hsubmitted, hterminal]
        · simp [hlog, hterminal]

/-- A terminal response to an order without its callback leaves the order behind. -/
theorem Inv.leavesNoTrace_of_onlyOpen
    (h : Inv s)
    {msg : Json ℚ} {nowNs eventNs now : Int64}
    (hopen : (s.receive nowNs msg eventNs now).OnlyOpen) :
    s.LeavesNoTrace (.message nowNs msg eventNs now) := by
  intro response hresponse hterminal hmoved
  obtain ⟨-, hsubmitted, hlog⟩ := receive_of_some (s := s) eventNs now nowNs hresponse
  have hne : s.submittedTrades response.clientOrderId ≠ none :=
    (h.matched response.clientOrderId).mpr (by simp [hmoved])
  obtain ⟨order, horder⟩ := Option.ne_none_iff_exists'.mp hne
  rw [if_neg (by simp [hmoved])] at hsubmitted
  obtain ⟨hmem, hid⟩ := hopen.submitted response.clientOrderId order (by rw [hsubmitted, horder])
  rw [hlog, if_pos hterminal] at hmem
  exact (mem_openOrders_ended.mp hmem).2 hid

/-- A clean submission that is refused changes neither map. -/
theorem noTrace_submitTrade_iff
    {trade : Trade ℚ} {callback : CapturedCallback χ φ} {eventNs now : Int64} :
    s.NoTrace (.submitTrade trade callback eventNs now) ↔
      s.LeavesNoTrace (.submitTrade trade callback eventNs now) := by
  cases haccepted : (s.risk.riskManager.checkOrder trade).accepted with
  | false =>
      obtain ⟨-, hpending, hsubmitted, -⟩ :=
        submitTrade_of_refused callback eventNs now haccepted
      exact iff_of_true (fun _ => ⟨hpending, hsubmitted⟩) (.inl haccepted)
  | true =>
      obtain ⟨htaken, hpending, hsubmitted, -⟩ :=
        submitTrade_of_accepted callback eventNs now haccepted
      simp only [NoTrace, LeavesNoTrace, haccepted, Bool.true_eq_false, false_or, hpending,
        hsubmitted, Function.update_eq_self_iff]
      by_cases hroom : s.HasRoom
      · simp [hroom, htaken.mpr hroom]
      · have hfalse : (s.submitTrade trade callback eventNs now).1 = false := by
          rw [← Bool.not_eq_true, htaken]
          exact hroom
        simp only [hfalse, hroom, forall_const, false_or]
        cases hrunning : s.running.executor.running with
        | false =>
            simp [eq_comm]
        | true =>
            simp [eq_comm, and_comm]

/-- One step that meets the condition. -/
theorem Inv.step
    (h : Inv s)
    {a : LiveStackAction χ φ}
    (ha : s.step a = some t)
    (hclean : s.LeavesNoTrace a) :
    s.NoTrace a ∧ Inv t := by
  cases a with
  | submitTrade trade callback eventNs now =>
      obtain rfl : (s.submitTrade trade callback eventNs now).2 = t := Option.some.inj ha
      have hno := noTrace_submitTrade_iff.mpr hclean
      refine ⟨hno, ?_⟩
      cases haccepted : (s.risk.riskManager.checkOrder trade).accepted with
      | false =>
          obtain ⟨-, hpending, hsubmitted, hlog⟩ :=
            submitTrade_of_refused callback eventNs now haccepted
          exact h.of_keys (fun c => by rw [hpending]) hsubmitted hlog
      | true =>
          obtain ⟨htaken, hpending, hsubmitted, hlog⟩ :=
            submitTrade_of_accepted callback eventNs now haccepted
          cases hresult : (s.submitTrade trade callback eventNs now).1 with
          | false =>
              obtain ⟨hpending', hsubmitted'⟩ := hno hresult
              rw [hresult, if_neg Bool.false_ne_true, List.append_nil] at hlog
              exact h.of_keys (fun c => by rw [hpending']) hsubmitted' hlog
          | true =>
              rw [if_pos (htaken.mp hresult).1] at hpending
              rw [if_pos hresult] at hlog
              exact h.accept hpending hsubmitted hlog
  | message nowNs msg eventNs now =>
      obtain rfl : s.receive nowNs msg eventNs now = t := Option.some.inj ha
      exact ⟨trivial, h.receive hclean⟩
  | updateQuote quote | setLimits limits =>
      cases ha
      exact ⟨trivial, h.of_keys (fun _ => Iff.rfl) rfl rfl⟩
  | executor a =>
      obtain ⟨running, hrunning, rfl⟩ := Option.map_eq_some_iff.mp ha
      have hpending := pendingOrders_running_step hrunning
      refine ⟨trivial, h.of_keys ?_ rfl rfl⟩
      intro c
      rw [pendingOrders, hpending]
      rfl

/--
In every run of the stack: a submission that is refused changes neither map and
both maps hold open orders only, at every moment, exactly if every order that
passes the risk check is taken by the executor, or is held by both maps already,
and no terminal response comes after the callback of its order was moved out.
-/
theorem refused_leave_no_trace_iff
    {limits : RiskLimits} {storage : Option σ}
    {trace : List (LiveStack σ χ φ × LiveStackAction χ φ)}
    (hrun : Execution (Steps step) (create limits storage) trace s) :
    ((∀ p ∈ trace, p.1.OnlyOpen ∧ p.1.NoTrace p.2) ∧ s.OnlyOpen) ↔
      ∀ p ∈ trace, p.1.LeavesNoTrace p.2 := by
  refine hrun.forall_steps_iff (inv_create limits storage) (fun _ h => h.onlyOpen) ?_ ?_
  · intro s a t h ha hclean
    exact h.step ha hclean
  · intro s a t h ha hno hopen
    cases a with
    | submitTrade trade callback eventNs now =>
        exact noTrace_submitTrade_iff.mp hno
    | message nowNs msg eventNs now =>
        obtain rfl : s.receive nowNs msg eventNs now = t := Option.some.inj ha
        exact h.leavesNoTrace_of_onlyOpen hopen
    | updateQuote | setLimits | executor =>
        trivial

end Invariant

section Sessions

/-- A stack without limits and storage. -/
def unlimited : LiveStack (InMemoryStorage ℚ) Unit Unit :=
  create .unlimited none

instance (s : LiveStack (InMemoryStorage ℚ) Unit Unit) (a : LiveStackAction Unit Unit) :
    Decidable (s.LeavesNoTrace a) :=
  match a with
  | .submitTrade trade callback _ _ =>
      inferInstanceAs (Decidable ((s.risk.riskManager.checkOrder trade).accepted = false ∨
        (s.running.executor.running = true ∧
          s.running.executor.tradeQueue.length < Core.OrderExecutor.queueCapacity) ∨
        (s.submittedTrades trade.clientOrderId = some trade ∧
          (s.running.executor.running = true →
            s.pendingOrders trade.clientOrderId = some (some callback)))))
  | .message _ msg _ _ =>
      match h : Core.OrderExecutor.orderResponseOf msg with
      | none => isTrue (by simp [LeavesNoTrace, h])
      | some response =>
          decidable_of_iff
            (response.status.isTerminal = true →
              s.pendingOrders response.clientOrderId ≠ some none)
            (by simp [LeavesNoTrace, h])
  | .updateQuote _ | .setLimits _ | .executor _ => isTrue trivial

/-- An order is filled, and one without a quantity is refused by the risk check. -/
theorem refused_leave_no_trace_filled_and_refused :
    ∃ (trace : List (LiveStack (InMemoryStorage ℚ) Unit Unit × LiveStackAction Unit Unit))
      (s : LiveStack (InMemoryStorage ℚ) Unit Unit),
      Execution (Steps step) (create .unlimited none) trace s ∧ s.strategyCalls.length = 2 ∧
        (∀ p ∈ trace, p.1.OnlyOpen ∧ p.1.NoTrace p.2) ∧ s.OnlyOpen := by
  have hrun : (runActions (guardActions step LeavesNoTrace) unlimited
      [.executor .start, .submitTrade Core.firstOrder ⟨some (), none⟩ 1 1,
        .message 2 (userOrderUpdate (text "0") (text "FILLED") (text "1")) 2 2,
        .submitTrade { Core.firstOrder with quantity := 0 } ⟨some (), none⟩ 3 3]).map
          (fun s => s.strategyCalls.length) = some 2 := by
    decide +kernel
  obtain ⟨trace, s, hexec, hclean, hview⟩ :=
    Execution.exists_of_guardActions _ Execution.init (by simp) hrun
  exact ⟨trace, s, hexec, hview, (refused_leave_no_trace_iff hexec).mpr hclean⟩

/-- An order that is submitted while the executor has not been started. -/
theorem stopped_executor_leaves_trace :
    ∃ s : LiveStack (InMemoryStorage ℚ) Unit Unit, Reachable (Steps step) unlimited s ∧
      (unlimited.submitTrade Core.firstOrder ⟨some (), none⟩ 0 0).1 = false ∧
      ¬ unlimited.NoTrace (.submitTrade Core.firstOrder ⟨some (), none⟩ 0 0) ∧
      ¬ s.OnlyOpen := by
  have hresult : (unlimited.submitTrade Core.firstOrder ⟨some (), none⟩ 0 0).1 = false := by
    decide +kernel
  have hsubmitted :
      (unlimited.submitTrade Core.firstOrder ⟨some (), none⟩ 0 0).2.submittedTrades 0 =
        some Core.firstOrder := by
    decide +kernel
  refine ⟨_, Reachable.init.tail (a := .submitTrade Core.firstOrder ⟨some (), none⟩ 0 0) rfl,
    hresult, ?_, ?_⟩
  · intro hno
    rw [(hno hresult).2] at hsubmitted
    cases hsubmitted
  · intro hopen
    have hmem := (hopen.submitted 0 Core.firstOrder hsubmitted).1
    revert hmem
    decide +kernel

end Sessions

end LiveStack

end Strategy
end CryptoHft
