import CryptoHft.Storage.PagedReplay

/-!
# The storage replay driver

`StorageReplayDriver::run` of `include/strategy/storage_replay_driver.hpp`: the
events of a log are handed to a `StrategyManager`.  A submission enters the order
into a map from client order ids to strategies, and a response is routed to the
strategy that the map has for its id.

The driver's effect on the manager is the list of the calls it makes.  `std::get`
throws if a payload does not have the kind of the event's type; the run then has
no result.  The stores accept no such event.
-/

namespace CryptoHft
namespace Strategy

open Storage

/-- The calls of `StrategyManager` that the driver makes. -/
inductive ManagerCall (R : Type)
  | dispatchOrderResponse (strategyId : UInt32) (response : OrderResponse R)
  | replayTrade (tradeEvent : TradeEvent R)
  | replayQuote (quote : QuoteUpdate R)
deriving DecidableEq

structure ReplayStats where
  eventsProcessed : UInt64
  responsesRouted : UInt64
  unmatchedResponses : UInt64
deriving DecidableEq

namespace StorageReplayDriver

/-- The variables of `run`, with the calls made so far. -/
structure State (R : Type) where
  stats : ReplayStats
  orderToStrategy : UInt64 → Option UInt32
  calls : List (ManagerCall R)

section Run

variable {R : Type}

def State.initial : State R where
  stats := ⟨0, 0, 0⟩
  orderToStrategy := fun _ => none
  calls := []

/-- One turn of the inner loop. -/
def processEvent (s : State R) (event : StorageEvent R) : Option (State R) :=
  let stats := { s.stats with eventsProcessed := s.stats.eventsProcessed + 1 }
  match event.type, event.payload with
  | .tradeSubmitted, .trade trade =>
      some { s with
        stats := stats
        orderToStrategy := Function.update s.orderToStrategy trade.clientOrderId
          (some trade.strategyId) }
  | .orderResponse, .orderResponse response =>
      match s.orderToStrategy response.clientOrderId with
      | none =>
          some { s with
            stats := { stats with unmatchedResponses := stats.unmatchedResponses + 1 } }
      | some strategyId =>
          some { s with
            stats := { stats with responsesRouted := stats.responsesRouted + 1 }
            calls := s.calls ++ [.dispatchOrderResponse strategyId response] }
  | .marketTrade, .tradeEvent tradeEvent =>
      some { s with stats := stats, calls := s.calls ++ [.replayTrade tradeEvent] }
  | .quoteUpdate, .quoteUpdate quote =>
      some { s with stats := stats, calls := s.calls ++ [.replayQuote quote] }
  | _, _ => none

/-- The driver has entered an order into its map. -/
def State.enter (s : State R) (trade : Trade R) : State R :=
  { s with
    stats := { s.stats with eventsProcessed := s.stats.eventsProcessed + 1 }
    orderToStrategy := Function.update s.orderToStrategy trade.clientOrderId
      (some trade.strategyId) }

/-- The driver has routed a response to a strategy. -/
def State.route (s : State R) (strategyId : UInt32) (response : OrderResponse R) : State R :=
  { s with
    stats := { s.stats with
      eventsProcessed := s.stats.eventsProcessed + 1
      responsesRouted := s.stats.responsesRouted + 1 }
    calls := s.calls ++ [.dispatchOrderResponse strategyId response] }

/-- The driver has handed market data to the manager. -/
def State.replay (s : State R) (call : ManagerCall R) : State R :=
  { s with
    stats := { s.stats with eventsProcessed := s.stats.eventsProcessed + 1 }
    calls := s.calls ++ [call] }

theorem processEvent_trade (s : State R) (offset : UInt64) (eventNs : Int64) (trade : Trade R) :
    processEvent s ⟨offset, eventNs, .tradeSubmitted, .trade trade⟩ = some (s.enter trade) :=
  rfl

theorem processEvent_response
    {s : State R} {response : OrderResponse R} {strategyId : UInt32}
    (h : s.orderToStrategy response.clientOrderId = some strategyId)
    (offset : UInt64) (eventNs : Int64) :
    processEvent s ⟨offset, eventNs, .orderResponse, .orderResponse response⟩ =
      some (s.route strategyId response) := by
  simp only [processEvent, h]
  rfl

/-- The inner loop. -/
def processEvents (s : Option (State R)) (events : List (StorageEvent R)) : Option (State R) :=
  events.foldl (fun s event => s.bind (fun s => processEvent s event)) s

/-- `run`, with at most `fuel` fetches. -/
def run (replay : ReplayRequest → ReplayBatch R) (fuel : Nat) (request : ReplayRequest) :
    Option (State R) :=
  (drive (fun _ => replay) (fun s batch => processEvents s batch.events) fuel 0 request
    (some .initial)).join

/-- The result of a run over a whole log. -/
def replayed (events : List (StorageEvent R)) : Option (State R) :=
  processEvents (some .initial) events

theorem replayed_append_singleton
    {events : List (StorageEvent R)} {s : State R}
    (h : replayed events = some s) (event : StorageEvent R) :
    replayed (events ++ [event]) = processEvent s event := by
  rw [replayed, processEvents] at h ⊢
  rw [List.foldl_append, h]
  rfl

/-- Without filters a run with any page size processes the whole log, once and in order. -/
theorem run_all
    {log : List (StorageEvent R × Int64)}
    (h : log.length < 2 ^ 64)
    (pageSize : Nat)
    {fuel : Nat}
    (hfuel : log.length < fuel) :
    run (replayEvents (stampFrom 0 log)) fuel { ReplayRequest.all with maxEvents := pageSize } =
      replayed (stampFrom 0 log) := by
  rw [run]
  exact congrArg Option.join (drive_all h pageSize hfuel _ _)

end Run

section Logging

variable {R : Type}

/-- A storage that is open, and what the driver makes of its events. -/
structure Logged (storage : Option (InMemoryStorage R)) (r : State R) : Prop where
  replays : ∃ store, storage = some store ∧ store.closed = false ∧ store.Inv ∧
    replayed store.events = some r

/-- Logging an event is one more turn of the driver's loop. -/
theorem Logged.append
    {storage : Option (InMemoryStorage R)} {r r' : State R} {event : StorageEvent R}
    (h : Logged storage r)
    (htype : payloadMatchesType event = true)
    (hevent : processEvent r event = some r')
    (now : Int64) :
    Logged (appended storage event now) r' := by
  obtain ⟨store, rfl, hopen, hinv, hreplayed⟩ := h.replays
  refine ⟨(store.append event now).2, rfl, ?_, (hinv.call (.append event now)).1, ?_⟩
  · rw [InMemoryStorage.append_of_open hopen htype]
    exact hopen
  · rw [InMemoryStorage.append_of_open hopen htype]
    exact (replayed_append_singleton hreplayed _).trans hevent

/-- The driver processes every event that a storage accepts. -/
theorem exists_processEvent
    {event : StorageEvent R}
    (htype : payloadMatchesType event = true) (s : State R) :
    ∃ s', processEvent s event = some s' := by
  obtain ⟨offset, eventNs, type, payload⟩ := event
  cases type <;> cases payload <;> try cases htype
  case orderResponse.orderResponse response =>
    cases hfound : s.orderToStrategy response.clientOrderId with
    | none =>
        simp [processEvent, hfound]
    | some strategyId =>
        exact ⟨_, processEvent_response hfound offset eventNs⟩
  all_goals
    exact ⟨_, rfl⟩

/-- An open storage takes an event of the right kind to the end of its log. -/
theorem Logged.append_event
    {store : InMemoryStorage R} {r : State R}
    (h : Logged (some store) r)
    (event : StorageEvent R)
    (htype : payloadMatchesType event = true)
    (now : Int64) :
    ∃ store' r', appended (some store) event now = some store' ∧
      store'.events = store.events ++ [stamp store.nextOffset now event] ∧
      Logged (some store') r' := by
  obtain ⟨r', hprocess⟩ := exists_processEvent htype r
  refine ⟨(store.append event now).2, r', rfl, ?_, h.append htype hprocess now⟩
  obtain ⟨_, hstore, hopen, -⟩ := h.replays
  cases hstore
  rw [InMemoryStorage.append_of_open hopen htype]

/-- A run over the log of a storage gives what the driver makes of its events. -/
theorem Logged.run_eq
    {store : InMemoryStorage R} {r : State R}
    (h : Logged (some store) r)
    (hcount : store.events.length < 2 ^ 64)
    (pageSize : Nat)
    {fuel : Nat}
    (hfuel : store.events.length < fuel) :
    run store.replay fuel { ReplayRequest.all with maxEvents := pageSize } = some r := by
  obtain ⟨store, hstore, -, hstamped, hreplayed⟩ := h.replays
  cases hstore
  obtain ⟨log, hevents, -⟩ := hstamped.stamped
  have hreplay : store.replay = replayEvents (stampFrom 0 log) := by
    funext request
    rw [InMemoryStorage.replay, hevents]
  rw [hevents, length_stampFrom] at hcount hfuel
  rw [hreplay, run_all hcount pageSize hfuel, ← hevents, hreplayed]

/-- A submission is logged, and the driver enters it into its map. -/
theorem logged_submission
    {trades : List (Trade R)} {trade : Trade R}
    (hdistinct : ((trades ++ [trade]).map Trade.clientOrderId).Nodup)
    {storage : Option (InMemoryStorage R)} {r : State R}
    (hlogged : Logged storage r)
    (htrades : ∀ trade ∈ trades, r.orderToStrategy trade.clientOrderId = some trade.strategyId)
    (eventNs now : Int64) :
    ∃ r', Logged (appended storage
        ⟨0, eventNs, .tradeSubmitted, .trade trade⟩ now) r' ∧
      r'.stats.unmatchedResponses = r.stats.unmatchedResponses ∧ r'.calls = r.calls ∧
      ∀ other ∈ trades ++ [trade],
        r'.orderToStrategy other.clientOrderId = some other.strategyId := by
  refine ⟨r.enter trade, hlogged.append rfl (processEvent_trade r 0 eventNs trade) now, rfl, rfl,
    ?_⟩
  intro other hother
  rcases List.mem_append.mp hother with hother | hother
  · have hne : other.clientOrderId ≠ trade.clientOrderId := by
      rw [List.map_append, List.nodup_append] at hdistinct
      exact hdistinct.2.2 _ (List.mem_map_of_mem hother) _ (by simp)
    exact (Function.update_of_ne hne _ _).trans (htrades other hother)
  · rw [List.mem_singleton.mp hother]
    exact Function.update_self _ _ _

end Logging

section CausalOrder

variable {R : Type}

/-- A log has a submission under a client order id. -/
def Submitted (events : List (StorageEvent R)) (clientOrderId : UInt64) : Prop :=
  ∃ event ∈ events, ∃ trade, event.payload = .trade trade ∧ trade.clientOrderId = clientOrderId

/-- Every response of a log comes after a submission under its client order id. -/
def CausallyOrdered (events : List (StorageEvent R)) : Prop :=
  ∀ front event rest, events = front ++ event :: rest →
    ∀ response, event.payload = .orderResponse response →
      Submitted front response.clientOrderId

theorem submitted_concat
    {front : List (StorageEvent R)} {event : StorageEvent R} {clientOrderId : UInt64} :
    Submitted (front ++ [event]) clientOrderId ↔
      Submitted front clientOrderId ∨
        ∃ trade, event.payload = .trade trade ∧ trade.clientOrderId = clientOrderId := by
  simp only [Submitted, List.mem_append, List.mem_singleton, or_and_right, exists_or,
    exists_eq_left]

theorem causallyOrdered_concat
    {front : List (StorageEvent R)} {event : StorageEvent R} :
    CausallyOrdered (front ++ [event]) ↔
      CausallyOrdered front ∧
        ∀ response, event.payload = .orderResponse response →
          Submitted front response.clientOrderId := by
  constructor
  · intro h
    refine ⟨?_, h front event [] rfl⟩
    intro before e rest heq
    exact h before e (rest ++ [event]) (by simp [heq])
  · rintro ⟨hfront, hevent⟩ before e rest heq
    rcases List.eq_nil_or_concat rest with rfl | ⟨rest, last, rfl⟩
    · obtain ⟨rfl, hlast⟩ := List.append_inj' heq rfl
      cases hlast
      exact hevent
    · rw [List.concat_eq_append, ← List.cons_append, ← List.append_assoc] at heq
      exact hfront before e rest (List.append_inj' heq rfl).1

/-- What one turn of the inner loop can do. -/
theorem processEvent_cases
    {s s' : State R} {event : StorageEvent R}
    (h : processEvent s event = some s') :
    (∃ trade, event.payload = .trade trade ∧ s' = s.enter trade) ∨
      (∃ response, event.payload = .orderResponse response ∧
        (s.orderToStrategy response.clientOrderId = none ∨
          ∃ strategyId, s' = s.route strategyId response) ∧
        s'.orderToStrategy = s.orderToStrategy) ∨
      ((∀ trade, event.payload ≠ .trade trade) ∧ ∃ call, s' = s.replay call) := by
  obtain ⟨offset, eventNs, type, payload⟩ := event
  cases type <;> cases payload <;> try cases h
  case tradeSubmitted.trade trade =>
    exact .inl ⟨trade, rfl, rfl⟩
  case orderResponse.orderResponse response =>
    refine .inr (.inl ⟨response, rfl, ?_⟩)
    cases hfound : s.orderToStrategy response.clientOrderId with
    | none =>
        simp only [processEvent, hfound, Option.some.injEq] at h
        exact ⟨.inl rfl, by rw [← h]⟩
    | some strategyId =>
        rw [processEvent_response hfound, Option.some.injEq] at h
        exact ⟨.inr ⟨strategyId, h.symm⟩, by rw [← h]; rfl⟩
  case marketTrade.tradeEvent tradeEvent =>
    exact .inr (.inr ⟨by simp, .replayTrade tradeEvent, rfl⟩)
  case quoteUpdate.quoteUpdate quote =>
    exact .inr (.inr ⟨by simp, .replayQuote quote, rfl⟩)

/--
The map of the driver has the orders whose submissions are in the log, and in a
causally ordered log it has them in time.
-/
theorem replayed_spec
    {events : List (StorageEvent R)} {r : State R}
    (h : replayed events = some r) :
    (∀ id, (r.orderToStrategy id).isSome ↔ Submitted events id) ∧
      (CausallyOrdered events → r.stats.unmatchedResponses = 0) := by
  induction events using List.reverseRecOn generalizing r with
  | nil =>
      cases h
      exact ⟨by simp [State.initial, Submitted], fun _ => rfl⟩
  | append_singleton front event ih =>
      obtain ⟨r₀, hfront, hevent⟩ : ∃ r₀, replayed front = some r₀ ∧
          processEvent r₀ event = some r := by
        rw [replayed, processEvents, List.foldl_append] at h
        exact Option.bind_eq_some_iff.mp h
      obtain ⟨hmap, hunmatched⟩ := ih hfront
      rw [causallyOrdered_concat]
      simp only [submitted_concat]
      rcases processEvent_cases hevent with
        ⟨trade, hpayload, rfl⟩ | ⟨response, hpayload, hrouted, hsame⟩ | ⟨hother, call, rfl⟩
      · constructor
        · intro id
          by_cases hid : id = trade.clientOrderId
          · simp [State.enter, hid, hpayload]
          · have hne : trade.clientOrderId ≠ id := fun heq => hid heq.symm
            simp [State.enter, hid, hpayload, hmap, hne]
        · exact fun hcausal => hunmatched hcausal.1
      · constructor
        · intro id
          rw [hsame, hmap]
          simp [hpayload]
        · rintro ⟨hcausal, hsubmitted⟩
          rcases hrouted with hnone | ⟨strategyId, rfl⟩
          · have hsome := (hmap _).mpr (hsubmitted response hpayload)
            rw [hnone] at hsome
            cases hsome
          · exact hunmatched hcausal
      · constructor
        · intro id
          simp [State.replay, hmap, hother]
        · exact fun hcausal => hunmatched hcausal.1

end CausalOrder

end StorageReplayDriver

end Strategy
end CryptoHft
