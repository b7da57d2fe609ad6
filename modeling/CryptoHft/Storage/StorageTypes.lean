import CryptoHft.Types.Trade

/-!
# Storage events, replay and the in-memory store

`include/storage/storage_types.hpp`, `src/storage/storage_types.cpp` and
`src/storage/in_memory_storage.cpp`.  An event has a type and a payload of one of
four kinds; the stores accept only events whose payload has the kind of the type.
Both stores stamp an accepted event with the next offset and, if it has no
timestamp, with the clock, and both replay a list of events through the same
filter and page limit.
-/

namespace CryptoHft
namespace Storage

open Lib

inductive StorageEventType
  | tradeSubmitted
  | orderResponse
  | marketTrade
  | quoteUpdate
deriving DecidableEq, Repr

inductive StoragePayload (R : Type)
  | trade (trade : Trade R)
  | orderResponse (response : OrderResponse R)
  | tradeEvent (tradeEvent : TradeEvent R)
  | quoteUpdate (quote : QuoteUpdate R)
deriving DecidableEq

structure StorageEvent (R : Type) where
  offset : UInt64
  ingestTsNs : Int64
  type : StorageEventType
  payload : StoragePayload R
deriving DecidableEq

structure ReplayRequest where
  startOffset : Option UInt64
  startTsNs : Option Int64
  endTsNs : Option Int64
  ticker : Option Bytes
  maxEvents : Nat

structure ReplayBatch (R : Type) where
  events : List (StorageEvent R)
  nextOffset : Option UInt64
  endOfStream : Bool

/-- The request for everything. -/
def ReplayRequest.all : ReplayRequest where
  startOffset := none
  startTsNs := none
  endTsNs := none
  ticker := none
  maxEvents := 0

section Events

variable {R : Type}

def payloadMatchesType (event : StorageEvent R) : Bool :=
  match event.type, event.payload with
  | .tradeSubmitted, .trade _ => true
  | .orderResponse, .orderResponse _ => true
  | .marketTrade, .tradeEvent _ => true
  | .quoteUpdate, .quoteUpdate _ => true
  | _, _ => false

/-- `event_ticker`. -/
def eventTicker (event : StorageEvent R) : Option Bytes :=
  match event.type, event.payload with
  | .tradeSubmitted, .trade trade => some trade.ticker.bytes
  | .marketTrade, .tradeEvent tradeEvent => some tradeEvent.ticker.bytes
  | .quoteUpdate, .quoteUpdate quote => some quote.ticker.bytes
  | _, _ => none

/-- `matches_replay_filter`. -/
def matchesReplayFilter (event : StorageEvent R) (request : ReplayRequest) : Bool :=
  request.startOffset.all (fun start => start ≤ event.offset) &&
    request.startTsNs.all (fun start => start ≤ event.ingestTsNs) &&
    request.endTsNs.all (fun stop => event.ingestTsNs ≤ stop) &&
    request.ticker.all (fun ticker => eventTicker event = some ticker)

/-- The most events a batch can hold. -/
def ReplayRequest.limit (request : ReplayRequest) : Nat :=
  if request.maxEvents = 0 then 2 ^ 64 - 1 else request.maxEvents

/-- The loop of `replay`, with the events collected so far. -/
def replayLoop (request : ReplayRequest) :
    List (StorageEvent R) → List (StorageEvent R) → ReplayBatch R
  | collected, [] => ⟨collected, none, true⟩
  | collected, event :: rest =>
      if matchesReplayFilter event request then
        if request.limit ≤ collected.length then
          ⟨collected, collected.getLast?.map (fun last => last.offset + 1), false⟩
        else
          replayLoop request (collected ++ [event]) rest
      else
        replayLoop request collected rest

/-- `replay` over a list of events. -/
def replayEvents (events : List (StorageEvent R)) (request : ReplayRequest) :
    ReplayBatch R :=
  replayLoop request [] events

/-- The event as it is stored: under the next offset, with a timestamp. -/
def stamp (offset : UInt64) (nowNs : Int64) (event : StorageEvent R) : StorageEvent R :=
  { event with
    offset := offset
    ingestTsNs := if event.ingestTsNs ≤ 0 then nowNs else event.ingestTsNs }

/-- The events of a log, stamped from an offset on. -/
def stampFrom (offset : UInt64) : List (StorageEvent R × Int64) → List (StorageEvent R)
  | [] => []
  | (event, nowNs) :: rest => stamp offset nowNs event :: stampFrom (offset + 1) rest

end Events

/-- `append` of the interface that the writing components see: a clock reading is passed in. -/
class IStorage (σ : Type) (R : Type) where
  append : σ → StorageEvent R → Int64 → Bool × σ

/-- A storage, if there is one, after an attempt to append. -/
def appended {σ R : Type} [IStorage σ R] (storage : Option σ) (event : StorageEvent R)
    (now : Int64) : Option σ :=
  storage.map (fun storage => (IStorage.append storage event now).2)

structure InMemoryStorage (R : Type) where
  events : List (StorageEvent R)
  nextOffset : UInt64
  closed : Bool
  accepted : UInt64
  committed : UInt64
  flushCount : UInt64

namespace InMemoryStorage

variable {R : Type}

/-- The default constructor. -/
def create : InMemoryStorage R where
  events := []
  nextOffset := 0
  closed := false
  accepted := 0
  committed := 0
  flushCount := 0

/-- `append`, with the clock reading it may take. -/
def append (s : InMemoryStorage R) (event : StorageEvent R) (nowNs : Int64) :
    Bool × InMemoryStorage R :=
  if payloadMatchesType event = false then (false, s)
  else if s.closed then (false, s)
  else
    (true, { s with
      events := s.events ++ [stamp s.nextOffset nowNs event]
      nextOffset := s.nextOffset + 1
      accepted := s.accepted + 1
      committed := s.committed + 1 })

/-- A store that is open accepts every event of the right kind. -/
theorem append_of_open
    {s : InMemoryStorage R} {event : StorageEvent R}
    (hopen : s.closed = false)
    (htype : payloadMatchesType event = true)
    (nowNs : Int64) :
    s.append event nowNs =
      (true, { s with
        events := s.events ++ [stamp s.nextOffset nowNs event]
        nextOffset := s.nextOffset + 1
        accepted := s.accepted + 1
        committed := s.committed + 1 }) := by
  simp [append, hopen, htype]

instance storage : IStorage (InMemoryStorage R) R :=
  ⟨append⟩

def replay (s : InMemoryStorage R) (request : ReplayRequest) : ReplayBatch R :=
  replayEvents s.events request

def flush (s : InMemoryStorage R) : Bool × InMemoryStorage R :=
  (true, { s with flushCount := s.flushCount + 1 })

def close (s : InMemoryStorage R) : InMemoryStorage R :=
  { s with closed := true }

/-- A store that received a sequence of events. -/
def received (log : List (StorageEvent R × Int64)) : InMemoryStorage R :=
  log.foldl (fun s e => (s.append e.1 e.2).2) create

end InMemoryStorage

section Stamping

variable {R : Type}

@[simp] theorem length_stampFrom (offset : UInt64) (log : List (StorageEvent R × Int64)) :
    (stampFrom offset log).length = log.length := by
  induction log generalizing offset with
  | nil =>
      rfl
  | cons e rest ih =>
      simp [stampFrom, ih]

theorem stampFrom_append (offset : UInt64) (log log' : List (StorageEvent R × Int64)) :
    stampFrom offset (log ++ log') =
      stampFrom offset log ++ stampFrom (offset + UInt64.ofNat log.length) log' := by
  induction log generalizing offset with
  | nil =>
      simp [stampFrom]
  | cons e rest ih =>
      have hoffset : offset + 1 + UInt64.ofNat rest.length =
          offset + UInt64.ofNat (rest.length + 1) := by
        rw [UInt64.ofNat_add, UInt64.add_assoc, UInt64.add_comm 1]
        rfl
      simp [stampFrom, ih, hoffset]

theorem take_stampFrom (offset : UInt64) (log : List (StorageEvent R × Int64)) (n : Nat) :
    (stampFrom offset log).take n = stampFrom offset (log.take n) := by
  induction log generalizing offset n with
  | nil =>
      simp [stampFrom]
  | cons e rest ih =>
      cases n with
      | zero =>
          rfl
      | succ n =>
          simp only [stampFrom, List.take_succ_cons, ih]

/-- Consecutive offsets that do not wrap around are strictly increasing. -/
theorem stampFrom_increasing
    {offset : UInt64} {log : List (StorageEvent R × Int64)}
    (h : offset.toNat + log.length ≤ 2 ^ 64) :
    (stampFrom offset log).Pairwise (fun a b => a.offset < b.offset) ∧
      ∀ event ∈ stampFrom offset log, offset ≤ event.offset := by
  induction log generalizing offset with
  | nil =>
      simp [stampFrom]
  | cons e rest ih =>
      cases hrest : rest with
      | nil =>
          simp [stampFrom, stamp]
      | cons e' rest' =>
          rw [hrest, List.length_cons, List.length_cons] at h
          have hnext : (offset + 1).toNat = offset.toNat + 1 := by
            rw [UInt64.toNat_add]
            exact Nat.mod_eq_of_lt (by simp; omega)
          have hlt : offset < offset + 1 := by
            rw [UInt64.lt_iff_toNat_lt, hnext]
            omega
          have hbound : (offset + 1).toNat + rest.length ≤ 2 ^ 64 := by
            rw [hnext, hrest, List.length_cons]
            omega
          obtain ⟨hsorted, hle⟩ := ih hbound
          rw [← hrest]
          constructor
          · refine List.Pairwise.cons ?_ hsorted
            intro event hevent
            exact UInt64.lt_of_lt_of_le hlt (hle event hevent)
          · intro event hevent
            rcases List.mem_cons.mp hevent with rfl | hevent
            · exact UInt64.le_refl _
            · exact UInt64.le_of_lt (UInt64.lt_of_lt_of_le hlt (hle event hevent))

theorem map_payload_stampFrom (offset : UInt64) (log : List (StorageEvent R × Int64)) :
    (stampFrom offset log).map StorageEvent.payload = log.map (fun e => e.1.payload) := by
  induction log generalizing offset with
  | nil =>
      rfl
  | cons e rest ih =>
      simp [stampFrom, stamp, ih]

theorem exists_mem_stampFrom
    (offset : UInt64) {log : List (StorageEvent R × Int64)} {e : StorageEvent R × Int64}
    (h : e ∈ log) :
    ∃ event ∈ stampFrom offset log, event.payload = e.1.payload := by
  rw [← List.mem_map, map_payload_stampFrom]
  exact List.mem_map_of_mem h

theorem exists_of_mem_stampFrom
    {offset : UInt64} {log : List (StorageEvent R × Int64)} {event : StorageEvent R}
    (h : event ∈ stampFrom offset log) :
    ∃ e ∈ log, event.payload = e.1.payload := by
  have hmem := List.mem_map_of_mem (f := StorageEvent.payload) h
  rw [map_payload_stampFrom] at hmem
  obtain ⟨e, he, hpayload⟩ := List.mem_map.mp hmem
  exact ⟨e, he, hpayload.symm⟩

/-- The offset of an event is counted from the first one on. -/
theorem exists_offset_stampFrom
    (offset : UInt64) {log : List (StorageEvent R × Int64)} {k : Nat}
    (hk : k < log.length) :
    ∃ event, (stampFrom offset log)[k]? = some event ∧
      event.offset = offset + UInt64.ofNat k := by
  induction log generalizing offset k with
  | nil =>
      simp at hk
  | cons e rest ih =>
      cases k with
      | zero =>
          exact ⟨_, rfl, by simp [stamp]⟩
      | succ k =>
          obtain ⟨event, hevent, hoffset⟩ := ih (offset + 1) (Nat.lt_of_succ_lt_succ hk)
          refine ⟨event, hevent, ?_⟩
          rw [hoffset, UInt64.ofNat_add, UInt64.add_assoc, UInt64.add_comm 1]
          rfl

end Stamping

end Storage
end CryptoHft
