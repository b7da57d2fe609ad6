import CryptoHft.Lib.Lines
import CryptoHft.Storage.EventCodec

/-!
# `JsonlAsyncStorage`

`src/storage/jsonl_async_storage.cpp`, lines 437-746, with the flusher thread
enabled.  The text form of JSON values belongs to the JSON library and is a
parameter, `JsonText`.

`load` is the start-up scan: the file is cut into lines, lines that do not decode
are counted and skipped, and the events are sorted by offset.  The running
storage is a step function.  Threads that call `append` take `queue_mutex_`, load
`closed_`, and enter the event; the flusher drains the queue into a batch under
the same lock and then writes, commits and counts the batch; threads that call
`close` set `closed_` without a lock, wait for the flusher and close the file;
threads that call `flush` load the counters one by one until they agree or the
time is up.  Writing to the file does not fail.  The list `log` records the
accepted events with the clock readings they got.
-/

namespace CryptoHft
namespace Storage

open Lib

/-- `dump` and the non-throwing `parse` of the JSON library. -/
structure JsonText (R : Type) where
  dump : Json R → Bytes
  parse : Bytes → Option (Json R)

section Loading

variable {R : Type} (json : JsonText R)

/-- The text of an event, without the newline. -/
def record (event : StorageEvent R) : Bytes :=
  json.dump (storageEventToJson event)

/-- What `write_batch` writes for an event. -/
def line (event : StorageEvent R) : Bytes :=
  record json event ++ [10]

variable [Double R]

def decodeLine (s : Bytes) : Option (StorageEvent R) :=
  (json.parse s).bind storageEventFromJson

/-- The lines of a file that are not empty. -/
def fileLines (file : Bytes) : List Bytes :=
  (splitLines [] file).filter (fun s => !s.isEmpty)

/-- The events of a file, in the order of its lines. -/
def scan (file : Bytes) : List (StorageEvent R) :=
  (fileLines file).filterMap (decodeLine json)

/--
The `std::sort` of the start-up scan.  `std::sort` leaves the order of equal offsets open; here
they stay in the order of their lines, and no result depends on it.
-/
def sortByOffset (events : List (StorageEvent R)) : List (StorageEvent R) :=
  events.insertionSort (fun a b => a.offset ≤ b.offset)

/-- The events that `load_existing_file` leaves in `committed_events_`. -/
def load (file : Bytes) : List (StorageEvent R) :=
  sortByOffset (scan json file)

/-- The offset after the last event. -/
def offsetAfter (events : List (StorageEvent R)) : UInt64 :=
  (events.getLast?.map (fun event => event.offset + 1)).getD 0

end Loading

structure JsonlAsyncStorageConfig where
  queueCapacity : Nat
  batchSize : Nat

structure JsonlAsyncStorage (R : Type) where
  queueCapacity : Nat
  batchSize : Nat
  queue : List (StorageEvent R)
  queueDepth : UInt64
  committedEvents : List (StorageEvent R)
  output : Bytes
  outputOpen : Bool
  closed : Bool
  nextOffset : UInt64
  accepted : UInt64
  rejectedBackpressure : UInt64
  committed : UInt64
  flushCount : UInt64
  parseErrors : UInt64

/-- The constructor: load the file if there is one, and open it for appending. -/
def JsonlAsyncStorage.create {R : Type} [Double R] (json : JsonText R)
    (config : JsonlAsyncStorageConfig) (file : Option Bytes) : JsonlAsyncStorage R where
  queueCapacity := max config.queueCapacity 1
  batchSize := max config.batchSize 1
  queue := []
  queueDepth := 0
  committedEvents := load json (file.getD [])
  output := file.getD []
  outputOpen := true
  closed := false
  nextOffset := offsetAfter (load json (file.getD []))
  accepted := UInt64.ofNat (load json (file.getD [])).length
  rejectedBackpressure := 0
  committed := UInt64.ofNat (load json (file.getD [])).length
  flushCount := 0
  parseErrors := UInt64.ofNat
    ((fileLines (file.getD [])).countP (fun s => (decodeLine json s).isNone))

def JsonlAsyncStorage.replay {R : Type} (storage : JsonlAsyncStorage R)
    (request : ReplayRequest) : ReplayBatch R :=
  replayEvents storage.committedEvents request

/-- The points of `append`. -/
inductive AppendPc (R : Type)
  | idle
  | checkPayload (event : StorageEvent R)
  | lock (event : StorageEvent R)
  | checkClosed (event : StorageEvent R)
  | push (event : StorageEvent R)
  | returned (result : Bool)

/-- The points of `flusher_loop` and `write_batch`. -/
inductive FlusherPc (R : Type)
  | waiting
  | writing (batch : List (StorageEvent R))
  | committing (batch : List (StorageEvent R))
  | counting (batchSize : Nat)
  | stopped

/-- The points of `close`; `returned true` is the call that set `closed_`. -/
inductive ClosePc
  | idle
  | exchange
  | joining
  | closeFile
  | resetDepth
  | returned (first : Bool)
deriving DecidableEq

/-- The points of `flush`; the loads are made once more when the time is up. -/
inductive FlushPc
  | idle
  | count
  | loadAccepted (timedOut : Bool)
  | loadCommitted (timedOut : Bool) (accepted : UInt64)
  | loadQueued (timedOut : Bool) (accepted committed : UInt64)
  | waiting
  | flushFile
  | returned (result : Bool)
deriving DecidableEq

structure JsonlRun (ι γ φ R : Type) where
  storage : JsonlAsyncStorage R
  appenders : ι → AppendPc R
  queueMutex : Option ι
  flusher : FlusherPc R
  closers : γ → ClosePc
  flushes : φ → FlushPc
  log : List (StorageEvent R × Int64)

inductive JsonlAction (ι γ φ R : Type)
  | callAppend (i : ι) (event : StorageEvent R)
  | append (i : ι) (nowNs : Int64)
  | flusher
  | callClose (j : γ)
  | close (j : γ)
  | callFlush (k : φ)
  | flush (k : φ) (timedOut : Bool)

namespace JsonlRun

variable {ι γ φ R : Type}

/-- A storage that has just been opened. -/
def start (storage : JsonlAsyncStorage R) : JsonlRun ι γ φ R where
  storage := storage
  appenders _ := .idle
  queueMutex := none
  flusher := .waiting
  closers _ := .idle
  flushes _ := .idle
  log := []

/-- The events that are in neither the queue nor the committed list. -/
def inFlight (s : JsonlRun ι γ φ R) : List (StorageEvent R) :=
  match s.flusher with
  | .writing batch => batch
  | .committing batch => batch
  | _ => []

/-- The number of drained events that `committed_` does not count yet. -/
def uncounted (s : JsonlRun ι γ φ R) : Nat :=
  match s.flusher with
  | .writing batch => batch.length
  | .committing batch => batch.length
  | .counting batchSize => batchSize
  | _ => 0

/-- One step of the flusher; it needs `queue_mutex_` to look at the queue. -/
def flusherStep (json : JsonText R) (s : JsonlRun ι γ φ R) : Option (JsonlRun ι γ φ R) :=
  match s.flusher with
  | .waiting =>
      if s.queueMutex.isSome then none
      else if s.storage.queue.isEmpty then
        some { s with flusher := if s.storage.closed then .stopped else .waiting }
      else
        let batch := s.storage.queue.take s.storage.batchSize
        let rest := s.storage.queue.drop s.storage.batchSize
        some { s with
          storage := { s.storage with queue := rest, queueDepth := UInt64.ofNat rest.length }
          flusher := .writing batch }
  | .writing batch =>
      some { s with
        storage := { s.storage with output := s.storage.output ++ batch.flatMap (line json) }
        flusher := .committing batch }
  | .committing batch =>
      some { s with
        storage := { s.storage with
          committedEvents := s.storage.committedEvents ++ batch }
        flusher := .counting batch.length }
  | .counting batchSize =>
      some { s with
        storage := { s.storage with
          committed := s.storage.committed + UInt64.ofNat batchSize }
        flusher := .waiting }
  | .stopped => none

section Threads

variable [DecidableEq ι] [DecidableEq γ] [DecidableEq φ]

def setAppender (s : JsonlRun ι γ φ R) (i : ι) (pc : AppendPc R) : JsonlRun ι γ φ R :=
  { s with appenders := Function.update s.appenders i pc }

def setCloser (s : JsonlRun ι γ φ R) (j : γ) (pc : ClosePc) : JsonlRun ι γ φ R :=
  { s with closers := Function.update s.closers j pc }

def setFlush (s : JsonlRun ι γ φ R) (k : φ) (pc : FlushPc) : JsonlRun ι γ φ R :=
  { s with flushes := Function.update s.flushes k pc }

/-- The accepting end of `append`. -/
def accept (storage : JsonlAsyncStorage R) (event : StorageEvent R) (nowNs : Int64) :
    JsonlAsyncStorage R :=
  { storage with
    queue := storage.queue ++ [stamp storage.nextOffset nowNs event]
    queueDepth := UInt64.ofNat (storage.queue.length + 1)
    nextOffset := storage.nextOffset + 1
    accepted := storage.accepted + 1 }

/-- One step of `append`. -/
def appendStep (s : JsonlRun ι γ φ R) (i : ι) (nowNs : Int64) : Option (JsonlRun ι γ φ R) :=
  match s.appenders i with
  | .idle => none
  | .checkPayload event =>
      if payloadMatchesType event then some (s.setAppender i (.lock event))
      else some (s.setAppender i (.returned false))
  | .lock event =>
      if s.queueMutex.isSome then none
      else some { s.setAppender i (.checkClosed event) with queueMutex := some i }
  | .checkClosed event =>
      if s.storage.closed then
        some { s.setAppender i (.returned false) with queueMutex := none }
      else
        some (s.setAppender i (.push event))
  | .push event =>
      if s.storage.queueCapacity ≤ s.storage.queue.length then
        some { s.setAppender i (.returned false) with
          queueMutex := none
          storage := { s.storage with
            rejectedBackpressure := s.storage.rejectedBackpressure + 1 } }
      else
        some { s.setAppender i (.returned true) with
          queueMutex := none
          storage := accept s.storage event nowNs
          log := s.log ++ [(event, nowNs)] }
  | .returned _ => none

/-- One step of `close`. -/
def closeStep (s : JsonlRun ι γ φ R) (j : γ) : Option (JsonlRun ι γ φ R) :=
  match s.closers j with
  | .idle => none
  | .exchange =>
      some { s.setCloser j (if s.storage.closed then .returned false else .joining) with
        storage := { s.storage with closed := true } }
  | .joining =>
      match s.flusher with
      | .stopped => some (s.setCloser j .closeFile)
      | _ => none
  | .closeFile =>
      some { s.setCloser j .resetDepth with
        storage := { s.storage with outputOpen := false } }
  | .resetDepth =>
      some { s.setCloser j (.returned true) with
        storage := { s.storage with queueDepth := 0 } }
  | .returned _ => none

/-- One step of `flush`; `timedOut` is the result of waiting. -/
def flushStep (s : JsonlRun ι γ φ R) (k : φ) (timedOut : Bool) : Option (JsonlRun ι γ φ R) :=
  match s.flushes k with
  | .idle => none
  | .count =>
      some { s.setFlush k (.loadAccepted false) with
        storage := { s.storage with flushCount := s.storage.flushCount + 1 } }
  | .loadAccepted last =>
      some (s.setFlush k (.loadCommitted last s.storage.accepted))
  | .loadCommitted last accepted =>
      some (s.setFlush k (.loadQueued last accepted s.storage.committed))
  | .loadQueued last accepted committed =>
      let done := decide (accepted ≤ committed) && decide (s.storage.queueDepth = 0)
      if last then some (s.setFlush k (.returned done))
      else if done then some (s.setFlush k .flushFile)
      else some (s.setFlush k .waiting)
  | .waiting => some (s.setFlush k (.loadAccepted timedOut))
  | .flushFile => some (s.setFlush k (.returned true))
  | .returned _ => none

def step (json : JsonText R) (s : JsonlRun ι γ φ R) :
    JsonlAction ι γ φ R → Option (JsonlRun ι γ φ R)
  | .callAppend i event =>
      match s.appenders i with
      | .idle => some (s.setAppender i (.checkPayload event))
      | .returned _ => some (s.setAppender i (.checkPayload event))
      | _ => none
  | .append i nowNs => s.appendStep i nowNs
  | .flusher => s.flusherStep json
  | .callClose j =>
      match s.closers j with
      | .idle => some (s.setCloser j .exchange)
      | .returned _ => some (s.setCloser j .exchange)
      | _ => none
  | .close j => s.closeStep j
  | .callFlush k =>
      match s.flushes k with
      | .idle => some (s.setFlush k .count)
      | .returned _ => some (s.setFlush k .count)
      | _ => none
  | .flush k timedOut => s.flushStep k timedOut

end Threads

end JsonlRun

end Storage
end CryptoHft
