import CryptoHft.Exchange.MarketDataClient
import CryptoHft.Lib.Runs

/-!
# The thread of `CryptoComMarketDataClient`

`src/exchange/market_data_client.cpp`: `start`, `stop` and `run`.  The thread connects,
subscribes and handles one message after the other; `running_` is tested before each read
and not after it.  One thread calls `start` and `stop`, and the steps of both threads
interleave.  What the network does is an argument of a step: a connection or a write
succeeds or fails with a text, and a read gets a message, an error or the end of the
stream.

The thread clears `running_` when its session comes to an end by itself, and stays
joinable.  A `start` after that assigns to a joinable `std::thread`, which ends the process;
a `stop` in between joins the thread.
-/

namespace CryptoHft
namespace Exchange

open Lib

/-- What `report_error` is called with. -/
inductive ReportedError
  | readFailed (message : Bytes)
  | parseFailed
  | replyFailed (message : Bytes)
  | connectionFailed (what : Bytes)

def ReportedError.text : ReportedError → Bytes
  | .readFailed message => Lib.text "market data read failed: " ++ message
  | .parseFailed => Lib.text "market data JSON parse failed"
  | .replyFailed message => Lib.text "market data heartbeat response failed: " ++ message
  | .connectionFailed what => Lib.text "market data connection failed: " ++ what

/-- The result of a read. -/
inductive ReadOutcome
  | closed
  | failed (message : Bytes)
  | message (bytes : Bytes)

/-- The points of `run`. -/
inductive SessionPc (R : Type)
  | connecting
  | testRunning
  | reading
  | replying (reply : Json R)
  | closing
  | catching (what : Bytes)
  | clearRunning
  | ended

/-- What a session has done: the messages it read, how many of them after `running_` was
cleared, and what it sent, passed on and reported. -/
structure SessionLog (R : Type) where
  frames : List Bytes
  late : Nat
  sent : List (Json R)
  events : List (MarketEvent R)
  errors : List ReportedError

def SessionLog.empty {R : Type} : SessionLog R where
  frames := []
  late := 0
  sent := []
  events := []
  errors := []

/--
The client with its threads.  `thread` is none if `thread_` is not joinable; `stopping` is
set between the exchange and the join of `stop`.
-/
structure MarketDataRun (R : Type) where
  instruments : List Bytes
  bookDepth : Int32
  running : Bool
  thread : Option (SessionPc R)
  stopping : Bool
  terminated : Bool
  log : SessionLog R

inductive MarketDataAction
  | start
  | stop
  | join
  | connect (failure : Option Bytes)
  | test
  | read (outcome : ReadOutcome)
  | write (failure : Option Bytes)
  | close
  | catchException
  | clear

/-- What the loop does with one message. -/
structure Handled (R : Type) where
  events : List (MarketEvent R)
  reply : Option (Json R)
  report : Option ReportedError
  thrown : Option JsonError

namespace CryptoComMarketDataClient

variable {R : Type}

/-- `std::to_string` of an `int`. -/
def intText (i : Int32) : Bytes :=
  if i.toInt < 0 then 45 :: decimal i.toInt.natAbs else decimal i.toInt.natAbs

/-- `build_subscribe_message`. -/
def buildSubscribeMessage (instruments : List Bytes) (bookDepth : Int32) : Json R :=
  .object
    [("id", .ofUInt64 1),
      ("method", .string (text "subscribe")),
      ("params", .object
        [("channels", .array (instruments.flatMap (fun instrument =>
            [.string (text "trade." ++ instrument),
              .string (text "book." ++ instrument ++ text "." ++ intText bookDepth)]))),
          ("book_subscription_type", .string (text "SNAPSHOT"))])]

def respondHeartbeat (id : Int32) : Json R :=
  .object [("id", .ofInt64 id.toInt64), ("method", .string (text "public/respond-heartbeat"))]

/-- `value("id", 0)`. -/
def heartbeatId [Double R] (decoded : Json R) : Except JsonError Int32 :=
  match decoded.find "id" with
  | some value => value.getInt32
  | none => .ok 0

/-- The part of the loop after a successful read. -/
def handleMessage [Double R] (parse : Bytes → Option (Json R)) (message : Bytes) : Handled R :=
  match parse message with
  | none => ⟨[], none, some .parseFailed, none⟩
  | some decoded =>
      match decoded.valueString "method" [] with
      | .error e => ⟨[], none, none, some e⟩
      | .ok method =>
          if method = text "public/heartbeat" then
            match heartbeatId decoded with
            | .error e => ⟨[], none, none, some e⟩
            | .ok id => ⟨[], some (respondHeartbeat id), none, none⟩
          else
            let emitted := processTextMessage parse message
            ⟨emitted.events, none, none, emitted.thrown⟩

end CryptoComMarketDataClient

namespace MarketDataRun

open CryptoComMarketDataClient

variable {R : Type}

/-- The constructor; it throws if there are no instruments. -/
def create (instruments : List Bytes) (bookDepth : Int32) : Option (MarketDataRun R) :=
  if instruments.isEmpty then none
  else some ⟨instruments, bookDepth, false, none, false, false, .empty⟩

section Steps

variable [Double R] (parse : Bytes → Option (Json R)) (what : JsonError → Bytes)

/-- The log after a message that has been read. -/
def record (s : MarketDataRun R) (message : Bytes) (handled : Handled R) : SessionLog R where
  frames := s.log.frames ++ [message]
  late := s.log.late + if s.running then 0 else 1
  sent := s.log.sent
  events := s.log.events ++ handled.events
  errors := s.log.errors ++ handled.report.toList

/-- Where the loop goes on after a message. -/
def afterMessage (handled : Handled R) : SessionPc R :=
  match handled.thrown with
  | some e => .catching (what e)
  | none =>
      match handled.reply with
      | some reply => .replying reply
      | none => .testRunning

/-- One step of `run` from a point of it. -/
def runStep (s : MarketDataRun R) : SessionPc R → MarketDataAction → Option (MarketDataRun R)
  | .connecting, .connect none =>
      some { s with
        thread := some .testRunning
        log := { s.log with
          sent := s.log.sent ++ [buildSubscribeMessage s.instruments s.bookDepth] } }
  | .connecting, .connect (some failure) => some { s with thread := some (.catching failure) }
  | .testRunning, .test =>
      some { s with thread := some (if s.running then .reading else .closing) }
  | .reading, .read .closed => some { s with thread := some .closing }
  | .reading, .read (.failed message) =>
      some { s with
        thread := some .closing
        log := { s.log with errors := s.log.errors ++ [.readFailed message] } }
  | .reading, .read (.message bytes) =>
      let handled := handleMessage parse bytes
      some { s with
        thread := some (afterMessage what handled)
        log := s.record bytes handled }
  | .replying reply, .write none =>
      some { s with
        thread := some .testRunning
        log := { s.log with sent := s.log.sent ++ [reply] } }
  | .replying _, .write (some failure) =>
      some { s with
        thread := some .closing
        log := { s.log with errors := s.log.errors ++ [.replyFailed failure] } }
  | .closing, .close => some { s with thread := some .clearRunning }
  | .catching message, .catchException =>
      some { s with
        thread := some .clearRunning
        log := { s.log with
          errors := s.log.errors ++ if s.running then [.connectionFailed message] else [] } }
  | .clearRunning, .clear => some { s with running := false, thread := some .ended }
  | _, _ => none

/-- One step; after `std::terminate` there is none. -/
def step (s : MarketDataRun R) (a : MarketDataAction) : Option (MarketDataRun R) :=
  if s.terminated then none
  else
    match a with
    | .start =>
        if s.stopping then none
        else if s.running then some s
        else if s.thread.isSome then some { s with running := true, terminated := true }
        else some { s with running := true, thread := some .connecting, log := .empty }
    | .stop => if s.stopping then none else some { s with running := false, stopping := true }
    | .join =>
        if s.stopping then
          match s.thread with
          | none => some { s with stopping := false }
          | some .ended => some { s with stopping := false, thread := none }
          | some _ => none
        else none
    | a => s.thread.bind (fun pc => s.runStep parse what pc a)

end Steps

section Session

variable [Double R] (parse : Bytes → Option (Json R))

/-- What the loop is to send: the subscription, and a reply to each heartbeat. -/
def messagesToSend (s : MarketDataRun R) : List (Json R) :=
  buildSubscribeMessage s.instruments s.bookDepth ::
    s.log.frames.filterMap (fun m => (handleMessage parse m).reply)

/-- What the loop is to report of the messages. -/
def reports (s : MarketDataRun R) : List ReportedError :=
  s.log.frames.filterMap (fun m => (handleMessage parse m).report)

/-- The points from which another message may be read. -/
def Loops : SessionPc R → Prop
  | .connecting => True
  | .testRunning => True
  | .reading => True
  | .replying _ => True
  | .closing => False
  | .catching _ => False
  | .clearRunning => False
  | .ended => False

/-- What the log is at a point of `run`. -/
def AtPoint (s : MarketDataRun R) : SessionPc R → Prop
  | .connecting => s.log = .empty
  | .testRunning => s.log.sent = s.messagesToSend parse ∧ s.log.errors = s.reports parse
  | .reading =>
      s.log.sent = s.messagesToSend parse ∧ s.log.errors = s.reports parse ∧ s.log.late = 0
  | .replying reply =>
      s.log.sent ++ [reply] = s.messagesToSend parse ∧ s.log.errors = s.reports parse
  | .catching _ => s.log.errors = s.reports parse
  | .closing => True
  | .clearRunning => True
  | .ended => True

/--
The log of a session is made of the messages it read: each is handled once and in its turn,
the last one only may have thrown, and what is left out at most is the reply to the last.
One error at most is reported beyond those of the messages.
-/
structure Faithful (s : MarketDataRun R) : Prop where
  events : s.log.events = s.log.frames.flatMap (fun m => (handleMessage parse m).events)
  sent : s.log.sent <+: s.messagesToSend parse
  unsent : (s.messagesToSend parse).length ≤ s.log.sent.length + 1
  errors : ∃ fatal, s.log.errors = s.reports parse ++ fatal ∧ fatal.length ≤ 1
  thrown : ∀ m ∈ s.log.frames.dropLast, (handleMessage parse m).thrown = none
  late : s.log.late ≤ 1

structure Inv (s : MarketDataRun R) : Prop where
  faithful : s.Faithful parse
  point : ∀ pc, s.thread = some pc → s.AtPoint parse pc
  loops : ∀ pc, s.thread = some pc → Loops pc →
    ∀ m ∈ s.log.frames, (handleMessage parse m).thrown = none
  onTime : s.terminated = false → s.running = true → s.log.late = 0
  alive : s.terminated = false → s.running = true →
    s.stopping = false ∧ ∃ pc, s.thread = some pc ∧ pc ≠ .ended
  idle : s.terminated = false → s.running = false → s.stopping = false →
    ∀ pc, s.thread = some pc → pc = .ended
  down : s.terminated = true → s.stopping = false

variable {parse} {what : JsonError → Bytes} {s t : MarketDataRun R}

theorem faithful_empty
    (hlog : s.log = .empty) :
    s.Faithful parse := by
  refine ⟨?_, ?_, ?_, ⟨[], ?_, Nat.zero_le 1⟩, ?_, ?_⟩ <;>
    simp [messagesToSend, reports, hlog, SessionLog.empty]

/-- What the log of a session says does not depend on the flags. -/
theorem Faithful.of_log
    (h : s.Faithful parse)
    (hinstruments : t.instruments = s.instruments)
    (hdepth : t.bookDepth = s.bookDepth)
    (hlog : t.log = s.log) :
    t.Faithful parse := by
  have hsend : t.messagesToSend parse = s.messagesToSend parse := by
    rw [messagesToSend, messagesToSend, hinstruments, hdepth, hlog]
  have hreports : t.reports parse = s.reports parse := by
    rw [reports, reports, hlog]
  exact ⟨hlog ▸ h.events, by rw [hlog, hsend]; exact h.sent, by rw [hlog, hsend]; exact h.unsent,
    by rw [hlog, hreports]; exact h.errors, hlog ▸ h.thrown, hlog ▸ h.late⟩

theorem AtPoint.of_log
    {pc : SessionPc R}
    (h : s.AtPoint parse pc)
    (hinstruments : t.instruments = s.instruments)
    (hdepth : t.bookDepth = s.bookDepth)
    (hlog : t.log = s.log) :
    t.AtPoint parse pc := by
  have hsend : t.messagesToSend parse = s.messagesToSend parse := by
    rw [messagesToSend, messagesToSend, hinstruments, hdepth, hlog]
  have hreports : t.reports parse = s.reports parse := by
    rw [reports, reports, hlog]
  cases pc <;> simp only [AtPoint, hlog, hsend, hreports] at h ⊢ <;> exact h

/-- One more error, and the session is over. -/
theorem Faithful.report
    (h : s.Faithful parse)
    (herrors : s.log.errors = s.reports parse)
    (pc : SessionPc R) (running : Bool) (fatal : List ReportedError)
    (hfatal : fatal.length ≤ 1) :
    Faithful parse { s with
      running := running
      thread := some pc
      log := { s.log with errors := s.log.errors ++ fatal } } :=
  ⟨h.events, h.sent, h.unsent, ⟨fatal, congrArg (· ++ fatal) herrors, hfatal⟩, h.thrown, h.late⟩

section Message

variable (s) (m : Bytes) (pc : SessionPc R)

/-- The state after a message. -/
def afterRead (parse : Bytes → Option (Json R)) : MarketDataRun R :=
  { s with thread := some pc, log := s.record m (handleMessage parse m) }

theorem messagesToSend_afterRead :
    (s.afterRead m pc parse).messagesToSend parse =
      s.messagesToSend parse ++ (handleMessage parse m).reply.toList := by
  show _ :: List.filterMap _ (s.log.frames ++ [m]) = _
  rw [List.filterMap_append, ← List.cons_append]
  congr 1

theorem reports_afterRead :
    (s.afterRead m pc parse).reports parse =
      s.reports parse ++ (handleMessage parse m).report.toList := by
  show List.filterMap _ (s.log.frames ++ [m]) = _
  rw [List.filterMap_append]
  congr 1

end Message

theorem Faithful.afterRead
    (h : s.Faithful parse)
    (hpoint : s.AtPoint parse .reading)
    (hnone : ∀ m ∈ s.log.frames, (handleMessage parse m).thrown = none)
    (m : Bytes) (pc : SessionPc R) :
    (s.afterRead m pc parse).Faithful parse := by
  obtain ⟨hsent, herrors, hlate⟩ := hpoint
  refine ⟨?_, ?_, ?_, ⟨[], ?_, Nat.zero_le 1⟩, ?_, ?_⟩
  · show s.log.events ++ _ = (s.log.frames ++ [m]).flatMap _
    rw [List.flatMap_append, h.events, List.flatMap_singleton]
  · rw [messagesToSend_afterRead]
    exact hsent ▸ List.prefix_append _ _
  · rw [messagesToSend_afterRead, List.length_append]
    show _ ≤ s.log.sent.length + 1
    rw [hsent]
    exact Nat.add_le_add_left (by cases (handleMessage parse m).reply <;> simp) _
  · rw [reports_afterRead, List.append_nil]
    exact congrArg (· ++ _) herrors
  · show ∀ x ∈ (s.log.frames ++ [m]).dropLast, _
    rw [List.dropLast_concat]
    exact hnone
  · show s.log.late + _ ≤ 1
    rw [hlate]
    split <;> omega

theorem AtPoint.afterRead
    (hpoint : s.AtPoint parse .reading)
    (m : Bytes) :
    (s.afterRead m (afterMessage what (handleMessage parse m)) parse).AtPoint parse
      (afterMessage what (handleMessage parse m)) := by
  obtain ⟨hsent, herrors, -⟩ := hpoint
  have herrors' : (s.record m (handleMessage parse m)).errors = s.reports parse ++
      (handleMessage parse m).report.toList := congrArg (· ++ _) herrors
  unfold afterMessage
  cases hthrown : (handleMessage parse m).thrown with
  | some e =>
      exact herrors'.trans (reports_afterRead s m _).symm
  | none =>
      cases hreply : (handleMessage parse m).reply with
      | some reply =>
          refine ⟨?_, herrors'.trans (reports_afterRead s m _).symm⟩
          rw [messagesToSend_afterRead, hreply]
          exact congrArg (· ++ _) hsent
      | none =>
          refine ⟨?_, herrors'.trans (reports_afterRead s m _).symm⟩
          rw [messagesToSend_afterRead, hreply]
          exact hsent.trans (List.append_nil _).symm

omit [Double R] in
/-- A message that throws ends the session. -/
theorem thrown_of_loops_afterMessage
    {handled : Handled R}
    (h : Loops (afterMessage what handled)) :
    handled.thrown = none := by
  unfold afterMessage at h
  cases hthrown : handled.thrown with
  | none => rfl
  | some e =>
      rw [hthrown] at h
      exact h.elim

omit [Double R] in
theorem afterMessage_ne_ended (handled : Handled R) :
    afterMessage what handled ≠ .ended := by
  unfold afterMessage
  split
  · exact fun h => by cases h
  · split <;> exact fun h => by cases h

/-- A step of the thread to a point that is not its end, with the flags as they are. -/
theorem Inv.moves
    (h : s.Inv parse)
    {before pc : SessionPc R}
    (hbefore : s.thread = some before)
    (hended : before ≠ .ended)
    (hpc : pc ≠ .ended)
    (log : SessionLog R)
    (hlate : s.running = true → log.late = 0)
    (hfaithful : Faithful parse { s with thread := some pc, log := log })
    (hpoint : AtPoint parse { s with thread := some pc, log := log } pc)
    (hloops : Loops pc → ∀ m ∈ log.frames, (handleMessage parse m).thrown = none) :
    Inv parse { s with thread := some pc, log := log } where
  faithful := hfaithful
  point pc' hpc' := by
    obtain rfl := Option.some.inj hpc'
    exact hpoint
  loops pc' hpc' := by
    obtain rfl := Option.some.inj hpc'
    exact hloops
  onTime _ := hlate
  alive hterm hrun := ⟨(h.alive hterm hrun).1, pc, rfl, hpc⟩
  idle hterm hrun hstop _ _ := absurd (h.idle hterm hrun hstop before hbefore) hended
  down := h.down

theorem Inv.runStep
    (h : s.Inv parse)
    (hterm : s.terminated = false)
    {pc : SessionPc R} {a : MarketDataAction}
    (hpc : s.thread = some pc)
    (hstep : s.runStep parse what pc a = some t) :
    t.Inv parse := by
  have hpoint := h.point pc hpc
  have hloops := h.loops pc hpc
  have hfaithful := h.faithful
  have hlate := h.onTime hterm
  unfold MarketDataRun.runStep at hstep
  split at hstep
  · -- the connection is made, and the subscription sent
    cases hstep
    have hlog : s.log = .empty := hpoint
    have hsent : s.log.sent ++ [buildSubscribeMessage s.instruments s.bookDepth] =
        s.messagesToSend parse := by
      rw [messagesToSend, hlog]
      rfl
    refine h.moves hpc (by simp) (by simp) _ hlate ?_ ⟨hsent, by rw [hlog]; rfl⟩ hloops
    exact ⟨hfaithful.events, hsent ▸ List.prefix_refl _, hsent ▸ Nat.le_succ _,
      hfaithful.errors, hfaithful.thrown, hfaithful.late⟩
  · cases hstep
    have hlog : s.log = .empty := hpoint
    refine h.moves hpc (by simp) (by simp) _ hlate (hfaithful.of_log rfl rfl rfl) ?_
      (fun hloop => hloop.elim)
    show s.log.errors = _
    rw [reports, hlog]
    rfl
  · cases hstep
    by_cases hrun : s.running = true
    · rw [if_pos hrun]
      exact h.moves hpc (by simp) (by simp) _ hlate (hfaithful.of_log rfl rfl rfl)
        ⟨hpoint.1, hpoint.2, hlate hrun⟩ hloops
    · rw [if_neg hrun]
      exact h.moves hpc (by simp) (by simp) _ hlate (hfaithful.of_log rfl rfl rfl) trivial
        (fun hloop => hloop.elim)
  · cases hstep
    exact h.moves hpc (by simp) (by simp) _ hlate (hfaithful.of_log rfl rfl rfl) trivial
      (fun hloop => hloop.elim)
  · cases hstep
    exact h.moves hpc (by simp) (by simp) _ hlate
      (hfaithful.report hpoint.2.1 _ _ _ (Nat.le_refl 1)) trivial (fun hloop => hloop.elim)
  · cases hstep
    rename_i m
    refine h.moves hpc (by simp) (afterMessage_ne_ended _) _ ?_
      (hfaithful.afterRead hpoint (hloops trivial) m _) (AtPoint.afterRead hpoint m) ?_
    · intro hrun
      show s.log.late + _ = 0
      rw [hlate hrun, if_pos hrun]
    · intro hloop x hx
      rcases List.mem_append.mp hx with hx | hx
      · exact hloops trivial x hx
      · rw [List.mem_singleton.mp hx]
        exact thrown_of_loops_afterMessage hloop
  · cases hstep
    obtain ⟨hsent, herrors⟩ := hpoint
    refine h.moves hpc (by simp) (by simp) _ hlate ?_ ⟨hsent, herrors⟩ hloops
    exact ⟨hfaithful.events, hsent ▸ List.prefix_refl _, hsent ▸ Nat.le_succ _,
      hfaithful.errors, hfaithful.thrown, hfaithful.late⟩
  · cases hstep
    exact h.moves hpc (by simp) (by simp) _ hlate
      (hfaithful.report hpoint.2 _ _ _ (Nat.le_refl 1)) trivial (fun hloop => hloop.elim)
  · cases hstep
    exact h.moves hpc (by simp) (by simp) _ hlate (hfaithful.of_log rfl rfl rfl) trivial
      (fun hloop => hloop.elim)
  · cases hstep
    refine h.moves hpc (by simp) (by simp) _ hlate
      (hfaithful.report hpoint _ _ _ ?_) trivial (fun hloop => hloop.elim)
    split <;> simp
  · cases hstep
    refine ⟨hfaithful.of_log rfl rfl rfl, ?_, ?_, ?_, ?_, ?_, h.down⟩
    · rintro _ ⟨⟩
      exact trivial
    · rintro _ ⟨⟩ hloop
      exact hloop.elim
    · intro _ hrun
      cases hrun
    · intro _ hrun
      cases hrun
    · rintro _ _ _ _ ⟨⟩
      rfl
  · cases hstep

/-- The flags that the thread does not look at. -/
theorem Inv.of_log
    (h : s.Inv parse)
    (hinstruments : t.instruments = s.instruments)
    (hdepth : t.bookDepth = s.bookDepth)
    (hlog : t.log = s.log)
    (hthread : ∀ pc, t.thread = some pc → s.thread = some pc)
    (honTime : t.terminated = false → t.running = true → t.log.late = 0)
    (halive : t.terminated = false → t.running = true →
      t.stopping = false ∧ ∃ pc, t.thread = some pc ∧ pc ≠ .ended)
    (hidle : t.terminated = false → t.running = false → t.stopping = false →
      ∀ pc, t.thread = some pc → pc = .ended)
    (hdown : t.terminated = true → t.stopping = false) :
    t.Inv parse where
  faithful := h.faithful.of_log hinstruments hdepth hlog
  point pc hpc := (h.point pc (hthread pc hpc)).of_log hinstruments hdepth hlog
  loops pc hpc := hlog ▸ h.loops pc (hthread pc hpc)
  onTime := honTime
  alive := halive
  idle := hidle
  down := hdown

theorem inv_create
    {instruments : List Bytes} {bookDepth : Int32}
    (hcreate : create instruments bookDepth = some s) :
    s.Inv parse := by
  unfold create at hcreate
  split at hcreate
  · cases hcreate
  · cases hcreate
    refine ⟨faithful_empty rfl, ?_, ?_, ?_, ?_, ?_, fun _ => rfl⟩
    · rintro _ ⟨⟩
    · rintro _ ⟨⟩
    · rintro _ ⟨⟩
    · rintro _ ⟨⟩
    · rintro _ _ _ _ ⟨⟩

/-- What a step is, when the process has not been ended. -/
theorem step_cases
    {a : MarketDataAction}
    (hstep : s.step parse what a = some t) :
    s.terminated = false ∧
      ((a = .start ∧ s.stopping = false ∧
          ((s.running = true ∧ t = s) ∨
            (s.running = false ∧ s.thread.isSome = true ∧
              t = { s with running := true, terminated := true }) ∨
            (s.running = false ∧ s.thread = none ∧
              t = { s with running := true, thread := some .connecting, log := .empty }))) ∨
        (a = .stop ∧ s.stopping = false ∧ t = { s with running := false, stopping := true }) ∨
        (a = .join ∧ s.stopping = true ∧ (s.thread = none ∨ s.thread = some .ended) ∧
          t = { s with stopping := false, thread := none }) ∨
        (a ≠ .start ∧ a ≠ .stop ∧ a ≠ .join ∧
          ∃ pc, s.thread = some pc ∧ s.runStep parse what pc a = some t)) := by
  unfold MarketDataRun.step at hstep
  split at hstep
  · cases hstep
  · rename_i hterm
    refine ⟨Bool.eq_false_iff.mpr hterm, ?_⟩
    cases a with
    | start =>
        left
        refine ⟨rfl, ?_⟩
        dsimp only at hstep
        split at hstep
        · cases hstep
        · rename_i hstop
          refine ⟨Bool.eq_false_iff.mpr hstop, ?_⟩
          split at hstep
          · rename_i hrun
            cases hstep
            exact .inl ⟨hrun, rfl⟩
          · rename_i hrun
            have hidle := Bool.eq_false_iff.mpr hrun
            split at hstep
            · rename_i hthread
              cases hstep
              exact .inr (.inl ⟨hidle, hthread, rfl⟩)
            · rename_i hthread
              cases hstep
              exact .inr (.inr ⟨hidle, Option.not_isSome_iff_eq_none.mp hthread, rfl⟩)
    | stop =>
        right; left
        dsimp only at hstep
        split at hstep
        · cases hstep
        · rename_i hstop
          cases hstep
          exact ⟨rfl, Bool.eq_false_iff.mpr hstop, rfl⟩
    | join =>
        right; right; left
        dsimp only at hstep
        split at hstep
        · rename_i hstop
          refine ⟨rfl, hstop, ?_⟩
          split at hstep
          · rename_i hthread
            cases hstep
            exact ⟨.inl hthread, by rw [← hthread]⟩
          · rename_i hthread
            cases hstep
            exact ⟨.inr hthread, rfl⟩
          · cases hstep
        · cases hstep
    | connect | test | read | write | close | catchException | clear =>
        right; right; right
        obtain ⟨pc, hpc, hrun⟩ := Option.bind_eq_some_iff.mp hstep
        exact ⟨by simp, by simp, by simp, pc, hpc, hrun⟩

theorem step_eq_runStep
    (hterm : s.terminated = false)
    {pc : SessionPc R} {a : MarketDataAction}
    (hpc : s.thread = some pc)
    (hstart : a ≠ .start)
    (hstop : a ≠ .stop)
    (hjoin : a ≠ .join) :
    s.step parse what a = s.runStep parse what pc a := by
  unfold MarketDataRun.step
  rw [if_neg (by simp [hterm])]
  cases a with
  | start => exact absurd rfl hstart
  | stop => exact absurd rfl hstop
  | join => exact absurd rfl hjoin
  | connect | test | read | write | close | catchException | clear =>
      simp only [hpc, Option.bind_some]

theorem Inv.step
    (h : s.Inv parse)
    {a : MarketDataAction}
    (hstep : s.step parse what a = some t) :
    t.Inv parse := by
  obtain ⟨hterm, hcase⟩ := step_cases hstep
  rcases hcase with ⟨-, hstop, hstart⟩ | ⟨-, -, rfl⟩ | ⟨-, hstop, hthread, rfl⟩ |
    ⟨-, -, -, pc, hpc, hrun⟩
  · rcases hstart with ⟨-, rfl⟩ | ⟨-, -, rfl⟩ | ⟨-, -, rfl⟩
    · exact h
    · exact h.of_log rfl rfl rfl (fun _ hpc => hpc) (fun ht => by cases ht) (fun ht => by cases ht)
        (fun ht => by cases ht) (fun _ => hstop)
    · refine ⟨faithful_empty rfl, ?_, ?_, fun _ _ => rfl, ?_, ?_, fun _ => hstop⟩
      · rintro _ ⟨⟩
        rfl
      · rintro _ ⟨⟩ - m hm
        cases hm
      · exact fun _ _ => ⟨hstop, .connecting, rfl, by simp⟩
      · intro _ hrun
        cases hrun
  · exact h.of_log rfl rfl rfl (fun _ hpc => hpc) (fun _ hrun => by cases hrun)
      (fun _ hrun => by cases hrun) (fun _ _ hstop => by cases hstop)
      (fun hdown => by rw [hterm] at hdown; cases hdown)
  · refine h.of_log rfl rfl rfl ?_ (fun _ hrun => h.onTime hterm hrun) ?_ ?_ (fun _ => rfl)
    · rintro _ ⟨⟩
    · intro _ hrun
      rw [(h.alive hterm hrun).1] at hstop
      cases hstop
    · rintro _ _ _ _ ⟨⟩
  · exact h.runStep hterm hpc hrun

theorem inv_of_reachable
    {instruments : List Bytes} {bookDepth : Int32} {s₀ : MarketDataRun R}
    (hcreate : create instruments bookDepth = some s₀)
    (hs : Reachable (Steps (step parse what)) s₀ s) :
    s.Inv parse :=
  hs.invariant (inv_create hcreate) (fun _ _ _ h ha => h.step ha)

/--
A session is faithful to the messages it reads, at most one of them after `running_` was
cleared; and `start` ends the process exactly if a session has come to an end by itself and
`stop` has not been called since.
-/
theorem session_faithful
    {instruments : List Bytes} {bookDepth : Int32} {s₀ : MarketDataRun R}
    (hcreate : create instruments bookDepth = some s₀)
    (hs : Reachable (Steps (step parse what)) s₀ s) :
    s.Faithful parse ∧
      ∀ t, s.step parse what .start = some t →
        (t.terminated = true ↔ s.running = false ∧ s.thread = some .ended) := by
  have hinv := inv_of_reachable hcreate hs
  refine ⟨hinv.faithful, fun t hstep => ?_⟩
  obtain ⟨hterm, ⟨-, hstop, hstart⟩ | ⟨hne, -⟩ | ⟨hne, -⟩ | ⟨hne, -⟩⟩ := step_cases hstep
  · rcases hstart with ⟨hrun, rfl⟩ | ⟨hrun, hthread, rfl⟩ | ⟨hrun, hthread, rfl⟩
    · simp [hterm, hrun]
    · obtain ⟨pc, hpc⟩ := Option.isSome_iff_exists.mp hthread
      refine iff_of_true rfl ⟨hrun, ?_⟩
      rw [hpc, hinv.idle hterm hrun hstop pc hpc]
    · simp [hterm, hthread]
  · cases hne
  · cases hne
  · exact absurd rfl hne

section Stopping

/-- The steps to the end of `run` when `running_` is cleared. -/
def rank : SessionPc R → Nat
  | .connecting => 4
  | .testRunning => 3
  | .reading => 5
  | .replying _ => 4
  | .closing => 2
  | .catching _ => 2
  | .clearRunning => 1
  | .ended => 0

def remaining (s : MarketDataRun R) : Nat :=
  (s.thread.map rank).getD 0

/-- The steps of the thread. -/
def threadSteps (_ : MarketDataRun R) : MarketDataAction → Nat
  | .start => 0
  | .stop => 0
  | .join => 0
  | _ => 1

omit [Double R] in
theorem rank_afterMessage_le (handled : Handled R) :
    rank (afterMessage what handled) ≤ 4 := by
  unfold afterMessage
  split
  · simp [rank]
  · split <;> simp [rank]

theorem runStep_stopping
    (hrun : s.running = false)
    {pc : SessionPc R} {a : MarketDataAction}
    (hstep : s.runStep parse what pc a = some t) :
    t.running = false ∧ t.terminated = s.terminated ∧ t.remaining + 1 ≤ rank pc ∧
      t.log.frames.length + s.log.late = s.log.frames.length + t.log.late := by
  unfold runStep at hstep
  split at hstep
  case h_3 =>
    cases hstep
    rw [hrun]
    exact ⟨rfl, rfl, Nat.le_refl _, rfl⟩
  case h_6 =>
    cases hstep
    refine ⟨hrun, rfl, Nat.succ_le_succ (rank_afterMessage_le _), ?_⟩
    simp only [record, hrun, List.length_append, List.length_singleton]
    simp only [Bool.false_eq_true, if_false]
    omega
  case h_12 => cases hstep
  all_goals
    cases hstep
    refine ⟨?_, rfl, by simp [remaining, rank], rfl⟩
    first | exact hrun | rfl

omit [Double R] in
theorem threadSteps_eq
    (s : MarketDataRun R) {a : MarketDataAction}
    (hstart : a ≠ .start)
    (hstop : a ≠ .stop)
    (hjoin : a ≠ .join) :
    s.threadSteps a = 1 := by
  cases a with
  | start => exact absurd rfl hstart
  | stop => exact absurd rfl hstop
  | join => exact absurd rfl hjoin
  | connect | test | read | write | close | catchException | clear => rfl

/-- A step while `running_` is cleared. -/
theorem step_stopping
    (hrun : s.running = false)
    {a : MarketDataAction}
    (hstart : a ≠ .start)
    (hstep : s.step parse what a = some t) :
    t.running = false ∧ t.terminated = false ∧ t.remaining + s.threadSteps a ≤ s.remaining ∧
      t.log.frames.length + s.log.late = s.log.frames.length + t.log.late := by
  obtain ⟨hterm, ⟨heq, -⟩ | ⟨rfl, -, rfl⟩ | ⟨rfl, -, -, rfl⟩ | ⟨-, hstop, hjoin, pc, hpc, hgo⟩⟩ :=
    step_cases hstep
  · exact absurd heq hstart
  · exact ⟨rfl, hterm, Nat.le_refl _, rfl⟩
  · exact ⟨hrun, hterm, Nat.zero_le _, rfl⟩
  · obtain ⟨hrun', hterm', hrank, hframes⟩ := runStep_stopping hrun hgo
    refine ⟨hrun', hterm'.trans hterm, ?_, hframes⟩
    rw [threadSteps_eq s hstart hstop hjoin]
    show _ ≤ (s.thread.map rank).getD 0
    rw [hpc]
    exact hrank

/-- Only the network can keep the thread waiting. -/
theorem exists_runStep
    (parse : Bytes → Option (Json R)) (what : JsonError → Bytes) (s : MarketDataRun R)
    {pc : SessionPc R}
    (hpc : pc ≠ .ended) :
    ∃ a, a ≠ .start ∧ a ≠ .stop ∧ a ≠ .join ∧ (s.runStep parse what pc a).isSome := by
  cases pc with
  | connecting => exact ⟨.connect none, by simp, by simp, by simp, rfl⟩
  | testRunning => exact ⟨.test, by simp, by simp, by simp, rfl⟩
  | reading => exact ⟨.read .closed, by simp, by simp, by simp, rfl⟩
  | replying reply => exact ⟨.write none, by simp, by simp, by simp, rfl⟩
  | closing => exact ⟨.close, by simp, by simp, by simp, rfl⟩
  | catching message => exact ⟨.catchException, by simp, by simp, by simp, rfl⟩
  | clearRunning => exact ⟨.clear, by simp, by simp, by simp, rfl⟩
  | ended => exact absurd rfl hpc

/-- Between the two halves of `stop` the flag is cleared. -/
theorem Inv.stopped
    (h : s.Inv parse)
    (hstop : s.stopping = true) :
    s.running = false ∧ s.terminated = false := by
  have hterm : s.terminated = false := by
    cases hdown : s.terminated with
    | false => rfl
    | true => exact absurd (h.down hdown) (by simp [hstop])
  refine ⟨?_, hterm⟩
  cases hup : s.running with
  | false => rfl
  | true => exact absurd (h.alive hterm hup).1 (by simp [hstop])

omit [Double R] in
theorem remaining_le
    (s : MarketDataRun R) :
    s.remaining ≤ 5 := by
  unfold remaining
  cases s.thread with
  | none => exact Nat.zero_le 5
  | some pc => cases pc <;> simp [rank]

/-- While `stop` waits, the thread can go on or has ended, so that the join can go on. -/
theorem join_or_threadStep
    (parse : Bytes → Option (Json R)) (what : JsonError → Bytes)
    (hdown : s.terminated = false)
    (hstopping : s.stopping = true) :
    (s.step parse what .join).isSome ∨
      ∃ a, s.threadSteps a = 1 ∧ (s.step parse what a).isSome := by
  by_cases hended : ∃ pc, s.thread = some pc ∧ pc ≠ .ended
  · right
    obtain ⟨pc, hpc, hne⟩ := hended
    obtain ⟨a, hstart, hstop, hjoin, hgo⟩ := exists_runStep parse what s hne
    exact ⟨a, threadSteps_eq s hstart hstop hjoin,
      by rwa [step_eq_runStep hdown hpc hstart hstop hjoin]⟩
  · left
    unfold MarketDataRun.step
    rw [if_neg (by simp [hdown])]
    cases hthread : s.thread with
    | none => simp [hstopping]
    | some pc =>
        have hpc : pc = .ended := by
          by_contra hne
          exact hended ⟨pc, hthread, hne⟩
        simp [hstopping, hpc]

/--
When `stop` has cleared `running_`, the thread makes five more steps at most and reads one
more message at most; until it has ended it can go on, whatever the network answers, and
then the join can.
-/
theorem stop_finishes
    {instruments : List Bytes} {bookDepth : Int32} {s₀ : MarketDataRun R}
    (hcreate : create instruments bookDepth = some s₀)
    (hs : Reachable (Steps (step parse what)) s₀ s)
    (hstop : s.stopping = true)
    {trace : List (MarketDataRun R × MarketDataAction)}
    (hrun : Execution (Steps (step parse what)) s trace t)
    (hcalls : ∀ p ∈ trace, p.2 ≠ .start) :
    Execution.total threadSteps trace ≤ 5 ∧
      t.log.frames.length ≤ s.log.frames.length + 1 ∧
      (t.stopping = true → (t.step parse what .join).isSome ∨
        ∃ a, t.threadSteps a = 1 ∧ (t.step parse what a).isSome) := by
  have hstopped := (inv_of_reachable hcreate hs).stopped hstop
  have hrule := Execution.measure remaining threadSteps (fun _ a => a ≠ .start)
    (I := fun u => (u.running = false ∧ u.terminated = false) ∧
      u.log.frames.length + s.log.late = s.log.frames.length + u.log.late)
    ⟨hstopped, rfl⟩ ?_ ?_ hrun hcalls
  · obtain ⟨⟨⟨-, hdown⟩, hframes⟩, hrule⟩ := hrule
    have hremaining := remaining_le s
    have hlate := (inv_of_reachable hcreate (hs.trans hrun.reachable)).faithful.late
    exact ⟨by omega, by omega, join_or_threadStep parse what hdown⟩
  · rintro u a v ⟨⟨hu, -⟩, hframes⟩ hstep hne
    obtain ⟨hv, hterm', -, hframes'⟩ := step_stopping hu hne hstep
    exact ⟨⟨hv, hterm'⟩, by omega⟩
  · rintro u a v ⟨⟨hu, -⟩, -⟩ hstep hne
    exact (step_stopping hu hne hstep).2.2.1

end Stopping

end Session

section Sample

/-- A heartbeat, and everything else is no JSON. -/
def parseSample (message : Bytes) : Option (Json ℚ) :=
  if message = text "\x7b\"id\":5,\"method\":\"public/heartbeat\"\x7d" then
    some (.object [("id", .ofUInt64 5), ("method", .string (text "public/heartbeat"))])
  else none

def sampleClient : MarketDataRun ℚ where
  instruments := [text "BTC_USDT"]
  bookDepth := 10
  running := false
  thread := none
  stopping := false
  terminated := false
  log := .empty

/-- The thread answers a heartbeat and is about to read when `stop` is called. -/
def startAndStop : List MarketDataAction :=
  [.start, .connect none, .test,
    .read (.message (text "\x7b\"id\":5,\"method\":\"public/heartbeat\"\x7d")),
    .write none, .test, .stop]

/-- It reads one more message. -/
def readAndEnd : List MarketDataAction :=
  [.read (.message (text "bye")), .test, .close, .clear]

/-- The connection is lost. -/
def loseConnection : List MarketDataAction :=
  [.start, .connect none, .test, .read (.failed (text "End of file")), .close, .clear]

theorem create_sampleClient :
    create [text "BTC_USDT"] 10 = some sampleClient :=
  rfl

theorem session_faithful_late_message :
    (∃ s : MarketDataRun ℚ, s.log.late = 1 ∧ s.log.sent.length = 2 ∧ s.Faithful parseSample) ∧
      ∃ s t : MarketDataRun ℚ, s.step parseSample (fun _ => []) .start = some t ∧
        t.terminated = true ∧ s.thread = some .ended := by
  constructor
  · have hrun : (runActions (step parseSample (fun _ => [])) sampleClient
        (startAndStop ++ readAndEnd)).map (fun s => (s.log.late, s.log.sent.length)) =
        some (1, 2) := by
      decide +kernel
    obtain ⟨s, hs, hview⟩ := Reachable.exists_of_runActions hrun
    obtain ⟨hlate, hsent⟩ := Prod.mk.inj hview
    exact ⟨s, hlate, hsent, (session_faithful create_sampleClient hs).1⟩
  · have hrun : ((runActions (step parseSample (fun _ => [])) sampleClient loseConnection).bind
        (fun s => s.step parseSample (fun _ => []) .start)).map MarketDataRun.terminated =
        some true := by
      decide +kernel
    obtain ⟨t, hview, hdown⟩ := Option.map_eq_some_iff.mp hrun
    obtain ⟨s, hs, hstart⟩ := Option.bind_eq_some_iff.mp hview
    have hreach := Reachable.of_runActions _ Reachable.init hs
    exact ⟨s, t, hstart, hdown,
      (((session_faithful create_sampleClient hreach).2 t hstart).mp hdown).2⟩

theorem stop_finishes_late_message :
    ∃ (s t : MarketDataRun ℚ) (trace : List (MarketDataRun ℚ × MarketDataAction)),
      s.stopping = true ∧ t.thread.map rank = some 0 ∧
        Execution.total threadSteps trace = 4 ∧ Execution.total threadSteps trace ≤ 5 := by
  have hview : ((runActions (step parseSample (fun _ => [])) sampleClient startAndStop).bind
      (fun s => (runTrace (step parseSample (fun _ => [])) s readAndEnd).map (fun p =>
        (s.stopping, p.2.thread.map rank, p.1.map (fun q => threadSteps q.1 q.2))))) =
      some (true, some 0, [1, 1, 1, 1]) := by
    decide +kernel
  obtain ⟨s, hs, hview⟩ := Option.bind_eq_some_iff.mp hview
  obtain ⟨⟨trace, t⟩, hrun, hview⟩ := Option.map_eq_some_iff.mp hview
  simp only [Prod.mk.injEq] at hview
  obtain ⟨hstop, hended, hsteps⟩ := hview
  have hexecution : Execution (Steps (step parseSample (fun _ => []))) s trace t :=
    Execution.of_runTrace readAndEnd Execution.init hrun
  have htotal : Execution.total threadSteps trace = 4 := by
    rw [Execution.total, hsteps]
    rfl
  refine ⟨s, t, trace, hstop, hended, htotal, (stop_finishes create_sampleClient
    (Reachable.of_runActions _ Reachable.init hs) hstop hexecution ?_).1⟩
  intro p hp hstart
  have hmem : threadSteps p.1 p.2 ∈ [1, 1, 1, 1] := by
    rw [← hsteps]
    exact List.mem_map_of_mem hp
  simp [hstart, threadSteps] at hmem

end Sample

end MarketDataRun

end Exchange
end CryptoHft
