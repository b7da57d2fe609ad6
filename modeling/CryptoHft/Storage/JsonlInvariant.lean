import CryptoHft.Storage.JsonlStorage
import CryptoHft.Lib.Runs

/-!
# `JsonlAsyncStorage` loses, duplicates and reorders nothing

The invariant of the running storage, relative to the storage `base` as it was
opened.  The committed events, the batch in flight and the queue together are
always the events loaded at start followed by the accepted ones, stamped with
consecutive offsets; the file has the lines of the events written so far.  The
flusher stops only when `closed_` is set, the queue is empty and no `append` is
between its test of `closed_` and its push, and from then on nothing is accepted.
-/

namespace CryptoHft
namespace Storage

open Lib

/-- The points of `append` inside the critical section. -/
def AppendPc.holds {R : Type} : AppendPc R → Bool
  | .checkClosed _ => true
  | .push _ => true
  | .idle => false
  | .checkPayload _ => false
  | .lock _ => false
  | .returned _ => false

/-- The event of an `append` that has passed the test of the payload. -/
def AppendPc.checked {R : Type} : AppendPc R → Option (StorageEvent R)
  | .lock event => some event
  | .checkClosed event => some event
  | .push event => some event
  | .idle => none
  | .checkPayload _ => none
  | .returned _ => none

/-- The points of `close` after it has joined the flusher. -/
def ClosePc.joined : ClosePc → Bool
  | .closeFile => true
  | .resetDepth => true
  | .returned first => first
  | .idle => false
  | .exchange => false
  | .joining => false

namespace JsonlRun

variable {ι γ φ R : Type}

/-- The events that are in the file and not committed yet. -/
def written (s : JsonlRun ι γ φ R) : List (StorageEvent R) :=
  match s.flusher with
  | .committing batch => batch
  | _ => []

/-- The events whose lines a run has added to the file. -/
def lineEvents (base : JsonlAsyncStorage R) (s : JsonlRun ι γ φ R) : List (StorageEvent R) :=
  s.storage.committedEvents.drop base.committedEvents.length ++ s.written

structure Inv (json : JsonText R) (base : JsonlAsyncStorage R) (s : JsonlRun ι γ φ R) : Prop where
  sequence : s.storage.committedEvents ++ s.inFlight ++ s.storage.queue =
    base.committedEvents ++ stampFrom base.nextOffset s.log
  offset : s.storage.nextOffset = base.nextOffset + UInt64.ofNat s.log.length
  count : s.storage.accepted =
    s.storage.committed + UInt64.ofNat (s.uncounted + s.storage.queue.length)
  file : ∃ session, s.storage.committedEvents = base.committedEvents ++ session ∧
    s.storage.output = base.output ++ (session ++ s.written).flatMap (line json)
  holder : ∀ i, (s.appenders i).holds = true → s.queueMutex = some i
  stopped : s.flusher = .stopped →
    s.storage.closed = true ∧ s.storage.queue = [] ∧
      ∀ i event, s.appenders i ≠ .push event
  joined : ∀ j, (s.closers j).joined = true → s.flusher = .stopped

variable {json : JsonText R} {base : JsonlAsyncStorage R} {s t : JsonlRun ι γ φ R}

theorem inv_start
    (hqueue : base.queue = [])
    (hcount : base.accepted = base.committed) :
    Inv json base (start base : JsonlRun ι γ φ R) where
  sequence := by simp [start, inFlight, hqueue, stampFrom]
  offset := by simp [start]
  count := by simp [start, uncounted, hqueue, hcount]
  file := ⟨[], by simp [start], by simp [start, written]⟩
  holder i h := by simp [start, AppendPc.holds] at h
  stopped h := by simp [start] at h
  joined j h := by simp [start, ClosePc.joined] at h

/-- Draining, writing, committing and counting a batch. -/
theorem Inv.flusherStep
    (h : Inv json base s)
    (hstep : s.flusherStep json = some t) :
    Inv json base t := by
  have hjoined : s.flusher ≠ .stopped → ∀ j, (s.closers j).joined ≠ true :=
    fun hrun j hj => hrun (h.joined j hj)
  unfold JsonlRun.flusherStep at hstep
  obtain ⟨session, hcommitted, houtput⟩ := h.file
  have hsequence := h.sequence
  have hcount := h.count
  cases hpc : s.flusher with
  | stopped =>
      simp [hpc] at hstep
  | waiting =>
      have hnone := hjoined (by simp [hpc])
      simp only [hpc] at hstep
      simp only [inFlight, uncounted, written, hpc] at hsequence hcount houtput
      split at hstep
      · cases hstep
      · rename_i hfree
        split at hstep
        · rename_i hempty
          have hqueue : s.storage.queue = [] := List.isEmpty_iff.mp hempty
          cases hclosed : s.storage.closed with
          | false =>
              simp only [hclosed, Bool.false_eq_true, if_false, Option.some.injEq] at hstep
              subst hstep
              exact ⟨hsequence, h.offset, hcount, ⟨session, hcommitted, houtput⟩, h.holder,
                fun hstop => by simp at hstop, fun j hj => absurd hj (hnone j)⟩
          | true =>
              simp only [hclosed, if_true, Option.some.injEq] at hstep
              subst hstep
              refine ⟨hsequence, h.offset, hcount, ⟨session, hcommitted, houtput⟩, h.holder,
                fun _ => ⟨hclosed, hqueue, ?_⟩, fun j hj => absurd hj (hnone j)⟩
              intro i event hpush
              have hlock := h.holder i (congrArg AppendPc.holds hpush)
              simp [hlock] at hfree
        · simp only [Option.some.injEq] at hstep
          subst hstep
          refine ⟨?_, h.offset, ?_, ⟨session, hcommitted, houtput⟩, h.holder,
            fun hstop => by simp at hstop, fun j hj => absurd hj (hnone j)⟩
          · simp only [inFlight]
            rw [List.append_assoc, List.take_append_drop]
            simpa using hsequence
          · simp only [uncounted]
            rw [hcount, List.length_take, List.length_drop]
            congr 2
            omega
  | writing batch =>
      have hnone := hjoined (by simp [hpc])
      simp only [hpc, Option.some.injEq] at hstep
      simp only [inFlight, uncounted, written, hpc] at hsequence hcount houtput
      subst hstep
      refine ⟨hsequence, h.offset, hcount, ⟨session, hcommitted, ?_⟩, h.holder,
        fun hstop => by simp at hstop, fun j hj => absurd hj (hnone j)⟩
      simp only [written, houtput, List.append_nil, List.flatMap_append, List.append_assoc]
  | committing batch =>
      have hnone := hjoined (by simp [hpc])
      simp only [hpc, Option.some.injEq] at hstep
      simp only [inFlight, uncounted, written, hpc] at hsequence hcount houtput
      subst hstep
      refine ⟨?_, h.offset, hcount, ⟨session ++ batch, ?_, ?_⟩, h.holder,
        fun hstop => by simp at hstop, fun j hj => absurd hj (hnone j)⟩
      · simpa only [inFlight, List.append_nil] using hsequence
      · simp only [hcommitted, List.append_assoc]
      · simpa only [written, List.append_nil] using houtput
  | counting batchSize =>
      have hnone := hjoined (by simp [hpc])
      simp only [hpc, Option.some.injEq] at hstep
      simp only [inFlight, uncounted, written, hpc] at hsequence hcount houtput
      subst hstep
      refine ⟨hsequence, h.offset, ?_, ⟨session, hcommitted, houtput⟩, h.holder,
        fun hstop => by simp at hstop, fun j hj => absurd hj (hnone j)⟩
      simp only [uncounted]
      rw [hcount, UInt64.ofNat_add, ← UInt64.add_assoc, Nat.zero_add]

theorem flusherStep_frame
    (hstep : s.flusherStep json = some t) :
    t.appenders = s.appenders ∧ t.log = s.log := by
  unfold JsonlRun.flusherStep at hstep
  cases hpc : s.flusher with
  | stopped =>
      simp [hpc] at hstep
  | waiting =>
      simp only [hpc] at hstep
      split at hstep
      · cases hstep
      · split at hstep <;> cases hstep <;> exact ⟨rfl, rfl⟩
  | writing batch | committing batch | counting batchSize =>
      simp only [hpc, Option.some.injEq] at hstep
      subst hstep
      exact ⟨rfl, rfl⟩

/-- After the flusher has stopped, no `append` is about to push. -/
theorem Inv.not_stopped_of_push
    (h : Inv json base s)
    {i : ι} {event : StorageEvent R}
    (hpush : s.appenders i = .push event) :
    s.flusher ≠ .stopped :=
  fun hstop => (h.stopped hstop).2.2 i event hpush

theorem Inv.output_eq
    (h : Inv json base s) :
    s.storage.output = base.output ++ (s.lineEvents base).flatMap (line json) := by
  obtain ⟨session, hcommitted, houtput⟩ := h.file
  rw [lineEvents, hcommitted, List.drop_left, houtput]

/-- What the session has committed, and what is on its way, are the accepted events. -/
theorem Inv.exists_session
    (h : Inv json base s) :
    ∃ session, s.storage.committedEvents = base.committedEvents ++ session ∧
      session ++ (s.inFlight ++ s.storage.queue) = stampFrom base.nextOffset s.log ∧
      s.storage.output = base.output ++ (session ++ s.written).flatMap (line json) := by
  obtain ⟨session, hcommitted, houtput⟩ := h.file
  have hsequence := h.sequence
  rw [hcommitted, List.append_assoc, List.append_assoc] at hsequence
  exact ⟨session, hcommitted, List.append_cancel_left hsequence, houtput⟩

/-- The lines are those of the first events that were accepted. -/
theorem Inv.lineEvents_isPrefix
    (h : Inv json base s) :
    s.lineEvents base <+: stampFrom base.nextOffset s.log := by
  obtain ⟨session, hcommitted, hsession, -⟩ := h.exists_session
  have hwritten : s.written <+: s.inFlight ++ s.storage.queue := by
    unfold written inFlight
    cases s.flusher <;> simp
  rw [lineEvents, hcommitted, List.drop_left, ← hsession, List.prefix_append_right_inj]
  exact hwritten

/-- At every moment the file is a beginning of what the accepted events make of it. -/
theorem Inv.output_isPrefix
    (h : Inv json base s) :
    s.storage.output <+:
      base.output ++ (stampFrom base.nextOffset s.log).flatMap (line json) := by
  rw [h.output_eq, List.prefix_append_right_inj]
  exact h.lineEvents_isPrefix.flatMap (line json)

/-- What has happened when the `close` call that set `closed_` returns. -/
theorem Inv.closed
    (h : Inv json base s)
    {j : γ}
    (hj : s.closers j = .returned true) :
    s.storage.committedEvents =
        base.committedEvents ++ stampFrom base.nextOffset s.log ∧
      s.storage.output =
        base.output ++ (stampFrom base.nextOffset s.log).flatMap (line json) := by
  have hstop : s.flusher = .stopped := h.joined j (by rw [hj]; rfl)
  obtain ⟨-, hqueue, -⟩ := h.stopped hstop
  obtain ⟨session, hcommitted, hsession, houtput⟩ := h.exists_session
  simp only [inFlight, hstop, hqueue, List.append_nil] at hsession
  simp only [written, hstop, List.append_nil, hsession] at houtput
  exact ⟨by rw [hcommitted, hsession], houtput⟩

/-- Every event that is accepted, or past the test of its payload, passes that test. -/
structure Typed (s : JsonlRun ι γ φ R) : Prop where
  checked : ∀ i event, (s.appenders i).checked = some event → payloadMatchesType event = true
  log : ∀ e ∈ s.log, payloadMatchesType e.1 = true

/-- A step that leaves the appending threads alone. -/
theorem Typed.of_eq
    (h : Typed s)
    (happenders : t.appenders = s.appenders)
    (hlog : t.log = s.log) :
    Typed t :=
  ⟨fun i event => by rw [happenders]; exact h.checked i event, by rw [hlog]; exact h.log⟩

section Appenders

variable [DecidableEq ι]

@[simp] theorem appenders_setAppender_self (i : ι) (pc : AppendPc R) :
    (s.setAppender i pc).appenders i = pc := by
  simp [setAppender]

theorem appenders_setAppender_of_ne
    {i k : ι}
    (h : k ≠ i)
    {pc : AppendPc R} :
    (s.setAppender i pc).appenders k = s.appenders k := by
  simp [setAppender, h]

/-- A thread outside the critical section moves to a point outside of it. -/
theorem Inv.setAppender
    (h : Inv json base s)
    (i : ι) (pc : AppendPc R)
    (hpc : pc.holds = false) :
    Inv json base (s.setAppender i pc) := by
  refine ⟨h.sequence, h.offset, h.count, h.file, ?_, ?_, h.joined⟩
  · intro j hj
    by_cases hji : j = i
    · subst hji
      simp [hpc] at hj
    · rw [appenders_setAppender_of_ne hji] at hj
      exact h.holder j hj
  · intro hstop
    obtain ⟨hclosed, hqueue, hpush⟩ := h.stopped hstop
    refine ⟨hclosed, hqueue, ?_⟩
    intro j event hj
    by_cases hji : j = i
    · subst hji
      have hpush' : pc = .push event := by
        simpa using hj
      simp [hpush', AppendPc.holds] at hpc
    · rw [appenders_setAppender_of_ne hji] at hj
      exact hpush j event hj

/-- The thread in the critical section leaves it. -/
theorem Inv.unlock
    (h : Inv json base s)
    {i : ι}
    (hi : (s.appenders i).holds = true)
    (result : Bool) :
    Inv json base { s.setAppender i (.returned result) with queueMutex := none } := by
  have hset := h.setAppender i (.returned result) rfl
  refine ⟨hset.sequence, hset.offset, hset.count, hset.file, ?_, hset.stopped, hset.joined⟩
  intro j hj
  have hlock : s.queueMutex = some j := hset.holder j hj
  rw [h.holder i hi, Option.some.injEq] at hlock
  subst hlock
  simp [JsonlRun.setAppender, AppendPc.holds] at hj

/-- The only thread in the critical section moves inside it. -/
theorem Inv.enter
    (h : Inv json base s)
    {i : ι} {pc : AppendPc R}
    (hothers : ∀ j, (s.appenders j).holds = true → j = i)
    (hrun : ∀ event, pc = .push event → s.flusher ≠ .stopped) :
    Inv json base { s.setAppender i pc with queueMutex := some i } := by
  refine ⟨h.sequence, h.offset, h.count, h.file, ?_, ?_, h.joined⟩
  · intro j hj
    by_cases hji : j = i
    · rw [hji]
    · rw [appenders_setAppender_of_ne hji] at hj
      exact absurd (hothers j hj) hji
  · intro hstop
    obtain ⟨hclosed, hqueue, hpush⟩ := h.stopped hstop
    refine ⟨hclosed, hqueue, ?_⟩
    intro j event hj
    by_cases hji : j = i
    · subst hji
      have hpc : pc = .push event := by
        simpa using hj
      exact hrun event hpc hstop
    · rw [appenders_setAppender_of_ne hji] at hj
      exact hpush j event hj

theorem Inv.appendStep
    (h : Inv json base s)
    {i : ι} {nowNs : Int64}
    (hstep : s.appendStep i nowNs = some t) :
    Inv json base t := by
  unfold JsonlRun.appendStep at hstep
  cases hpc : s.appenders i with
  | idle | returned =>
      simp [hpc] at hstep
  | checkPayload event =>
      simp only [hpc] at hstep
      split at hstep
      · cases hstep
        exact h.setAppender i _ rfl
      · cases hstep
        exact h.setAppender i _ rfl
  | lock event =>
      simp only [hpc] at hstep
      split at hstep
      · cases hstep
      · rename_i hfree
        cases hstep
        refine h.enter ?_ ?_
        · intro j hj
          simp [h.holder j hj] at hfree
        · intro event' hpush
          cases hpush
  | checkClosed event =>
      have hholds : (s.appenders i).holds = true := by simp [hpc, AppendPc.holds]
      simp only [hpc] at hstep
      split at hstep
      · cases hstep
        exact h.unlock hholds false
      · rename_i hopen
        cases hstep
        have hlock := h.holder i hholds
        have hsame : s.setAppender i (.push event) =
            { s.setAppender i (.push event) with queueMutex := some i } := by
          simp [JsonlRun.setAppender, hlock]
        rw [hsame]
        refine h.enter ?_ ?_
        · intro j hj
          rw [h.holder j hj, Option.some.injEq] at hlock
          exact hlock
        · intro event' _ hstop
          exact hopen (h.stopped hstop).1
  | push event =>
      have hholds : (s.appenders i).holds = true := by simp [hpc, AppendPc.holds]
      simp only [hpc] at hstep
      split at hstep
      · cases hstep
        have hout := h.unlock hholds false
        exact ⟨hout.sequence, hout.offset, hout.count, hout.file, hout.holder, hout.stopped,
          hout.joined⟩
      · cases hstep
        have hout := h.unlock hholds true
        have hrun := h.not_stopped_of_push hpc
        refine ⟨?_, ?_, ?_, hout.file, hout.holder, fun hstop => absurd hstop hrun, hout.joined⟩
        · have hlast : stampFrom (base.nextOffset + UInt64.ofNat s.log.length)
              [(event, nowNs)] = [stamp s.storage.nextOffset nowNs event] := by
            simp [stampFrom, h.offset]
          have hsequence : s.storage.committedEvents ++ s.inFlight ++
              (s.storage.queue ++ [stamp s.storage.nextOffset nowNs event]) =
              base.committedEvents ++ stampFrom base.nextOffset (s.log ++ [(event, nowNs)]) := by
            rw [stampFrom_append, hlast, ← List.append_assoc, h.sequence, List.append_assoc]
          exact hsequence
        · show s.storage.nextOffset + 1 =
            base.nextOffset + UInt64.ofNat (s.log ++ [(event, nowNs)]).length
          rw [h.offset, List.length_append, UInt64.ofNat_add, ← UInt64.add_assoc]
          rfl
        · have hcount : s.storage.accepted + 1 = s.storage.committed + UInt64.ofNat
              (s.uncounted +
                (s.storage.queue ++ [stamp s.storage.nextOffset nowNs event]).length) := by
            rw [h.count, List.length_append, List.length_singleton, ← Nat.add_assoc,
              UInt64.ofNat_add _ 1, ← UInt64.add_assoc]
            rfl
          exact hcount

/-- What one step of `append` can do. -/
theorem appendStep_cases
    {i : ι} {nowNs : Int64}
    (hstep : s.appendStep i nowNs = some t) :
    (∃ event, s.appenders i = .push event ∧ t.appenders i = .returned true ∧
        t.log = s.log ++ [(event, nowNs)]) ∨
      (t.appenders i ≠ .returned true ∧ t.log = s.log ∧
        (t.storage = s.storage ∨
          (t.appenders i = .returned false ∧
            t.storage = { s.storage with
              rejectedBackpressure := s.storage.rejectedBackpressure + 1 }))) := by
  unfold appendStep at hstep
  cases hpc : s.appenders i with
  | idle | returned =>
      simp [hpc] at hstep
  | checkPayload event =>
      right
      simp only [hpc] at hstep
      split at hstep <;> cases hstep <;> simp [setAppender]
  | lock event =>
      right
      simp only [hpc] at hstep
      split at hstep
      · cases hstep
      · cases hstep
        simp [setAppender]
  | checkClosed event =>
      right
      simp only [hpc] at hstep
      split at hstep <;> cases hstep <;> simp [setAppender]
  | push event =>
      simp only [hpc] at hstep
      split at hstep
      · right
        cases hstep
        simp [setAppender]
      · left
        cases hstep
        exact ⟨event, rfl, by simp [setAppender], rfl⟩

/-- A step of `append` moves its own thread only. -/
theorem appendStep_frame
    {i : ι} {nowNs : Int64}
    (hstep : s.appendStep i nowNs = some t) :
    t.flusher = s.flusher ∧ ∀ k, k ≠ i → t.appenders k = s.appenders k := by
  unfold appendStep at hstep
  cases hpc : s.appenders i with
  | idle | returned =>
      simp [hpc] at hstep
  | checkPayload event | lock event | checkClosed event | push event =>
      simp only [hpc] at hstep
      split at hstep <;> cases hstep <;>
        exact ⟨rfl, fun k hk => Function.update_of_ne hk _ _⟩

theorem Typed.setAppender
    (h : Typed s)
    (i : ι) (pc : AppendPc R)
    (hpc : ∀ event, pc.checked = some event → payloadMatchesType event = true)
    {k : ι} {event : StorageEvent R}
    (hk : ((s.setAppender i pc).appenders k).checked = some event) :
    payloadMatchesType event = true := by
  by_cases hki : k = i
  · subst hki
    exact hpc event (by simpa using hk)
  · rw [appenders_setAppender_of_ne hki] at hk
    exact h.checked k event hk

theorem Typed.appendStep
    (h : Typed s)
    {i : ι} {nowNs : Int64}
    (hstep : s.appendStep i nowNs = some t) :
    Typed t := by
  have hchecked := h.checked i
  unfold JsonlRun.appendStep at hstep
  cases hpc : s.appenders i with
  | idle | returned =>
      simp [hpc] at hstep
  | checkPayload event =>
      simp only [hpc] at hstep
      split at hstep
      · rename_i hmatches
        cases hstep
        exact ⟨fun k e => h.setAppender i _ (by simpa [AppendPc.checked] using hmatches), h.log⟩
      · cases hstep
        exact ⟨fun k e => h.setAppender i _ (by simp [AppendPc.checked]), h.log⟩
  | lock event =>
      simp only [hpc] at hstep hchecked
      split at hstep
      · cases hstep
      · cases hstep
        exact ⟨fun k e => h.setAppender i (.checkClosed event) hchecked, h.log⟩
  | checkClosed event =>
      simp only [hpc] at hstep hchecked
      split at hstep
      · cases hstep
        exact ⟨fun k e => h.setAppender i _ (by simp [AppendPc.checked]), h.log⟩
      · cases hstep
        exact ⟨fun k e => h.setAppender i (.push event) hchecked, h.log⟩
  | push event =>
      simp only [hpc] at hstep hchecked
      split at hstep
      · cases hstep
        exact ⟨fun k e => h.setAppender i _ (by simp [AppendPc.checked]), h.log⟩
      · cases hstep
        refine ⟨fun k e => h.setAppender i _ (by simp [AppendPc.checked]), ?_⟩
        intro e he
        rcases List.mem_append.mp he with he | he
        · exact h.log e he
        · rw [List.mem_singleton.mp he]
          exact hchecked event rfl

end Appenders

section Closers

variable [DecidableEq γ]

@[simp] theorem closers_setCloser_self (j : γ) (pc : ClosePc) :
    (s.setCloser j pc).closers j = pc := by
  simp [setCloser]

theorem closers_setCloser_of_ne
    {j k : γ}
    (h : k ≠ j)
    {pc : ClosePc} :
    (s.setCloser j pc).closers k = s.closers k := by
  simp [setCloser, h]

theorem Inv.setCloser
    (h : Inv json base s)
    (j : γ) (pc : ClosePc)
    (hpc : pc.joined = true → s.flusher = .stopped) :
    Inv json base (s.setCloser j pc) := by
  refine ⟨h.sequence, h.offset, h.count, h.file, h.holder, h.stopped, ?_⟩
  intro k hk
  by_cases hkj : k = j
  · subst hkj
    exact hpc (by simpa using hk)
  · rw [closers_setCloser_of_ne hkj] at hk
    exact h.joined k hk

theorem Inv.closeStep
    (h : Inv json base s)
    {j : γ}
    (hstep : s.closeStep j = some t) :
    Inv json base t := by
  unfold JsonlRun.closeStep at hstep
  cases hpc : s.closers j with
  | idle | returned =>
      simp [hpc] at hstep
  | exchange =>
      simp only [hpc, Option.some.injEq] at hstep
      subst hstep
      have hset := h.setCloser j (if s.storage.closed then .returned false else .joining)
        (by split <;> simp [ClosePc.joined])
      exact ⟨hset.sequence, hset.offset, hset.count, hset.file, hset.holder,
        fun hstop => ⟨rfl, (hset.stopped hstop).2⟩, hset.joined⟩
  | joining =>
      simp only [hpc] at hstep
      split at hstep
      · rename_i hstop
        cases hstep
        exact h.setCloser j .closeFile (fun _ => hstop)
      · cases hstep
  | closeFile =>
      have hstop := h.joined j (by simp [hpc, ClosePc.joined])
      simp only [hpc, Option.some.injEq] at hstep
      subst hstep
      have hset := h.setCloser j .resetDepth (fun _ => hstop)
      exact ⟨hset.sequence, hset.offset, hset.count, hset.file, hset.holder, hset.stopped,
        hset.joined⟩
  | resetDepth =>
      have hstop := h.joined j (by simp [hpc, ClosePc.joined])
      simp only [hpc, Option.some.injEq] at hstep
      subst hstep
      have hset := h.setCloser j (.returned true) (fun _ => hstop)
      exact ⟨hset.sequence, hset.offset, hset.count, hset.file, hset.holder, hset.stopped,
        hset.joined⟩

/-- A step of `close` leaves the flusher and the appending threads alone. -/
theorem closeStep_frame
    {j : γ}
    (hstep : s.closeStep j = some t) :
    t.flusher = s.flusher ∧ t.appenders = s.appenders ∧ t.log = s.log := by
  unfold closeStep at hstep
  cases hpc : s.closers j with
  | idle | returned =>
      simp [hpc] at hstep
  | exchange | closeFile | resetDepth =>
      simp only [hpc, Option.some.injEq] at hstep
      subst hstep
      exact ⟨rfl, rfl, rfl⟩
  | joining =>
      simp only [hpc] at hstep
      split at hstep
      · cases hstep
        exact ⟨rfl, rfl, rfl⟩
      · cases hstep

end Closers

section Flushes

variable [DecidableEq φ]

/-- A step of `flush` changes its own point and `flush_count_` only. -/
theorem flushStep_cases
    {k : φ} {timedOut : Bool}
    (hstep : s.flushStep k timedOut = some t) :
    ∃ pc flushCount,
      t = { s.setFlush k pc with storage := { s.storage with flushCount := flushCount } } := by
  unfold flushStep at hstep
  cases hpc : s.flushes k with
  | idle | returned =>
      simp [hpc] at hstep
  | count | loadAccepted | loadCommitted | waiting | flushFile =>
      simp only [hpc, Option.some.injEq] at hstep
      subst hstep
      exact ⟨_, _, rfl⟩
  | loadQueued last accepted committed =>
      simp only [hpc] at hstep
      split at hstep
      · cases hstep
        exact ⟨_, _, rfl⟩
      · split at hstep <;> cases hstep <;> exact ⟨_, _, rfl⟩

theorem Inv.setFlush
    (h : Inv json base s)
    (k : φ) (pc : FlushPc) (flushCount : UInt64) :
    Inv json base
      { s.setFlush k pc with storage := { s.storage with flushCount := flushCount } } :=
  ⟨h.sequence, h.offset, h.count, h.file, h.holder, h.stopped, h.joined⟩

end Flushes

section Runs

variable [DecidableEq ι] [DecidableEq γ] [DecidableEq φ]

theorem eq_of_callAppend
    {i : ι} {event : StorageEvent R}
    (hstep : s.step json (.callAppend i event) = some t) :
    t = s.setAppender i (.checkPayload event) := by
  simp only [JsonlRun.step] at hstep
  split at hstep <;> cases hstep <;> rfl

theorem eq_of_callClose
    {j : γ}
    (hstep : s.step json (.callClose j) = some t) :
    t = s.setCloser j .exchange := by
  simp only [JsonlRun.step] at hstep
  split at hstep <;> cases hstep <;> rfl

theorem eq_of_callFlush
    {k : φ}
    (hstep : s.step json (.callFlush k) = some t) :
    t = s.setFlush k .count := by
  simp only [JsonlRun.step] at hstep
  split at hstep <;> cases hstep <;> rfl

theorem Inv.step
    (h : Inv json base s)
    {a : JsonlAction ι γ φ R}
    (hstep : s.step json a = some t) :
    Inv json base t := by
  cases a with
  | callAppend i event =>
      rw [eq_of_callAppend hstep]
      exact h.setAppender i _ rfl
  | append i nowNs =>
      exact h.appendStep hstep
  | flusher =>
      exact h.flusherStep hstep
  | callClose j =>
      rw [eq_of_callClose hstep]
      exact h.setCloser j _ (by simp [ClosePc.joined])
  | close j =>
      exact h.closeStep hstep
  | callFlush k =>
      rw [eq_of_callFlush hstep]
      exact h.setFlush k .count s.storage.flushCount
  | flush k timedOut =>
      obtain ⟨pc, flushCount, rfl⟩ := flushStep_cases hstep
      exact h.setFlush k pc flushCount

/-- Once the flusher has stopped it stays stopped, and nothing is accepted. -/
theorem Inv.step_of_stopped
    (h : Inv json base s)
    (hstop : s.flusher = .stopped)
    {a : JsonlAction ι γ φ R}
    (hstep : s.step json a = some t) :
    t.flusher = .stopped ∧ t.log = s.log := by
  cases a with
  | callAppend i event =>
      rw [eq_of_callAppend hstep]
      exact ⟨hstop, rfl⟩
  | append i nowNs =>
      rcases appendStep_cases hstep with ⟨event, hpush, -⟩ | ⟨-, hlog, -⟩
      · exact absurd hstop (h.not_stopped_of_push hpush)
      · exact ⟨(appendStep_frame hstep).1.trans hstop, hlog⟩
  | flusher =>
      simp [JsonlRun.step, JsonlRun.flusherStep, hstop] at hstep
  | callClose j =>
      rw [eq_of_callClose hstep]
      exact ⟨hstop, rfl⟩
  | close j =>
      obtain ⟨hflusher, -, hlog⟩ := closeStep_frame hstep
      exact ⟨hflusher.trans hstop, hlog⟩
  | callFlush k =>
      rw [eq_of_callFlush hstep]
      exact ⟨hstop, rfl⟩
  | flush k timedOut =>
      obtain ⟨pc, flushCount, rfl⟩ := flushStep_cases hstep
      exact ⟨hstop, rfl⟩

theorem Inv.log_of_stopped
    (h : Inv json base s)
    (hstop : s.flusher = .stopped)
    (ht : Reachable (Steps (JsonlRun.step json)) s t) :
    t.log = s.log := by
  have hstep : ∀ (u : JsonlRun ι γ φ R) a v,
      (Inv json base u ∧ u.flusher = .stopped ∧ u.log = s.log) →
      Steps (JsonlRun.step json) u a v →
      Inv json base v ∧ v.flusher = .stopped ∧ v.log = s.log := by
    rintro u a v ⟨hinv, hu, hlog⟩ hstep
    obtain ⟨hv, hlog'⟩ := hinv.step_of_stopped hu hstep
    exact ⟨hinv.step hstep, hv, hlog'.trans hlog⟩
  exact (ht.invariant ⟨h, hstop, rfl⟩ hstep).2.2

theorem Typed.step
    (h : Typed s)
    {a : JsonlAction ι γ φ R}
    (hstep : s.step json a = some t) :
    Typed t := by
  cases a with
  | callAppend i event =>
      rw [eq_of_callAppend hstep]
      exact ⟨fun k e => h.setAppender i _ (by simp [AppendPc.checked]), h.log⟩
  | append i nowNs =>
      exact h.appendStep hstep
  | flusher =>
      obtain ⟨happenders, hlog⟩ := flusherStep_frame hstep
      exact h.of_eq happenders hlog
  | callClose j =>
      rw [eq_of_callClose hstep]
      exact h.of_eq rfl rfl
  | close j =>
      obtain ⟨-, happenders, hlog⟩ := closeStep_frame hstep
      exact h.of_eq happenders hlog
  | callFlush k =>
      rw [eq_of_callFlush hstep]
      exact h.of_eq rfl rfl
  | flush k timedOut =>
      obtain ⟨pc, flushCount, rfl⟩ := flushStep_cases hstep
      exact h.of_eq rfl rfl

theorem typed_of_reachable
    (hs : Reachable (Steps (step json)) (start base) s) :
    Typed s := by
  refine hs.invariant ⟨?_, ?_⟩ (fun _ _ _ h hstep => h.step hstep)
  · intro i event h
    simp [start, AppendPc.checked] at h
  · intro e he
    simp [start] at he

theorem inv_of_reachable
    {config : JsonlAsyncStorageConfig} {file : Option Bytes} [Double R]
    (hs : Reachable (Steps (step json)) (start (.create json config file)) s) :
    Inv json (.create json config file) s :=
  hs.invariant (inv_start rfl rfl) (fun _ _ _ h hstep => h.step hstep)

end Runs

end JsonlRun
end Storage
end CryptoHft
