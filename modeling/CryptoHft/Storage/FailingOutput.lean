import CryptoHft.Storage.FlushCommits

/-!
# An output stream that fails

A write to the file may fail after any part of a batch, and a failed
`std::ofstream` drops all later output.  `write_batch` does not look at the stream:
it puts the batch into `committed_events_` and counts it all the same.  `flush`
returns the state of the stream at its normal exit; after a timeout it returns what
the counters say.

`FailingRun` puts the stream under `JsonlRun`, whose file is the one that a stream
without failures would have written.  `committedMeansWritten_run_iff`: committed
events are in the file exactly as long as no batch is committed after a failure.
-/

namespace CryptoHft
namespace Storage

open Lib

structure FailingRun (ι γ φ R : Type) where
  /-- The storage; `run.storage.output` is what the stream was given to write. -/
  run : JsonlRun ι γ φ R
  /-- What has reached the file. -/
  file : Bytes
  /-- `output_.good()`. -/
  good : Bool
  /-- The number of events accepted before the last call of each `flush`. -/
  before : φ → Nat

inductive FailingAction (ι γ φ R : Type)
  | act (a : JsonlAction ι γ φ R)
  /-- The stream fails while the flusher writes a batch, with `n` bytes of it in the file. -/
  | failWrite (n : Nat)

namespace FailingRun

variable {ι γ φ R : Type}

def start (storage : JsonlAsyncStorage R) : FailingRun ι γ φ R where
  run := .start storage
  file := storage.output
  good := true
  before _ := 0

/-- The file after a step of the flusher in which the stream does not start to fail. -/
def put (json : JsonText R) (s : FailingRun ι γ φ R) : Bytes :=
  match s.run.flusher with
  | .writing batch => if s.good then s.file ++ batch.flatMap (line json) else s.file
  | _ => s.file

section Steps

variable [DecidableEq ι] [DecidableEq γ] [DecidableEq φ]

def step (json : JsonText R) (s : FailingRun ι γ φ R) :
    FailingAction ι γ φ R → Option (FailingRun ι γ φ R)
  | .act .flusher =>
      (s.run.flusherStep json).map (fun run => { s with run := run, file := s.put json })
  | .act (.callFlush k) =>
      (s.run.step json (.callFlush k)).map (fun run =>
        { s with run := run, before := Function.update s.before k s.run.log.length })
  | .act (.flush k timedOut) =>
      if s.run.flushes k = .flushFile then
        some { s with run := s.run.setFlush k (.returned s.good) }
      else (s.run.flushStep k timedOut).map (fun run => { s with run := run })
  | .act a => (s.run.step json a).map (fun run => { s with run := run })
  | .failWrite n =>
      match s.run.flusher with
      | .writing batch =>
          if s.good ∧ n < (batch.flatMap (line json)).length then
            (s.run.flusherStep json).map (fun run =>
              { s with
                run := run
                file := s.file ++ (batch.flatMap (line json)).take n
                good := false })
          else none
      | _ => none

end Steps

/-- A batch is committed only while the stream has not failed. -/
def CommitsWritten (s : FailingRun ι γ φ R) : FailingAction ι γ φ R → Prop
  | .act .flusher =>
      match s.run.flusher with
      | .committing _ => s.good = true
      | _ => True
  | _ => True

instance (s : FailingRun ι γ φ R) (a : FailingAction ι γ φ R) :
    Decidable (s.CommitsWritten a) :=
  match a with
  | .act .flusher =>
      match h : s.run.flusher with
      | .committing _ => decidable_of_iff (s.good = true) (by simp [CommitsWritten, h])
      | .waiting => isTrue (by simp [CommitsWritten, h])
      | .writing _ => isTrue (by simp [CommitsWritten, h])
      | .counting _ => isTrue (by simp [CommitsWritten, h])
      | .stopped => isTrue (by simp [CommitsWritten, h])
  | .act (.callAppend _ _) => isTrue trivial
  | .act (.append _ _) => isTrue trivial
  | .act (.callClose _) => isTrue trivial
  | .act (.close _) => isTrue trivial
  | .act (.callFlush _) => isTrue trivial
  | .act (.flush _ _) => isTrue trivial
  | .failWrite _ => isTrue trivial

/-- The committed events of this session. -/
def sessionEvents (base : JsonlAsyncStorage R) (s : FailingRun ι γ φ R) :
    List (StorageEvent R) :=
  s.run.storage.committedEvents.drop base.committedEvents.length

/-- Committed means written, from the storage `base` on. -/
structure CommittedMeansWritten (json : JsonText R) (base : JsonlAsyncStorage R)
    (s : FailingRun ι γ φ R) : Prop where
  /-- What `replay` can return of this session has its complete lines in the file. -/
  replayed : base.output ++ (s.sessionEvents base).flatMap (line json) <+: s.file
  /-- `committed` counts such events only, behind those that were loaded. -/
  counted : ∃ n ≤ (s.sessionEvents base).length,
    s.run.storage.committed = UInt64.ofNat (base.committedEvents.length + n)
  /-- A `flush` has returned true: the events accepted before the call are in the file. -/
  flushed : ∀ k, s.run.flushes k = .returned true →
    base.output ++
      (stampFrom base.nextOffset (s.run.log.take (s.before k))).flatMap (line json) <+: s.file

section Invariant

variable [DecidableEq ι] [DecidableEq γ] [DecidableEq φ]
variable {json : JsonText R} {base : JsonlAsyncStorage R} {s t : FailingRun ι γ φ R}

/-- What one step can do to the file, the stream and the committed events. -/
inductive Effect (json : JsonText R) (s : FailingRun ι γ φ R) (a : FailingAction ι γ φ R)
    (t : FailingRun ι γ φ R) : Prop
  | keeps (b : JsonlAction ι γ φ R)
      (hrun : s.run.step json b = some t.run)
      (houtput : t.run.storage.output = s.run.storage.output)
      (hevents : t.run.storage.committedEvents = s.run.storage.committedEvents)
      (hfile : t.file = s.file)
      (hgood : t.good = s.good)
      (hbefore : t.before = s.before ∨
        ∃ k, b = .callFlush k ∧ t.before = Function.update s.before k s.run.log.length)
      (hok : s.CommitsWritten a)
  | returns (k : φ)
      (hpc : s.run.flushes k = .flushFile)
      (ht : t = { s with run := s.run.setFlush k (.returned s.good) })
      (hok : s.CommitsWritten a)
  | writes (batch : List (StorageEvent R))
      (hrun : s.run.step json .flusher = some t.run)
      (houtput : t.run.storage.output = s.run.storage.output ++ batch.flatMap (line json))
      (hevents : t.run.storage.committedEvents = s.run.storage.committedEvents)
      (hfile : t.file = if s.good then s.file ++ batch.flatMap (line json) else s.file)
      (hgood : t.good = s.good)
      (hbefore : t.before = s.before)
      (hok : s.CommitsWritten a)
  | fails (batch : List (StorageEvent R)) (n : Nat)
      (hrun : s.run.step json .flusher = some t.run)
      (houtput : t.run.storage.output = s.run.storage.output ++ batch.flatMap (line json))
      (hevents : t.run.storage.committedEvents = s.run.storage.committedEvents)
      (hwas : s.good = true)
      (hn : n < (batch.flatMap (line json)).length)
      (hfile : t.file = s.file ++ (batch.flatMap (line json)).take n)
      (hgood : t.good = false)
      (hbefore : t.before = s.before)
      (hok : s.CommitsWritten a)
  | commits (batchSize : Nat)
      (hrun : s.run.step json .flusher = some t.run)
      (hpc : t.run.flusher = .counting batchSize)
      (houtput : t.run.storage.output = s.run.storage.output)
      (hfile : t.file = s.file)
      (hgood : t.good = s.good)
      (hbefore : t.before = s.before)
      (hok : s.CommitsWritten a ↔ s.good = true)

/-- A step of the storage that is none of the flusher and of no `flush` call. -/
theorem Effect.of_unmoved
    {a : FailingAction ι γ φ R} {b : JsonlAction ι γ φ R} {run : JsonlRun ι γ φ R}
    (hrun : s.run.step json b = some run)
    (hb : b ≠ .flusher)
    (hok : s.CommitsWritten a) :
    Effect json s a { s with run := run } := by
  rcases JsonlRun.step_moves hrun with ⟨hflusher, -⟩ | h | h
  · exact absurd hflusher hb
  · exact .keeps b hrun h.output h.committedEvents rfl rfl (.inl rfl) hok
  · exact .keeps b hrun h.output h.committedEvents rfl rfl (.inl rfl) hok

/-- The effect of a step of the flusher. -/
theorem effect_flusher
    (h : s.step json (.act .flusher) = some t) :
    Effect json s (.act .flusher) t := by
  obtain ⟨run, hrun, rfl⟩ := Option.map_eq_some_iff.mp h
  rcases (JsonlRun.flusherStep_moves hrun).2.2.2 with ⟨-, hevents, houtput, hpc, -⟩ |
    ⟨batch, hpc, -, -, hevents, houtput⟩ | ⟨batch, hpc, hafter, -, -, houtput⟩ |
    ⟨batchSize, hpc, -, -, hevents, houtput⟩
  · exact .keeps .flusher hrun houtput hevents (by simp [put, hpc]) rfl (.inl rfl)
      (by simp [CommitsWritten, hpc])
  · exact .writes batch hrun houtput hevents (by simp [put, hpc]) rfl rfl
      (by simp [CommitsWritten, hpc])
  · exact .commits batch.length hrun hafter houtput (by simp [put, hpc]) rfl rfl
      (by simp [CommitsWritten, hpc])
  · exact .keeps .flusher hrun houtput hevents (by simp [put, hpc]) rfl (.inl rfl)
      (by simp [CommitsWritten, hpc])

/-- What a step does. -/
theorem effect_of_step
    {a : FailingAction ι γ φ R}
    (h : s.step json a = some t) :
    Effect json s a t := by
  cases a with
  | act a =>
      cases a with
      | flusher =>
          exact effect_flusher h
      | callFlush k =>
          obtain ⟨run, hrun, rfl⟩ := Option.map_eq_some_iff.mp h
          have heq := JsonlRun.eq_of_callFlush hrun
          exact .keeps (.callFlush k) hrun (by rw [heq]; rfl) (by rw [heq]; rfl) rfl rfl
            (.inr ⟨k, rfl, rfl⟩) trivial
      | flush k timedOut =>
          simp only [step] at h
          split at h
          · rename_i hpc
            cases h
            exact .returns k hpc rfl trivial
          · obtain ⟨run, hrun, rfl⟩ := Option.map_eq_some_iff.mp h
            exact .of_unmoved (b := .flush k timedOut) hrun (by simp) trivial
      | callAppend | append | callClose | close =>
          obtain ⟨run, hrun, rfl⟩ := Option.map_eq_some_iff.mp h
          exact .of_unmoved hrun (by simp) trivial
  | failWrite n =>
      simp only [step] at h
      split at h
      · rename_i batch hpc
        split at h
        · rename_i hfails
          obtain ⟨run, hrun, rfl⟩ := Option.map_eq_some_iff.mp h
          have hrun' := hrun
          simp only [JsonlRun.flusherStep, hpc, Option.some.injEq] at hrun'
          subst hrun'
          exact .fails batch n hrun rfl rfl hfails.1 hfails.2 rfl rfl rfl trivial
        · cases h
      · cases h

/-- The invariant of the storage over a stream that may fail. -/
structure Inv (json : JsonText R) (base : JsonlAsyncStorage R) (s : FailingRun ι γ φ R) :
    Prop where
  run : s.run.Inv json base
  counts : s.run.Counts base
  good : s.good = true → s.file = s.run.storage.output
  failed : s.good = false → s.file.length < s.run.storage.output.length
  before : ∀ k, s.before k ≤ s.run.log.length
  sound : ∀ k, (s.run.flushes k).Sound (base.committedEvents.length + s.before k)
    s.run.storage.committedEvents.length

omit [DecidableEq ι] [DecidableEq γ] [DecidableEq φ] in
theorem inv_start
    (hqueue : base.queue = [])
    (hcount : base.accepted = base.committed)
    (haccepted : base.accepted = UInt64.ofNat base.committedEvents.length) :
    Inv json base (start base : FailingRun ι γ φ R) where
  run := JsonlRun.inv_start hqueue hcount
  counts := JsonlRun.counts_start haccepted (hcount ▸ haccepted)
  good _ := rfl
  failed h := by simp [start] at h
  before k := Nat.zero_le _
  sound k := trivial

/-- The run is within the range of the counters. -/
def Fits (base : JsonlAsyncStorage R) (s : FailingRun ι γ φ R) : Prop :=
  base.committedEvents.length + s.run.log.length < 2 ^ 64

theorem log_isPrefix
    {a : FailingAction ι γ φ R}
    (h : s.step json a = some t) :
    s.run.log <+: t.run.log := by
  cases effect_of_step h with
  | keeps b hrun =>
      exact (JsonlRun.step_grows hrun).1
  | returns k hpc ht =>
      rw [ht]
      exact List.prefix_rfl
  | writes batch hrun | fails batch n hrun | commits batchSize hrun =>
      exact (JsonlRun.step_grows hrun).1

theorem Fits.of_step
    {a : FailingAction ι γ φ R}
    (h : s.step json a = some t)
    (ht : t.Fits base) :
    s.Fits base :=
  lt_of_le_of_lt (Nat.add_le_add_left (log_isPrefix h).length_le _) ht

/-- What the calls of `flush` know after a step of the storage. -/
theorem Inv.sound_step
    (h : Inv json base s)
    (hfits : s.Fits base)
    {b : JsonlAction ι γ φ R}
    (hrun : s.run.step json b = some t.run)
    (hbefore : t.before = s.before ∨
      ∃ k, b = .callFlush k ∧ t.before = Function.update s.before k s.run.log.length)
    (k : φ) :
    t.before k ≤ t.run.log.length ∧
      (t.run.flushes k).Sound (base.committedEvents.length + t.before k)
        t.run.storage.committedEvents.length := by
  have hgrows := (JsonlRun.step_grows hrun).1.length_le
  have hkept : t.before k = s.before k → t.before k ≤ t.run.log.length ∧
      (t.run.flushes k).Sound (base.committedEvents.length + t.before k)
        t.run.storage.committedEvents.length := by
    intro heq
    rw [heq]
    exact ⟨(h.before k).trans hgrows, h.counts.sound_step hfits
      (Nat.add_le_add_left (h.before k) _) (h.sound k) hrun⟩
  rcases hbefore with hbefore | ⟨l, rfl, hbefore⟩
  · exact hkept (by rw [hbefore])
  · by_cases hkl : k = l
    · subst hkl
      -- the call has just been made
      have hlog : t.before k = s.run.log.length := by
        rw [hbefore, Function.update_self]
      have hcount : t.run.flushes k = .count := by
        rw [JsonlRun.eq_of_callFlush hrun]
        simp [JsonlRun.setFlush]
      rw [hlog, hcount]
      exact ⟨hgrows, trivial⟩
    · exact hkept (by rw [hbefore, Function.update_of_ne hkl])

omit [DecidableEq ι] [DecidableEq γ] in
/-- A call of `flush` moves to a point where it knows enough. -/
theorem Inv.setFlush
    (h : Inv json base s)
    (k : φ)
    {pc : FlushPc}
    (hpc : pc.Sound (base.committedEvents.length + s.before k)
      s.run.storage.committedEvents.length) :
    Inv json base { s with run := s.run.setFlush k pc } := by
  refine ⟨h.run.setFlush k _ s.run.storage.flushCount, ⟨h.counts.accepted, h.counts.committed⟩,
    h.good, h.failed, h.before, ?_⟩
  intro l
  by_cases hlk : l = k
  · subst hlk
    simpa [JsonlRun.setFlush] using hpc
  · show (Function.update s.run.flushes k pc l).Sound _ _
    rw [Function.update_of_ne hlk]
    exact h.sound l

/-- A step of the storage keeps the invariant, if the stream keeps its part. -/
theorem Inv.of_run_step
    (h : Inv json base s)
    (hfits : s.Fits base)
    {b : JsonlAction ι γ φ R}
    (hrun : s.run.step json b = some t.run)
    (hbefore : t.before = s.before ∨
      ∃ k, b = .callFlush k ∧ t.before = Function.update s.before k s.run.log.length)
    (hgood : t.good = true → t.file = t.run.storage.output)
    (hfailed : t.good = false → t.file.length < t.run.storage.output.length) :
    Inv json base t := by
  have hsound := h.sound_step hfits hrun hbefore
  exact ⟨h.run.step hrun, h.counts.step hrun, hgood, hfailed, fun k => (hsound k).1,
    fun k => (hsound k).2⟩

theorem Inv.step
    (h : Inv json base s)
    {a : FailingAction ι γ φ R}
    (hstep : s.step json a = some t)
    (ht : t.Fits base) :
    Inv json base t := by
  have hfits := ht.of_step hstep
  cases effect_of_step hstep with
  | keeps b hrun houtput hevents hfile hgood hbefore =>
      refine h.of_run_step hfits hrun hbefore ?_ ?_
      · rw [hfile, hgood, houtput]
        exact h.good
      · rw [hfile, hgood, houtput]
        exact h.failed
  | returns k hpc ht =>
      subst ht
      refine h.setFlush k ?_
      intro _
      have hsound := h.sound k
      rw [hpc] at hsound
      exact hsound
  | writes batch hrun houtput hevents hfile hgood hbefore =>
      refine h.of_run_step hfits hrun (.inl hbefore) ?_ ?_
      · intro hgood'
        rw [hgood] at hgood'
        rw [hfile, if_pos hgood', houtput, h.good hgood']
      · intro hgood'
        rw [hgood] at hgood'
        have hshort := h.failed hgood'
        rw [hfile, hgood', if_neg (by simp), houtput, List.length_append]
        omega
  | fails batch n hrun houtput hevents hwas hn hfile hgood hbefore =>
      refine h.of_run_step hfits hrun (.inl hbefore) ?_ ?_
      · intro hgood'
        rw [hgood] at hgood'
        cases hgood'
      · intro _
        rw [hfile, houtput, h.good hwas, List.length_append, List.length_append, List.length_take]
        omega
  | commits batchSize hrun hpc houtput hfile hgood hbefore =>
      refine h.of_run_step hfits hrun (.inl hbefore) ?_ ?_
      · rw [hfile, hgood, houtput]
        exact h.good
      · rw [hfile, hgood, houtput]
        exact h.failed

omit [DecidableEq ι] [DecidableEq γ] [DecidableEq φ] in
/-- The counter and the results of `flush` follow from the lines in the file. -/
theorem Inv.committedMeansWritten_iff
    (h : Inv json base s) :
    s.CommittedMeansWritten json base ↔
      base.output ++ (s.sessionEvents base).flatMap (line json) <+: s.file := by
  refine ⟨CommittedMeansWritten.replayed, fun hlines => ⟨hlines, ?_, ?_⟩⟩
  · obtain ⟨n, hn, hpending⟩ := h.counts.committed
    refine ⟨n, ?_, hn⟩
    rw [sessionEvents, List.length_drop]
    omega
  · intro k hk
    have hsound := h.sound k
    rw [hk] at hsound
    have hbefore := h.before k
    obtain ⟨hcommitted, -⟩ := h.run.committed_of_le (List.take_prefix (s.before k) s.run.log)
      (by simpa [Nat.min_eq_left hbefore] using hsound rfl)
    obtain ⟨session, hsession, -⟩ := h.run.file
    rw [hsession, List.prefix_append_right_inj] at hcommitted
    rw [sessionEvents, hsession, List.drop_left] at hlines
    refine List.IsPrefix.trans ?_ hlines
    rw [List.prefix_append_right_inj]
    exact hcommitted.flatMap (line json)

omit [DecidableEq ι] [DecidableEq γ] [DecidableEq φ] in
theorem committedMeansWritten_start
    (h : Inv json base (start base : FailingRun ι γ φ R)) :
    (start base : FailingRun ι γ φ R).CommittedMeansWritten json base :=
  h.committedMeansWritten_iff.mpr (by simp [start, sessionEvents, JsonlRun.start])

omit [DecidableEq ι] [DecidableEq γ] [DecidableEq φ] in
/-- Committing a batch keeps the promise exactly if the stream has not failed. -/
theorem Inv.written_commit
    (ht : Inv json base t)
    {batchSize : Nat}
    (hpc : t.run.flusher = .counting batchSize) :
    base.output ++ (t.sessionEvents base).flatMap (line json) <+: t.file ↔ t.good = true := by
  have houtput : t.run.storage.output =
      base.output ++ (t.sessionEvents base).flatMap (line json) := by
    obtain ⟨session, hsession, houtput⟩ := ht.run.file
    rw [sessionEvents, hsession, List.drop_left, houtput]
    simp [JsonlRun.written, hpc]
  rw [← houtput]
  cases hgood : t.good with
  | true =>
      simp [ht.good hgood]
  | false =>
      have hshort := ht.failed hgood
      refine iff_of_false ?_ (by simp)
      intro hstarts
      have hle := hstarts.length_le
      omega

/-- A step keeps the promise exactly if it commits no batch after a failure. -/
theorem Inv.written_step
    (h : Inv json base s)
    (hwritten : s.CommittedMeansWritten json base)
    {a : FailingAction ι γ φ R}
    (hstep : s.step json a = some t)
    (hfits : t.Fits base) :
    t.CommittedMeansWritten json base ↔ s.CommitsWritten a := by
  have ht := h.step hstep hfits
  have hlines := hwritten.replayed
  rw [ht.committedMeansWritten_iff]
  cases effect_of_step hstep with
  | keeps b hrun houtput hevents hfile hgood hbefore hok =>
      refine iff_of_true ?_ hok
      rw [sessionEvents, hevents, hfile]
      exact hlines
  | returns k hpc ht' hok =>
      subst ht'
      exact iff_of_true hlines hok
  | writes batch hrun houtput hevents hfile hgood hbefore hok =>
      refine iff_of_true ?_ hok
      rw [sessionEvents, hevents, hfile]
      split
      · exact hlines.trans (List.prefix_append _ _)
      · exact hlines
  | fails batch n hrun houtput hevents hwas hn hfile hgood hbefore hok =>
      refine iff_of_true ?_ hok
      rw [sessionEvents, hevents, hfile]
      exact hlines.trans (List.prefix_append _ _)
  | commits batchSize hrun hpc houtput hfile hgood hbefore hok =>
      rw [ht.written_commit hpc, hok, hgood]

variable [Double R] {config : JsonlAsyncStorageConfig} {file : Option Bytes}

/--
In every state of a run the committed events are in the file, `committed` counts
no others, and every `flush` that returned true tells the truth, exactly if no batch
is committed after the stream has failed.
-/
theorem committedMeansWritten_run_iff
    {trace : List (FailingRun ι γ φ R × FailingAction ι γ φ R)}
    (hrun : Execution (Steps (step json)) (start (.create json config file)) trace s)
    (hcount : (load json (file.getD [])).length + s.run.log.length < 2 ^ 64) :
    ((∀ p ∈ trace, p.1.CommittedMeansWritten json (.create json config file)) ∧
        s.CommittedMeansWritten json (.create json config file)) ↔
      ∀ p ∈ trace, p.1.CommitsWritten p.2 := by
  have hinit : (start (.create json config file) : FailingRun ι γ φ R).Inv json
      (.create json config file) :=
    inv_start rfl rfl rfl
  -- the counters have not come round in any state of the run
  have hbounded := hrun.within_bound (B := Fits (.create json config file))
    (fun _ _ _ hstep ht => ht.of_step hstep) hcount
  refine hbounded.forall_states_iff (committedMeansWritten_start hinit) ?_
  rintro u a v hu hwritten ⟨hstep, hfits⟩
  have hinv : u.Inv json (.create json config file) :=
    hu.invariant hinit (fun _ _ _ h hstep => h.step hstep.1 hstep.2)
  exact hinv.written_step hwritten hstep hfits

end Invariant

section TornLine

/-- A call of `append` and its steps. -/
def appendOne : List (FailingAction Unit Unit Unit ℚ) :=
  appendTrade.map FailingAction.act

/-- The stream fails at the first trade, while a `flush` waits for it. -/
def failAtFirst : List (FailingAction Unit Unit Unit ℚ) :=
  List.flatten
    [appendOne, [FailingAction.act .flusher],
      (JsonlRun.flushStorage.take 5).map FailingAction.act,
      [FailingAction.failWrite 3, FailingAction.act .flusher, FailingAction.act .flusher,
        FailingAction.act (.flush () true), FailingAction.act (.flush () false),
        FailingAction.act (.flush () false), FailingAction.act (.flush () false)]]

/--
The stream fails after three bytes of the line of a trade.  The trade is committed
and counted, and a `flush` that runs out of time returns true.
-/
theorem failed_write_committed :
    ∃ s : FailingRun Unit Unit Unit ℚ,
      Reachable (Steps (step btcJson)) (start (.create btcJson ⟨4, 2⟩ none)) s ∧
        s.file.length = 3 ∧ s.run.storage.committedEvents = [btcTrade] ∧
        s.run.storage.committed = 1 ∧ s.before () = 1 ∧ s.run.flushes () = .returned true ∧
        ¬ s.CommittedMeansWritten btcJson (.create btcJson ⟨4, 2⟩ none) := by
  have hrun : (runActions (step btcJson) (start (.create btcJson ⟨4, 2⟩ none))
      failAtFirst).map
        (fun s => (s.file.length, s.run.storage.committedEvents, s.run.storage.committed,
          s.before (), s.run.flushes ())) =
      some (3, [btcTrade], 1, 1, .returned true) := by
    decide +kernel
  obtain ⟨s, hs, hview⟩ := Reachable.exists_of_runActions hrun
  simp only [Prod.mk.injEq] at hview
  obtain ⟨hfile, hevents, hcommitted, hbefore, hreturned⟩ := hview
  refine ⟨s, hs, hfile, hevents, hcommitted, hbefore, hreturned, ?_⟩
  intro h
  have hle := h.replayed.length_le
  have hlines : ((sessionEvents (.create btcJson ⟨4, 2⟩ none) s).flatMap (line btcJson)).length =
      (line btcJson btcTrade).length := by
    rw [sessionEvents, hevents]
    simp [JsonlAsyncStorage.create, load, sortByOffset, scan, fileLines, splitLines]
  have hlong : 3 < (line btcJson btcTrade).length := by
    decide +kernel
  rw [List.length_append, hlines, hfile] at hle
  omega

end TornLine

end FailingRun

end Storage
end CryptoHft
