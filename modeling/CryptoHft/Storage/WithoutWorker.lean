import CryptoHft.Storage.FailingOutput

/-!
# The storage without a flusher thread

With `start_flusher_thread` off the calls of `flush`, and the one that `close`
makes, drain the queue and write the batches themselves (`flush_without_worker`).
The code of a batch is the flusher's, so the storage seen by the call that has a
batch in its hands is a `FailingRun` with this call for a flusher.

Several calls may have a batch in their hands.  Then events are committed out of
order, and the counters no longer say which events are in the file
(`overlapping_flushes_return_early`).  As long as no call drains a batch while
another has one, and none commits a batch after the stream has failed, committed
events are in the file.
-/

namespace CryptoHft
namespace Storage

open Lib

def FlusherPc.isWaiting {R : Type} : FlusherPc R → Bool
  | .waiting => true
  | .writing _ => false
  | .committing _ => false
  | .counting _ => false
  | .stopped => false

theorem FlusherPc.isWaiting_iff
    {R : Type} {pc : FlusherPc R} :
    pc.isWaiting = true ↔ pc = .waiting := by
  cases pc <;> simp [isWaiting]

/-- The calls of `flush` are those of users, `Sum.inl`, and those in `close`, `Sum.inr`. -/
structure DirectRun (ι γ φ R : Type) where
  /-- The storage, the stream, the calls of `append` and the loads of `flush`. -/
  shared : FailingRun ι Empty (φ ⊕ γ) R
  /-- The batch in the hands of a call of `flush`, if any, and its point in `write_batch`. -/
  writers : φ ⊕ γ → FlusherPc R
  /-- The points of `close`; at `joining` it calls `flush`. -/
  closers : γ → ClosePc

inductive DirectAction (ι γ φ R : Type)
  | callAppend (i : ι) (event : StorageEvent R)
  | append (i : ι) (nowNs : Int64)
  | callFlush (k : φ)
  /-- The loads at the head of the loop, and the normal exit. -/
  | flush (k : φ ⊕ γ)
  | deadline (k : φ ⊕ γ)
  | drainQueueBatch (k : φ ⊕ γ)
  | writeBatch (k : φ ⊕ γ)
  /-- The stream fails in `write_batch`, with `n` bytes of the batch in the file. -/
  | failWrite (k : φ ⊕ γ) (n : Nat)
  | callClose (j : γ)
  | close (j : γ)

namespace DirectRun

variable {ι γ φ R : Type}

def start (storage : JsonlAsyncStorage R) : DirectRun ι γ φ R where
  shared := .start storage
  writers _ := .waiting
  closers _ := .idle

/-- The storage with a call at the point `pc` of `write_batch` for a flusher. -/
def under (s : DirectRun ι γ φ R) (pc : FlusherPc R) : FailingRun ι Empty (φ ⊕ γ) R :=
  { s.shared with run := { s.shared.run with flusher := pc } }

def setStorage (s : DirectRun ι γ φ R) (storage : JsonlAsyncStorage R) : DirectRun ι γ φ R :=
  { s with shared := { s.shared with run := { s.shared.run with storage := storage } } }

section Steps

variable [DecidableEq γ] [DecidableEq φ]

def setFlush (s : DirectRun ι γ φ R) (k : φ ⊕ γ) (pc : FlushPc) : DirectRun ι γ φ R :=
  { s with shared := { s.shared with run := s.shared.run.setFlush k pc } }

def setCloser (s : DirectRun ι γ φ R) (j : γ) (pc : ClosePc) : DirectRun ι γ φ R :=
  { s with closers := Function.update s.closers j pc }

/-- The state after a step of the call `k` as a flusher. -/
def ofView (s : DirectRun ι γ φ R) (k : φ ⊕ γ) (t : FailingRun ι Empty (φ ⊕ γ) R) :
    DirectRun ι γ φ R :=
  { s with
    shared := { t with run := { t.run with flusher := .waiting } }
    writers := Function.update s.writers k t.run.flusher }

variable [DecidableEq ι]

/-- A step of `write_batch`; writing to a closed stream fails. -/
def writeBatchStep (json : JsonText R) (s : DirectRun ι γ φ R) (k : φ ⊕ γ) :
    Option (DirectRun ι γ φ R) :=
  match s.writers k with
  | .writing batch =>
      if s.shared.run.storage.outputOpen || !s.shared.good then
        ((s.under (.writing batch)).step json (.act .flusher)).map (s.ofView k)
      else none
  | .committing batch =>
      ((s.under (.committing batch)).step json (.act .flusher)).map (s.ofView k)
  | .counting batchSize =>
      -- the call goes back to the loads
      ((s.under (.counting batchSize)).step json (.act .flusher)).map
        (fun t => (s.ofView k t).setFlush k (.loadAccepted false))
  | .waiting => none
  | .stopped => none

/-- `drain_queue_batch`; with an empty queue the call sleeps and loads again. -/
def drainStep (json : JsonText R) (s : DirectRun ι γ φ R) (k : φ ⊕ γ) :
    Option (DirectRun ι γ φ R) :=
  if s.shared.run.flushes k = .waiting ∧ (s.writers k).isWaiting ∧
      s.shared.run.queueMutex.isNone then
    if s.shared.run.storage.queue.isEmpty then some (s.setFlush k (.loadAccepted false))
    else ((s.under .waiting).step json (.act .flusher)).map (s.ofView k)
  else none

def closeStep (json : JsonText R) (s : DirectRun ι γ φ R) (j : γ) :
    Option (DirectRun ι γ φ R) :=
  match s.closers j with
  | .idle => none
  | .exchange =>
      some ((s.setCloser j (if s.shared.run.storage.closed then .returned false
        else .joining)).setStorage { s.shared.run.storage with closed := true })
  | .joining =>
      match s.shared.run.flushes (.inr j) with
      | .idle =>
          (s.shared.step json (.act (.callFlush (.inr j)))).map (fun t => { s with shared := t })
      | .returned _ => some (s.setCloser j .closeFile)
      | _ => none
  | .closeFile =>
      some ((s.setCloser j .resetDepth).setStorage
        { s.shared.run.storage with outputOpen := false })
  | .resetDepth =>
      some ((s.setCloser j (.returned true)).setStorage
        { s.shared.run.storage with queueDepth := 0 })
  | .returned _ => none

def step (json : JsonText R) (s : DirectRun ι γ φ R) :
    DirectAction ι γ φ R → Option (DirectRun ι γ φ R)
  | .callAppend i event =>
      (s.shared.step json (.act (.callAppend i event))).map (fun t => { s with shared := t })
  | .append i nowNs =>
      (s.shared.step json (.act (.append i nowNs))).map (fun t => { s with shared := t })
  | .callFlush k =>
      (s.shared.step json (.act (.callFlush (.inl k)))).map (fun t => { s with shared := t })
  | .flush k =>
      if s.shared.run.flushes k = .waiting then none
      else (s.shared.step json (.act (.flush k false))).map (fun t => { s with shared := t })
  | .deadline k =>
      if s.shared.run.flushes k = .waiting ∧ (s.writers k).isWaiting then
        some (s.setFlush k (.returned false))
      else none
  | .drainQueueBatch k => s.drainStep json k
  | .writeBatch k => s.writeBatchStep json k
  | .failWrite k n =>
      if s.shared.run.storage.outputOpen || decide (n = 0) then
        ((s.under (s.writers k)).step json (.failWrite n)).map (s.ofView k)
      else none
  | .callClose j =>
      match s.closers j with
      | .idle => some (s.setCloser j .exchange)
      | .returned _ => some (s.setCloser j .exchange)
      | _ => none
  | .close j => s.closeStep json j

end Steps

/--
No call drains a batch while another has one, and a batch is committed only while
the stream has not failed.
-/
def Orderly (s : DirectRun ι γ φ R) : DirectAction ι γ φ R → Prop
  | .drainQueueBatch _ => s.shared.run.storage.queue ≠ [] → ∀ l, s.writers l = .waiting
  | .writeBatch k => (s.under (s.writers k)).CommitsWritten (.act .flusher)
  | _ => True

instance [Fintype φ] [Fintype γ] (s : DirectRun ι γ φ R) (a : DirectAction ι γ φ R) :
    Decidable (s.Orderly a) :=
  match a with
  | .drainQueueBatch _ =>
      decidable_of_iff (s.shared.run.storage.queue.isEmpty = false →
          ∀ l, (s.writers l).isWaiting = true)
        (by simp [Orderly, FlusherPc.isWaiting_iff])
  | .writeBatch k =>
      inferInstanceAs (Decidable ((s.under (s.writers k)).CommitsWritten (.act .flusher)))
  | .callAppend _ _ => isTrue trivial
  | .append _ _ => isTrue trivial
  | .callFlush _ => isTrue trivial
  | .flush _ => isTrue trivial
  | .deadline _ => isTrue trivial
  | .failWrite _ _ => isTrue trivial
  | .callClose _ => isTrue trivial
  | .close _ => isTrue trivial

section Effects

variable [DecidableEq ι] [DecidableEq γ] [DecidableEq φ]
variable {json : JsonText R} {base : JsonlAsyncStorage R} {s t : DirectRun ι γ φ R}

/-- The steps of `append` and `flush` that are the same with a flusher thread. -/
def ofCaller : JsonlAction ι Empty (φ ⊕ γ) R → Prop
  | .callAppend _ _ => True
  | .append _ _ => True
  | .callFlush _ => True
  | .flush _ _ => True
  | .flusher => False
  | .callClose _ => False
  | .close _ => False

/-- What one step can do. -/
inductive Effect (json : JsonText R) (s : DirectRun ι γ φ R) (a : DirectAction ι γ φ R)
    (t : DirectRun ι γ φ R) : Prop
  | shares (b : JsonlAction ι Empty (φ ⊕ γ) R)
      (hb : ofCaller b)
      (hstep : s.shared.step json (.act b) = some t.shared)
      (hwriters : t.writers = s.writers)
  | sets (k : φ ⊕ γ) (pc : FlushPc)
      (hpc : pc = .returned false ∨ pc = .loadAccepted false)
      (ht : t = s.setFlush k pc)
  | releases (closed outputOpen : Bool) (queueDepth : UInt64)
      (hclosed : s.shared.run.storage.closed = true → closed = true)
      (hshared : t.shared = { s.shared with run := { s.shared.run with
        storage := { s.shared.run.storage with
          closed := closed, outputOpen := outputOpen, queueDepth := queueDepth } } })
      (hwriters : t.writers = s.writers)
  | writes (k : φ ⊕ γ) (b : FailingAction ι Empty (φ ⊕ γ) R)
      (v : FailingRun ι Empty (φ ⊕ γ) R)
      (hstep : (s.under (s.writers k)).step json b = some v)
      (hok : s.Orderly a → (s.under (s.writers k)).CommitsWritten b ∧
        ∀ l, l ≠ k → s.writers k = .waiting → s.writers l = .waiting)
      (ht : t = s.ofView k v ∨ t = (s.ofView k v).setFlush k (.loadAccepted false))

/-- The effect of a step of `write_batch`. -/
theorem effect_writeBatch
    {k : φ ⊕ γ}
    (h : s.writeBatchStep json k = some t) :
    Effect json s (.writeBatch k) t := by
  have hothers : s.writers k ≠ .waiting → ∀ l, l ≠ k → s.writers k = .waiting →
      s.writers l = .waiting :=
    fun hne _ _ heq => absurd heq hne
  unfold writeBatchStep at h
  cases hpc : s.writers k with
  | waiting | stopped =>
      simp [hpc] at h
  | writing batch =>
      simp only [hpc] at h
      split at h
      · obtain ⟨v, hv, rfl⟩ := Option.map_eq_some_iff.mp h
        exact .writes k (.act .flusher) v (by rw [hpc]; exact hv)
          (fun hok => ⟨hok, hothers (by simp [hpc])⟩) (.inl rfl)
      · cases h
  | committing batch =>
      simp only [hpc] at h
      obtain ⟨v, hv, rfl⟩ := Option.map_eq_some_iff.mp h
      exact .writes k (.act .flusher) v (by rw [hpc]; exact hv)
        (fun hok => ⟨hok, hothers (by simp [hpc])⟩) (.inl rfl)
  | counting batchSize =>
      simp only [hpc] at h
      obtain ⟨v, hv, rfl⟩ := Option.map_eq_some_iff.mp h
      exact .writes k (.act .flusher) v (by rw [hpc]; exact hv)
        (fun hok => ⟨hok, hothers (by simp [hpc])⟩) (.inr rfl)

theorem effect_drain
    {k : φ ⊕ γ}
    (h : s.drainStep json k = some t) :
    Effect json s (.drainQueueBatch k) t := by
  unfold drainStep at h
  split at h
  · rename_i hbody
    have hk := FlusherPc.isWaiting_iff.mp hbody.2.1
    split at h
    · cases h
      exact .sets k _ (.inr rfl) rfl
    · rename_i hqueue
      obtain ⟨v, hv, rfl⟩ := Option.map_eq_some_iff.mp h
      refine .writes k (.act .flusher) v (by rw [hk]; exact hv) ?_ (.inl rfl)
      intro hok
      have hnone := hok (fun hempty => hqueue (by rw [hempty]; rfl))
      exact ⟨by simp [under, FailingRun.CommitsWritten, hk], fun l _ _ => hnone l⟩
  · cases h

theorem effect_close
    {j : γ}
    (h : s.closeStep json j = some t) :
    Effect json s (.close j) t := by
  unfold closeStep at h
  cases hpc : s.closers j with
  | idle | returned =>
      simp [hpc] at h
  | exchange =>
      simp only [hpc, Option.some.injEq] at h
      subst h
      exact .releases true s.shared.run.storage.outputOpen s.shared.run.storage.queueDepth
        (fun _ => rfl) rfl rfl
  | joining =>
      simp only [hpc] at h
      split at h
      · obtain ⟨v, hv, rfl⟩ := Option.map_eq_some_iff.mp h
        exact .shares (.callFlush (.inr j)) trivial hv rfl
      · cases h
        exact .releases s.shared.run.storage.closed s.shared.run.storage.outputOpen
          s.shared.run.storage.queueDepth id rfl rfl
      · cases h
  | closeFile =>
      simp only [hpc, Option.some.injEq] at h
      subst h
      exact .releases s.shared.run.storage.closed false s.shared.run.storage.queueDepth
        id rfl rfl
  | resetDepth =>
      simp only [hpc, Option.some.injEq] at h
      subst h
      exact .releases s.shared.run.storage.closed s.shared.run.storage.outputOpen 0 id rfl rfl

/-- What a step does. -/
theorem effect_of_step
    {a : DirectAction ι γ φ R}
    (h : s.step json a = some t) :
    Effect json s a t := by
  cases a with
  | callAppend i event =>
      obtain ⟨v, hv, rfl⟩ := Option.map_eq_some_iff.mp h
      exact .shares (.callAppend i event) trivial hv rfl
  | append i nowNs =>
      obtain ⟨v, hv, rfl⟩ := Option.map_eq_some_iff.mp h
      exact .shares (.append i nowNs) trivial hv rfl
  | callFlush k =>
      obtain ⟨v, hv, rfl⟩ := Option.map_eq_some_iff.mp h
      exact .shares (.callFlush (.inl k)) trivial hv rfl
  | flush k =>
      simp only [step] at h
      split at h
      · cases h
      · obtain ⟨v, hv, rfl⟩ := Option.map_eq_some_iff.mp h
        exact .shares (.flush k false) trivial hv rfl
  | deadline k =>
      simp only [step] at h
      split at h
      · cases h
        exact .sets k _ (.inl rfl) rfl
      · cases h
  | drainQueueBatch k =>
      exact effect_drain h
  | writeBatch k =>
      exact effect_writeBatch h
  | failWrite k n =>
      simp only [step] at h
      split at h
      · obtain ⟨v, hv, rfl⟩ := Option.map_eq_some_iff.mp h
        refine .writes k (.failWrite n) v hv ?_ (.inl rfl)
        intro _
        refine ⟨trivial, ?_⟩
        intro l _ hk
        rw [hk] at hv
        cases hv
      · cases h
  | callClose j =>
      simp only [step] at h
      split at h <;> cases h <;> exact .releases s.shared.run.storage.closed
        s.shared.run.storage.outputOpen s.shared.run.storage.queueDepth id rfl rfl
  | close j =>
      exact effect_close h

end Effects

section Invariant

variable [DecidableEq ι] [DecidableEq γ] [DecidableEq φ]
variable {json : JsonText R} {base : JsonlAsyncStorage R} {s t : DirectRun ι γ φ R}

/-- At most one call has a batch in its hands; its point in `write_batch` is `pc`. -/
inductive HeldAt (s : DirectRun ι γ φ R) : FlusherPc R → Prop
  | nowhere (hnone : ∀ k, s.writers k = .waiting) : HeldAt s .waiting
  | writer (k : φ ⊕ γ) (hothers : ∀ l, l ≠ k → s.writers l = .waiting) : HeldAt s (s.writers k)

/-- The writer is the flusher of a storage over a stream that may fail. -/
def Inv (json : JsonText R) (base : JsonlAsyncStorage R) (s : DirectRun ι γ φ R) : Prop :=
  ∃ pc, s.HeldAt pc ∧ (s.under pc).Inv json base ∧ (s.under pc).CommittedMeansWritten json base

omit [DecidableEq ι] [DecidableEq γ] [DecidableEq φ] in
theorem inv_start
    (hqueue : base.queue = [])
    (hcount : base.accepted = base.committed)
    (haccepted : base.accepted = UInt64.ofNat base.committedEvents.length) :
    Inv json base (start base : DirectRun ι γ φ R) :=
  have hinit := FailingRun.inv_start hqueue hcount haccepted
  ⟨.waiting, .nowhere (fun _ => rfl), hinit, FailingRun.committedMeansWritten_start hinit⟩

omit [DecidableEq ι] in
/-- If the others have no batch, the storage is seen by the call `k`. -/
theorem Inv.under_writer
    (h : Inv json base s)
    {k : φ ⊕ γ}
    (hothers : ∀ l, l ≠ k → s.writers k = .waiting → s.writers l = .waiting) :
    (∀ l, l ≠ k → s.writers l = .waiting) ∧ (s.under (s.writers k)).Inv json base ∧
      (s.under (s.writers k)).CommittedMeansWritten json base := by
  obtain ⟨pc, hheld, hinv, hwritten⟩ := h
  cases hheld with
  | nowhere hnone =>
      rw [hnone k]
      exact ⟨fun l _ => hnone l, hinv, hwritten⟩
  | writer j hj =>
      by_cases hjk : k = j
      · subst hjk
        exact ⟨hj, hinv, hwritten⟩
      · have hk := hj k hjk
        have hall : ∀ l, l ≠ k → s.writers l = .waiting := fun l hl => hothers l hl hk
        refine ⟨hall, ?_⟩
        rw [hk, ← hall j (fun heq => hjk heq.symm)]
        exact ⟨hinv, hwritten⟩

/-- A step of a caller does not look at the flusher. -/
theorem step_setFlusher
    (json : JsonText R)
    (r : JsonlRun ι Empty (φ ⊕ γ) R)
    {b : JsonlAction ι Empty (φ ⊕ γ) R}
    (hb : ofCaller b)
    (pc : FlusherPc R) :
    JsonlRun.step json { r with flusher := pc } b =
      (r.step json b).map (fun q => { q with flusher := pc }) := by
  cases b with
  | flusher | callClose | close =>
      exact hb.elim
  | callAppend i event =>
      simp only [JsonlRun.step]
      cases r.appenders i <;> rfl
  | append i nowNs =>
      simp only [JsonlRun.step, JsonlRun.appendStep]
      cases r.appenders i with
      | idle | returned =>
          rfl
      | checkPayload | lock | checkClosed | push =>
          dsimp only
          split <;> rfl
  | callFlush k =>
      simp only [JsonlRun.step]
      cases r.flushes k <;> rfl
  | flush k timedOut =>
      simp only [JsonlRun.step, JsonlRun.flushStep]
      cases r.flushes k with
      | idle | count | loadAccepted | loadCommitted | waiting | flushFile | returned =>
          rfl
      | loadQueued last accepted committed =>
          dsimp only
          split
          · rfl
          · split <;> rfl

theorem step_under
    {b : JsonlAction ι Empty (φ ⊕ γ) R}
    (hb : ofCaller b)
    (hstep : s.shared.step json (.act b) = some t.shared)
    (pc : FlusherPc R) :
    (s.under pc).step json (.act b) = some (t.under pc) := by
  have hsame := step_setFlusher json s.shared.run hb pc
  cases b with
  | flusher | callClose | close =>
      exact hb.elim
  | callAppend | append | callFlush =>
      obtain ⟨run, hrun, hshared⟩ := Option.map_eq_some_iff.mp hstep
      rw [hrun] at hsame
      simp only [FailingRun.step, under, hsame, ← hshared, Option.map_some]
  | flush k timedOut =>
      simp only [FailingRun.step] at hstep ⊢
      split at hstep
      · rename_i hpc
        rw [if_pos (by exact hpc)]
        simp only [Option.some.injEq] at hstep
        simp only [under, ← hstep, Option.some.injEq]
        rfl
      · rename_i hpc
        obtain ⟨run, hrun, hshared⟩ := Option.map_eq_some_iff.mp hstep
        rw [if_neg (by exact hpc)]
        have hrun' : s.shared.run.step json (.flush k timedOut) = some run := hrun
        rw [hrun'] at hsame
        simp only [under, ← hshared]
        exact congrArg (Option.map _) hsame

omit [DecidableEq ι] [DecidableEq γ] [DecidableEq φ] in
theorem HeldAt.of_writers
    {pc : FlusherPc R}
    (h : s.HeldAt pc)
    (hwriters : t.writers = s.writers) :
    t.HeldAt pc := by
  cases h with
  | nowhere hnone =>
      exact .nowhere (fun k => by rw [hwriters, hnone k])
  | writer k hothers =>
      rw [← hwriters]
      exact .writer k (fun l hl => by rw [hwriters, hothers l hl])

omit [DecidableEq ι] in
/-- A call of `flush` returns false, or goes back to the loads. -/
theorem Inv.setFlush
    (h : Inv json base s)
    (k : φ ⊕ γ)
    {pc : FlushPc}
    (hpc : pc = .returned false ∨ pc = .loadAccepted false) :
    Inv json base (s.setFlush k pc) := by
  obtain ⟨writer, hheld, hinv, hwritten⟩ := h
  have hsound : pc.Sound (base.committedEvents.length + s.shared.before k)
      s.shared.run.storage.committedEvents.length := by
    rcases hpc with rfl | rfl
    · intro hfalse
      cases hfalse
    · trivial
  have hset : ((s.setFlush k pc).under writer).Inv json base := hinv.setFlush k hsound
  exact ⟨writer, hheld.of_writers rfl, hset, hset.committedMeansWritten_iff.mpr hwritten.replayed⟩

omit [DecidableEq ι] [DecidableEq γ] [DecidableEq φ] in
/-- A step of `close` does not move events. -/
theorem Inv.release
    (h : Inv json base s)
    {closed outputOpen : Bool} {queueDepth : UInt64}
    (hclosed : s.shared.run.storage.closed = true → closed = true)
    (hshared : t.shared = { s.shared with run := { s.shared.run with
      storage := { s.shared.run.storage with
        closed := closed, outputOpen := outputOpen, queueDepth := queueDepth } } })
    (hwriters : t.writers = s.writers) :
    Inv json base t := by
  obtain ⟨pc, hheld, hinv, hwritten⟩ := h
  refine ⟨pc, hheld.of_writers hwriters, ?_, ?_⟩
  · rw [under, hshared]
    have hrun := hinv.run
    refine ⟨⟨hrun.sequence, hrun.offset, hrun.count, hrun.file, hrun.holder, ?_, hrun.joined⟩,
      ⟨hinv.counts.accepted, hinv.counts.committed⟩, hinv.good, hinv.failed, hinv.before,
      hinv.sound⟩
    intro hstop
    obtain ⟨hwas, hqueue, hpush⟩ := hrun.stopped hstop
    exact ⟨hclosed hwas, hqueue, hpush⟩
  · rw [under, hshared]
    exact ⟨hwritten.replayed, hwritten.counted, hwritten.flushed⟩

omit [DecidableEq ι] in
/-- The only writer has made a step. -/
theorem Inv.of_view
    {k : φ ⊕ γ} {v : FailingRun ι Empty (φ ⊕ γ) R}
    (hothers : ∀ l, l ≠ k → s.writers l = .waiting)
    (hinv : v.Inv json base)
    (hwritten : v.CommittedMeansWritten json base) :
    Inv json base (s.ofView k v) := by
  have hheld : (s.ofView k v).HeldAt ((s.ofView k v).writers k) := by
    refine .writer k ?_
    intro l hl
    exact (Function.update_of_ne hl _ _).trans (hothers l hl)
  have hview : (s.ofView k v).under ((s.ofView k v).writers k) = v := by
    simp [ofView, under]
  refine ⟨_, hheld, ?_⟩
  rw [hview]
  exact ⟨hinv, hwritten⟩

theorem Inv.step
    (h : Inv json base s)
    {a : DirectAction ι γ φ R}
    (hstep : s.step json a = some t)
    (hfits : t.shared.Fits base)
    (hok : s.Orderly a) :
    Inv json base t := by
  cases effect_of_step hstep with
  | shares b hb hshared hwriters =>
      obtain ⟨pc, hheld, hinv, hwritten⟩ := h
      have hunder := step_under hb hshared pc
      have hcommits : (s.under pc).CommitsWritten (.act b) := by
        cases b with
        | flusher | callClose | close =>
            exact hb.elim
        | callAppend | append | callFlush | flush =>
            trivial
      exact ⟨pc, hheld.of_writers hwriters, hinv.step hunder hfits,
        (hinv.written_step hwritten hunder hfits).mpr hcommits⟩
  | sets k pc hpc ht =>
      rw [ht]
      exact h.setFlush k hpc
  | releases closed outputOpen queueDepth hclosed hshared hwriters =>
      exact h.release hclosed hshared hwriters
  | writes k b v hv hcommits ht =>
      obtain ⟨hcommits, hothers⟩ := hcommits hok
      obtain ⟨hothers, hinv, hwritten⟩ := h.under_writer hothers
      have hfits' : v.Fits base := by
        rcases ht with rfl | rfl <;> exact hfits
      have hview : Inv json base (s.ofView k v) :=
        .of_view hothers (hinv.step hv hfits') ((hinv.written_step hwritten hv hfits').mpr hcommits)
      rcases ht with rfl | rfl
      · exact hview
      · exact hview.setFlush k (.inr rfl)

theorem log_length_le
    {a : DirectAction ι γ φ R}
    (hstep : s.step json a = some t) :
    s.shared.run.log.length ≤ t.shared.run.log.length := by
  cases effect_of_step hstep with
  | shares b hb hshared =>
      exact (FailingRun.log_isPrefix hshared).length_le
  | sets k pc hpc ht =>
      rw [ht]
      exact le_rfl
  | releases closed outputOpen queueDepth hclosed hshared =>
      rw [hshared]
  | writes k b v hv hok ht =>
      have hle := (FailingRun.log_isPrefix hv).length_le
      rcases ht with rfl | rfl <;> exact hle

omit [DecidableEq ι] [DecidableEq γ] [DecidableEq φ] in
theorem Inv.committedMeansWritten
    (h : Inv json base s) :
    s.shared.CommittedMeansWritten json base := by
  obtain ⟨pc, -, -, hwritten⟩ := h
  exact ⟨hwritten.replayed, hwritten.counted, hwritten.flushed⟩

variable [Double R] {config : JsonlAsyncStorageConfig} {file : Option Bytes}

/-- A run without a flusher thread in which the batches are not held at the same time. -/
theorem committedMeansWritten_of_orderly
    (hs : Reachable (Guarded (Steps (step json)) Orderly) (start (.create json config file)) s)
    (hcount : (load json (file.getD [])).length + s.shared.run.log.length < 2 ^ 64) :
    s.shared.CommittedMeansWritten json (.create json config file) := by
  have hinv := hs.invariant_below
    (P := Inv json (.create json config file))
    (B := fun v => (load json (file.getD [])).length + v.shared.run.log.length < 2 ^ 64)
    (inv_start rfl rfl rfl)
    (fun _ _ _ hstep hbound => lt_of_le_of_lt (Nat.add_le_add_left (log_length_le hstep.1) _) hbound)
    (fun _ _ _ h hstep hfits => h.step hstep.1 hfits hstep.2)
    hcount
  exact hinv.committedMeansWritten

/--
Committed means written.  With a flusher thread, in every state of a run exactly if
no batch is committed after the stream has failed; without one, in every state of a
run in which moreover no call drains a batch while another has one.
-/
theorem committed_means_written
    (json : JsonText R) (config : JsonlAsyncStorageConfig) (file : Option Bytes) :
    (∀ (trace : List (FailingRun ι γ φ R × FailingAction ι γ φ R)) (s : FailingRun ι γ φ R),
      Execution (Steps (FailingRun.step json)) (.start (.create json config file)) trace s →
      (load json (file.getD [])).length + s.run.log.length < 2 ^ 64 →
      (((∀ p ∈ trace, p.1.CommittedMeansWritten json (.create json config file)) ∧
          s.CommittedMeansWritten json (.create json config file)) ↔
        ∀ p ∈ trace, p.1.CommitsWritten p.2)) ∧
    (∀ s : DirectRun ι γ φ R,
      Reachable (Guarded (Steps (step json)) Orderly) (start (.create json config file)) s →
      (load json (file.getD [])).length + s.shared.run.log.length < 2 ^ 64 →
      s.shared.CommittedMeansWritten json (.create json config file)) :=
  ⟨fun _ _ hrun hcount => FailingRun.committedMeansWritten_run_iff hrun hcount,
    fun _ hs hcount => committedMeansWritten_of_orderly hs hcount⟩

end Invariant

section Overlap

/-- A trade is appended, written and flushed, and the stream fails at the next one. -/
def failAtSecond : List (FailingAction Unit Unit Unit ℚ) :=
  List.flatten
    [FailingRun.appendOne, flushBatch.map FailingAction.act,
      JsonlRun.flushStorage.map FailingAction.act, FailingRun.appendOne,
      [FailingAction.act .flusher, FailingAction.failWrite 3]]

section Actions

variable {φ : Type}

/-- A call of `append` and its steps. -/
def appendSteps : List (DirectAction Unit Empty φ ℚ) :=
  [.callAppend () btcTrade, .append () 7, .append () 7, .append () 7, .append () 7]

/-- The loads at the head of the loop of a call of `flush`. -/
def loadSteps (k : φ) : List (DirectAction Unit Empty φ ℚ) :=
  [.flush (.inl k), .flush (.inl k), .flush (.inl k)]

/-- A call of `flush` up to the body of its loop. -/
def callFlushSteps (k : φ) : List (DirectAction Unit Empty φ ℚ) :=
  .callFlush k :: .flush (.inl k) :: loadSteps k

/-- A batch is written, committed and counted. -/
def writeSteps (k : φ) : List (DirectAction Unit Empty φ ℚ) :=
  [.writeBatch (.inl k), .writeBatch (.inl k), .writeBatch (.inl k)]

end Actions

/-- A trade is appended, and a call of `flush` writes it. -/
def flushOne : List (DirectAction Unit Empty Unit ℚ) :=
  List.flatten
    [appendSteps, callFlushSteps (), [DirectAction.drainQueueBatch (.inl ())], writeSteps (), loadSteps (),
      [DirectAction.flush (.inl ())]]

/--
The call 0 has the first trade in its hands.  While the call 1 is between its loads,
a second trade is appended, and the call 2 writes it.
-/
def overlapping : List (DirectAction Unit Empty (Fin 3) ℚ) :=
  List.flatten
    [appendSteps, callFlushSteps 0, [DirectAction.drainQueueBatch (.inl 0)],
      [DirectAction.callFlush 1, DirectAction.flush (.inl 1), DirectAction.flush (.inl 1)],
      appendSteps, callFlushSteps 2, [DirectAction.drainQueueBatch (.inl 2)], writeSteps 2,
      [DirectAction.flush (.inl 1), DirectAction.flush (.inl 1), DirectAction.flush (.inl 1)]]

/--
With a flusher thread one trade is written and the stream fails at the next one;
without one a call of `flush` writes a trade.
-/
theorem committed_means_written_both_modes :
    (∃ (trace : List (FailingRun Unit Unit Unit ℚ × FailingAction Unit Unit Unit ℚ))
        (s : FailingRun Unit Unit Unit ℚ),
      Execution (Steps (FailingRun.step btcJson)) (.start (.create btcJson ⟨4, 2⟩ none)) trace s ∧
        s.good = false ∧ s.run.flushes () = .returned true ∧
        ((∀ p ∈ trace, p.1.CommittedMeansWritten btcJson (.create btcJson ⟨4, 2⟩ none)) ∧
          s.CommittedMeansWritten btcJson (.create btcJson ⟨4, 2⟩ none))) ∧
    ∃ s : DirectRun Unit Empty Unit ℚ,
      Reachable (Guarded (Steps (step btcJson)) Orderly) (start (.create btcJson ⟨4, 2⟩ none)) s ∧
        s.shared.before (.inl ()) = 1 ∧ s.shared.run.flushes (.inl ()) = .returned true ∧
        s.shared.CommittedMeansWritten btcJson (.create btcJson ⟨4, 2⟩ none) := by
  constructor
  · have hrun : (runActions (guardActions (FailingRun.step btcJson) FailingRun.CommitsWritten)
        (.start (.create btcJson ⟨4, 2⟩ none)) failAtSecond).map
          (fun s => (s.good, s.run.flushes (), (load btcJson []).length + s.run.log.length)) =
        some (false, .returned true, 2) := by
      decide +kernel
    obtain ⟨trace, s, htrace, hok, hview⟩ :=
      Execution.exists_of_guardActions _ Execution.init (by simp) hrun
    simp only [Prod.mk.injEq] at hview
    obtain ⟨hgood, hreturned, hcount⟩ := hview
    have hbound : (load btcJson []).length + s.run.log.length < 2 ^ 64 := by
      rw [hcount]
      decide
    exact ⟨trace, s, htrace, hgood, hreturned,
      ((committed_means_written btcJson ⟨4, 2⟩ none).1 trace s htrace hbound).mpr hok⟩
  · have hrun : (runActions (guardActions (step btcJson) Orderly)
        (start (.create btcJson ⟨4, 2⟩ none)) flushOne).map
          (fun s => (s.shared.before (.inl ()), s.shared.run.flushes (.inl ()),
            (load btcJson []).length + s.shared.run.log.length)) =
        some (1, .returned true, 1) := by
      decide +kernel
    obtain ⟨s, hs, hview⟩ := Reachable.exists_of_guardActions hrun
    simp only [Prod.mk.injEq] at hview
    obtain ⟨hbefore, hreturned, hcount⟩ := hview
    have hbound : (load btcJson []).length + s.shared.run.log.length < 2 ^ 64 := by
      rw [hcount]
      decide
    exact ⟨s, hs, hbefore, hreturned,
      (committed_means_written btcJson ⟨4, 2⟩ none).2 s hs hbound⟩

/--
The call 1 of `flush` returns true while the trade that was accepted before it is
in the hands of the call 0.  The stream has not failed.
-/
theorem overlapping_flushes_return_early :
    ∃ s : DirectRun Unit Empty (Fin 3) ℚ,
      Reachable (Steps (step btcJson)) (start (.create btcJson ⟨4, 2⟩ none)) s ∧
        s.shared.good = true ∧ s.shared.before (.inl 1) = 1 ∧
        s.shared.run.flushes (.inl 1) = .returned true ∧
        ¬ s.shared.CommittedMeansWritten btcJson (.create btcJson ⟨4, 2⟩ none) := by
  have hrun : (runActions (step btcJson) (start (.create btcJson ⟨4, 2⟩ none)) overlapping).map
      (fun s => (s.shared.good, s.shared.before (.inl 1), s.shared.run.flushes (.inl 1),
        ((stampFrom 0 (s.shared.run.log.take 1)).flatMap (line btcJson)).isPrefixOf
          s.shared.file)) =
      some (true, 1, .returned true, false) := by
    decide +kernel
  obtain ⟨s, hs, hview⟩ := Reachable.exists_of_runActions hrun
  simp only [Prod.mk.injEq] at hview
  obtain ⟨hgood, hbefore, hreturned, hfile⟩ := hview
  refine ⟨s, hs, hgood, hbefore, hreturned, ?_⟩
  intro h
  have hflushed := h.flushed (.inl 1) hreturned
  rw [hbefore] at hflushed
  have hstarts := List.isPrefixOf_iff_prefix.mpr hflushed
  exact absurd (hstarts.symm.trans hfile) (by simp)

end Overlap

end DirectRun
end Storage
end CryptoHft
