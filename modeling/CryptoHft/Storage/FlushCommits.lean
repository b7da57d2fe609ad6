import CryptoHft.Storage.JsonlLossless

/-!
# What a successful `flush` means

`flush` loads `accepted_`, `committed_` and `queue_depth_` one after the other,
while other threads append and the flusher writes.  Both counters count from the
events loaded at start, in the order of acceptance: if `committed_`, loaded later,
has reached the value that `accepted_` had, then all events accepted up to that
load are committed and in the file.

The counters have 64 bits.  `flush_commits` is for fewer than `2 ^ 64` events;
`flush_returns_early` is the run in which `accepted_` comes round to zero.
-/

namespace CryptoHft
namespace Storage

open Lib

/--
What a call of `flush` knows at its points, when `n` events had been loaded and
accepted before the call and `committed` events are in `committed_events_`.
-/
def FlushPc.Sound (n committed : Nat) : FlushPc → Prop
  | .idle => True
  | .count => True
  | .loadAccepted _ => True
  | .loadCommitted _ accepted => n ≤ accepted.toNat
  | .loadQueued _ accepted counted => n ≤ accepted.toNat ∧ counted.toNat ≤ committed
  | .waiting => True
  | .flushFile => n ≤ committed
  | .returned result => result = true → n ≤ committed

/-- More committed events do not hurt. -/
theorem FlushPc.Sound.mono
    {n committed committed' : Nat} {pc : FlushPc}
    (h : pc.Sound n committed)
    (hle : committed ≤ committed') :
    pc.Sound n committed' := by
  cases pc with
  | idle | count | loadAccepted | waiting =>
      trivial
  | loadCommitted last accepted =>
      exact h
  | loadQueued last accepted counted =>
      exact ⟨h.1, h.2.trans hle⟩
  | flushFile =>
      exact Nat.le_trans h hle
  | returned result =>
      exact fun hresult => (h hresult).trans hle

namespace JsonlRun

variable {ι γ φ R : Type} {json : JsonText R} {base : JsonlAsyncStorage R}
  {s t : JsonlRun ι γ φ R}

section Frames

/-- A step leaves alone what has been accepted, written and committed. -/
structure Unmoved (s t : JsonlRun ι γ φ R) : Prop where
  accepted : t.storage.accepted = s.storage.accepted
  committed : t.storage.committed = s.storage.committed
  committedEvents : t.storage.committedEvents = s.storage.committedEvents
  output : t.storage.output = s.storage.output
  flusher : t.flusher = s.flusher
  log : t.log = s.log

/-- A step accepts one event. -/
structure AcceptsOne (s t : JsonlRun ι γ φ R) : Prop where
  accepted : t.storage.accepted = s.storage.accepted + 1
  committed : t.storage.committed = s.storage.committed
  committedEvents : t.storage.committedEvents = s.storage.committedEvents
  output : t.storage.output = s.storage.output
  flusher : t.flusher = s.flusher
  log : ∃ e, t.log = s.log ++ [e]

theorem appendStep_moves
    [DecidableEq ι]
    {i : ι} {nowNs : Int64}
    (hstep : s.appendStep i nowNs = some t) :
    (Unmoved s t ∨ AcceptsOne s t) ∧ t.flushes = s.flushes := by
  unfold appendStep at hstep
  cases hpc : s.appenders i with
  | idle | returned =>
      simp [hpc] at hstep
  | checkPayload event | lock event | checkClosed event =>
      simp only [hpc] at hstep
      split at hstep <;> cases hstep <;> exact ⟨.inl ⟨rfl, rfl, rfl, rfl, rfl, rfl⟩, rfl⟩
  | push event =>
      simp only [hpc] at hstep
      split at hstep
      · cases hstep
        exact ⟨.inl ⟨rfl, rfl, rfl, rfl, rfl, rfl⟩, rfl⟩
      · cases hstep
        exact ⟨.inr ⟨rfl, rfl, rfl, rfl, rfl, _, rfl⟩, rfl⟩

theorem closeStep_moves
    [DecidableEq γ]
    {j : γ}
    (hstep : s.closeStep j = some t) :
    Unmoved s t ∧ t.flushes = s.flushes := by
  unfold closeStep at hstep
  cases hpc : s.closers j with
  | idle | returned =>
      simp [hpc] at hstep
  | exchange | closeFile | resetDepth =>
      simp only [hpc, Option.some.injEq] at hstep
      subst hstep
      exact ⟨⟨rfl, rfl, rfl, rfl, rfl, rfl⟩, rfl⟩
  | joining =>
      simp only [hpc] at hstep
      split at hstep
      · cases hstep
        exact ⟨⟨rfl, rfl, rfl, rfl, rfl, rfl⟩, rfl⟩
      · cases hstep

/-- What a step of the flusher can do. -/
theorem flusherStep_moves
    (hstep : s.flusherStep json = some t) :
    t.flushes = s.flushes ∧ t.log = s.log ∧ t.storage.accepted = s.storage.accepted ∧
      ((t.storage.committed = s.storage.committed ∧
          t.storage.committedEvents = s.storage.committedEvents ∧
          t.storage.output = s.storage.output ∧
          (s.flusher = .waiting ∧ (t.flusher = .waiting ∨ t.flusher = .stopped ∨
            ∃ batch, t.flusher = .writing batch))) ∨
        (∃ batch, s.flusher = .writing batch ∧ t.flusher = .committing batch ∧
          t.storage.committed = s.storage.committed ∧
          t.storage.committedEvents = s.storage.committedEvents ∧
          t.storage.output = s.storage.output ++ batch.flatMap (line json)) ∨
        (∃ batch, s.flusher = .committing batch ∧ t.flusher = .counting batch.length ∧
          t.storage.committed = s.storage.committed ∧
          t.storage.committedEvents = s.storage.committedEvents ++ batch ∧
          t.storage.output = s.storage.output) ∨
        (∃ batchSize, s.flusher = .counting batchSize ∧ t.flusher = .waiting ∧
          t.storage.committed = s.storage.committed + UInt64.ofNat batchSize ∧
          t.storage.committedEvents = s.storage.committedEvents ∧
          t.storage.output = s.storage.output)) := by
  unfold flusherStep at hstep
  cases hpc : s.flusher with
  | stopped =>
      simp [hpc] at hstep
  | waiting =>
      simp only [hpc] at hstep
      split at hstep
      · cases hstep
      · split at hstep
        · cases hstep
          refine ⟨rfl, rfl, rfl, .inl ⟨rfl, rfl, rfl, rfl, ?_⟩⟩
          cases s.storage.closed with
          | false =>
              exact .inl rfl
          | true =>
              exact .inr (.inl rfl)
        · cases hstep
          exact ⟨rfl, rfl, rfl, .inl ⟨rfl, rfl, rfl, rfl, .inr (.inr ⟨_, rfl⟩)⟩⟩
  | writing batch =>
      simp only [hpc, Option.some.injEq] at hstep
      subst hstep
      exact ⟨rfl, rfl, rfl, .inr (.inl ⟨batch, rfl, rfl, rfl, rfl, rfl⟩)⟩
  | committing batch =>
      simp only [hpc, Option.some.injEq] at hstep
      subst hstep
      exact ⟨rfl, rfl, rfl, .inr (.inr (.inl ⟨batch, rfl, rfl, rfl, rfl, rfl⟩))⟩
  | counting batchSize =>
      simp only [hpc, Option.some.injEq] at hstep
      subst hstep
      exact ⟨rfl, rfl, rfl, .inr (.inr (.inr ⟨batchSize, rfl, rfl, rfl, rfl, rfl⟩))⟩

variable [DecidableEq ι] [DecidableEq γ] [DecidableEq φ]

/-- What one step can do, apart from the calls of `flush`. -/
theorem step_moves
    {a : JsonlAction ι γ φ R}
    (hstep : s.step json a = some t) :
    (a = .flusher ∧ s.flusherStep json = some t) ∨ Unmoved s t ∨ AcceptsOne s t := by
  cases a with
  | callAppend i event =>
      rw [eq_of_callAppend hstep]
      exact .inr (.inl ⟨rfl, rfl, rfl, rfl, rfl, rfl⟩)
  | append i nowNs =>
      exact .inr (appendStep_moves hstep).1
  | flusher =>
      exact .inl ⟨rfl, hstep⟩
  | callClose j =>
      rw [eq_of_callClose hstep]
      exact .inr (.inl ⟨rfl, rfl, rfl, rfl, rfl, rfl⟩)
  | close j =>
      exact .inr (.inl (closeStep_moves hstep).1)
  | callFlush k =>
      rw [eq_of_callFlush hstep]
      exact .inr (.inl ⟨rfl, rfl, rfl, rfl, rfl, rfl⟩)
  | flush k timedOut =>
      obtain ⟨pc, flushCount, rfl⟩ := flushStep_cases hstep
      exact .inr (.inl ⟨rfl, rfl, rfl, rfl, rfl, rfl⟩)

/-- A call of `flush` is moved by its own steps only. -/
theorem step_flushes
    {a : JsonlAction ι γ φ R}
    (hstep : s.step json a = some t)
    (k : φ) :
    t.flushes k = s.flushes k ∨ (a = .callFlush k ∧ t.flushes k = .count) ∨
      ∃ timedOut, a = .flush k timedOut ∧ s.flushStep k timedOut = some t := by
  cases a with
  | callAppend i event =>
      rw [eq_of_callAppend hstep]
      exact .inl rfl
  | append i nowNs =>
      exact .inl (congrFun (appendStep_moves hstep).2 k)
  | flusher =>
      exact .inl (congrFun (flusherStep_moves hstep).1 k)
  | callClose j =>
      rw [eq_of_callClose hstep]
      exact .inl rfl
  | close j =>
      exact .inl (congrFun (closeStep_moves hstep).2 k)
  | callFlush l =>
      rw [eq_of_callFlush hstep]
      by_cases hkl : k = l
      · subst hkl
        exact .inr (.inl ⟨rfl, by simp [setFlush]⟩)
      · exact .inl (Function.update_of_ne hkl _ _)
  | flush l timedOut =>
      by_cases hkl : k = l
      · subst hkl
        exact .inr (.inr ⟨timedOut, rfl, hstep⟩)
      · obtain ⟨pc, flushCount, rfl⟩ := flushStep_cases hstep
        exact .inl (Function.update_of_ne hkl _ _)

/-- The accepted events and the committed ones only grow. -/
theorem step_grows
    {a : JsonlAction ι γ φ R}
    (hstep : s.step json a = some t) :
    s.log <+: t.log ∧ s.storage.committedEvents <+: t.storage.committedEvents := by
  rcases step_moves hstep with ⟨-, hflusher⟩ | h | h
  · obtain ⟨-, hlog, -, hmoves⟩ := flusherStep_moves hflusher
    refine ⟨by rw [hlog], ?_⟩
    rcases hmoves with ⟨-, hevents, -⟩ | ⟨batch, -, -, -, hevents, -⟩ |
      ⟨batch, -, -, -, hevents, -⟩ | ⟨batchSize, -, -, -, hevents, -⟩
    · rw [hevents]
    · rw [hevents]
    · rw [hevents]
      exact List.prefix_append _ _
    · rw [hevents]
  · exact ⟨by rw [h.log], by rw [h.committedEvents]⟩
  · obtain ⟨e, hlog⟩ := h.log
    exact ⟨hlog ▸ List.prefix_append _ _, by rw [h.committedEvents]⟩

end Frames

section Counters

/-- The size of the batch that is committed and not counted yet. -/
def countPending (s : JsonlRun ι γ φ R) : Nat :=
  match s.flusher with
  | .counting batchSize => batchSize
  | _ => 0

/-- What the counters count, from the storage `base` on. -/
structure Counts (base : JsonlAsyncStorage R) (s : JsonlRun ι γ φ R) : Prop where
  accepted : s.storage.accepted = UInt64.ofNat (base.committedEvents.length + s.log.length)
  committed : ∃ n, s.storage.committed = UInt64.ofNat (base.committedEvents.length + n) ∧
    base.committedEvents.length + n + s.countPending = s.storage.committedEvents.length

theorem counts_start
    (haccepted : base.accepted = UInt64.ofNat base.committedEvents.length)
    (hcommitted : base.committed = UInt64.ofNat base.committedEvents.length) :
    Counts base (start base : JsonlRun ι γ φ R) :=
  ⟨by simpa [start] using haccepted, 0, hcommitted, rfl⟩

theorem Counts.flusherStep
    (h : Counts base s)
    (hstep : s.flusherStep json = some t) :
    Counts base t := by
  obtain ⟨-, hlog, haccepted, hmoves⟩ := flusherStep_moves hstep
  obtain ⟨n, hn, hpending⟩ := h.committed
  refine ⟨by rw [haccepted, hlog, h.accepted], ?_⟩
  rcases hmoves with ⟨hcommitted, hevents, -, hbefore, hafter⟩ |
    ⟨batch, hbefore, hafter, hcommitted, hevents, -⟩ |
    ⟨batch, hbefore, hafter, hcommitted, hevents, -⟩ |
    ⟨batchSize, hbefore, hafter, hcommitted, hevents, -⟩
  · refine ⟨n, hcommitted.trans hn, ?_⟩
    simp only [countPending, hbefore] at hpending
    rw [hevents]
    rcases hafter with hafter | hafter | ⟨batch, hafter⟩
    · simpa only [countPending, hafter] using hpending
    · simpa only [countPending, hafter] using hpending
    · simpa only [countPending, hafter] using hpending
  · simp only [countPending, hbefore] at hpending
    exact ⟨n, hcommitted.trans hn, by simpa only [countPending, hafter, hevents] using hpending⟩
  · simp only [countPending, hbefore] at hpending
    refine ⟨n, hcommitted.trans hn, ?_⟩
    simp only [countPending, hafter, hevents, List.length_append]
    omega
  · simp only [countPending, hbefore] at hpending
    refine ⟨n + batchSize, ?_, ?_⟩
    · rw [hcommitted, hn, ← Nat.add_assoc, UInt64.ofNat_add _ batchSize]
    · simp only [countPending, hafter, hevents, Nat.add_zero]
      omega

variable [DecidableEq ι] [DecidableEq γ] [DecidableEq φ]

theorem Counts.step
    (h : Counts base s)
    {a : JsonlAction ι γ φ R}
    (hstep : s.step json a = some t) :
    Counts base t := by
  rcases step_moves hstep with ⟨-, hflusher⟩ | hmoves | hmoves
  · exact h.flusherStep hflusher
  · obtain ⟨n, hn, hpending⟩ := h.committed
    refine ⟨by rw [hmoves.accepted, hmoves.log, h.accepted], n, hmoves.committed.trans hn, ?_⟩
    rw [countPending, hmoves.flusher, hmoves.committedEvents]
    exact hpending
  · obtain ⟨n, hn, hpending⟩ := h.committed
    obtain ⟨e, hlog⟩ := hmoves.log
    refine ⟨?_, n, hmoves.committed.trans hn, ?_⟩
    · rw [hmoves.accepted, hlog, h.accepted, List.length_append, ← Nat.add_assoc,
        UInt64.ofNat_add _ [e].length]
      rfl
    · rw [countPending, hmoves.flusher, hmoves.committedEvents]
      exact hpending

omit [DecidableEq ι] [DecidableEq γ] [DecidableEq φ] in
/-- The committed count never runs ahead of the committed events. -/
theorem Counts.committed_le
    (h : Counts base s) :
    s.storage.committed.toNat ≤ s.storage.committedEvents.length := by
  obtain ⟨n, hn, hpending⟩ := h.committed
  have hle : (UInt64.ofNat (base.committedEvents.length + n)).toNat ≤
      base.committedEvents.length + n := by
    rw [UInt64.toNat_ofNat']
    exact Nat.mod_le _ _
  rw [hn]
  omega

end Counters

section Flush

/-- The committed events, once there are enough of them. -/
theorem Inv.committed_of_le
    (h : Inv json base t)
    {log : List (StorageEvent R × Int64)}
    (hlog : log <+: t.log)
    (hle : base.committedEvents.length + log.length ≤ t.storage.committedEvents.length) :
    base.committedEvents ++ stampFrom base.nextOffset log <+: t.storage.committedEvents ∧
      base.output ++ (stampFrom base.nextOffset log).flatMap (line json) <+:
        t.storage.output := by
  obtain ⟨rest, hrest⟩ := hlog
  obtain ⟨session, hcommitted, houtput⟩ := h.file
  have hbefore : base.committedEvents ++ stampFrom base.nextOffset log <+:
      base.committedEvents ++ stampFrom base.nextOffset t.log := by
    rw [← hrest, stampFrom_append, ← List.append_assoc]
    exact List.prefix_append _ _
  have hnow : t.storage.committedEvents <+:
      base.committedEvents ++ stampFrom base.nextOffset t.log := by
    rw [← h.sequence, List.append_assoc]
    exact List.prefix_append _ _
  have hstarts := List.prefix_of_prefix_length_le hbefore hnow (by simpa using hle)
  refine ⟨hstarts, ?_⟩
  rw [hcommitted, List.prefix_append_right_inj] at hstarts
  rw [houtput, List.prefix_append_right_inj, List.flatMap_append]
  exact (hstarts.flatMap (line json)).trans (List.prefix_append _ _)

variable [DecidableEq φ]

/-- One step of a call of `flush`, while the counters have not come round. -/
theorem Counts.flushStep
    (h : Counts base s)
    (hcount : base.committedEvents.length + s.log.length < 2 ^ 64)
    {n : Nat}
    (hn : n ≤ base.committedEvents.length + s.log.length)
    {k : φ} {timedOut : Bool}
    (hsound : (s.flushes k).Sound n s.storage.committedEvents.length)
    (hstep : s.flushStep k timedOut = some t) :
    (t.flushes k).Sound n s.storage.committedEvents.length := by
  unfold JsonlRun.flushStep at hstep
  cases hpc : s.flushes k with
  | idle | returned =>
      simp [hpc] at hstep
  | count | waiting =>
      simp only [hpc, Option.some.injEq] at hstep
      subst hstep
      simp [setFlush, FlushPc.Sound]
  | loadAccepted last =>
      simp only [hpc, Option.some.injEq] at hstep
      subst hstep
      have haccepted : s.storage.accepted.toNat = base.committedEvents.length + s.log.length := by
        rw [h.accepted, UInt64.toNat_ofNat_of_lt' hcount]
      simpa [setFlush, FlushPc.Sound, haccepted] using hn
  | loadCommitted last accepted =>
      simp only [hpc, Option.some.injEq] at hstep
      subst hstep
      rw [hpc] at hsound
      simpa [setFlush, FlushPc.Sound] using And.intro hsound h.committed_le
  | loadQueued last accepted counted =>
      simp only [hpc] at hstep
      rw [hpc] at hsound
      obtain ⟨haccepted, hcounted⟩ := hsound
      -- the events were counted as committed after they had been counted as accepted
      have hdone : accepted ≤ counted → n ≤ s.storage.committedEvents.length := by
        intro hle
        have hle' : accepted.toNat ≤ counted.toNat := hle
        omega
      split at hstep
      · cases hstep
        have hresult : (decide (accepted ≤ counted) && decide (s.storage.queueDepth = 0)) = true →
            n ≤ s.storage.committedEvents.length := by
          intro hand
          simp only [Bool.and_eq_true, decide_eq_true_eq] at hand
          exact hdone hand.1
        simpa [setFlush, FlushPc.Sound] using hresult
      · split at hstep
        · rename_i hand
          cases hstep
          simp only [Bool.and_eq_true, decide_eq_true_eq] at hand
          simpa [setFlush, FlushPc.Sound] using hdone hand.1
        · cases hstep
          simp [setFlush, FlushPc.Sound]
  | flushFile =>
      simp only [hpc, Option.some.injEq] at hstep
      subst hstep
      rw [hpc] at hsound
      simpa [setFlush, FlushPc.Sound] using hsound

variable [DecidableEq ι] [DecidableEq γ]

theorem Counts.sound_step
    (h : Counts base s)
    (hcount : base.committedEvents.length + s.log.length < 2 ^ 64)
    {n : Nat}
    (hn : n ≤ base.committedEvents.length + s.log.length)
    {k : φ}
    (hsound : (s.flushes k).Sound n s.storage.committedEvents.length)
    {a : JsonlAction ι γ φ R}
    (hstep : s.step json a = some t) :
    (t.flushes k).Sound n t.storage.committedEvents.length := by
  refine FlushPc.Sound.mono ?_ (step_grows hstep).2.length_le
  rcases step_flushes hstep k with hsame | ⟨-, hcalled⟩ | ⟨timedOut, -, hflush⟩
  · rw [hsame]
    exact hsound
  · rw [hcalled]
    trivial
  · exact h.flushStep hcount hn hsound hflush

variable [Double R] {u : JsonlRun ι γ φ R}
  {config : JsonlAsyncStorageConfig} {file : Option Bytes}

theorem counts_of_reachable
    (hs : Reachable (Steps (step json)) (start (.create json config file)) s) :
    Counts (.create json config file) s :=
  hs.invariant (counts_start rfl rfl) (fun _ _ _ h hstep => h.step hstep)

/--
If a call of `flush` returns true, then all events accepted before the call are
committed and in the file, behind what was there at the start.
-/
theorem flush_commits
    (hs : Reachable (Steps (step json)) (start (.create json config file)) s)
    {k : φ}
    (hcall : s.step json (.callFlush k) = some t)
    (hu : Reachable (Steps (step json)) t u)
    (hcount : (load json (file.getD [])).length + u.log.length < 2 ^ 64)
    (hreturned : u.flushes k = .returned true) :
    load json (file.getD []) ++ s.acceptedEvents json file <+: u.storage.committedEvents ∧
      file.getD [] ++ (s.acceptedEvents json file).flatMap (line json) <+: u.storage.output := by
  have ht := hs.tail hcall
  have hcalled : t.flushes k = .count := by
    rw [eq_of_callFlush hcall]
    simp [setFlush]
  have hlog : t.log = s.log := by
    rw [eq_of_callFlush hcall]
    rfl
  -- what the call knows, as long as the counters have not come round
  have hsound := hu.invariant_below
    (P := fun v => Reachable (Steps (step json)) (start (.create json config file)) v ∧
      s.log <+: v.log ∧
      (v.flushes k).Sound ((load json (file.getD [])).length + s.log.length)
        v.storage.committedEvents.length)
    (B := fun v => (load json (file.getD [])).length + v.log.length < 2 ^ 64)
    ⟨ht, by rw [hlog], by rw [hcalled]; trivial⟩
    (by
      intro v a w hstep hbound
      have hgrows := (step_grows hstep).1.length_le
      omega)
    (by
      rintro v a w ⟨hv, hstarts, hsound⟩ hstep hbound
      have hgrows := (step_grows hstep).1
      refine ⟨hv.tail hstep, hstarts.trans hgrows, ?_⟩
      have hle := hstarts.length_le
      have hle' := hgrows.length_le
      exact (counts_of_reachable hv).sound_step (lt_of_le_of_lt (Nat.add_le_add_left hle' _) hbound)
        (Nat.add_le_add_left hle _) hsound hstep)
    hcount
  obtain ⟨hu', hstarts, hsound⟩ := hsound
  rw [hreturned] at hsound
  exact (inv_of_reachable hu').committed_of_le hstarts (hsound rfl)

end Flush

section Rounds

/-- A call of `flush` and its steps, when the first loads agree. -/
def flushStorage : List (JsonlAction Unit Unit Unit ℚ) :=
  [.callFlush (), .flush () false, .flush () false, .flush () false, .flush () false,
    .flush () false]

/-- A trade is appended and written, and then `flush` is called. -/
theorem flush_commits_one_trade :
    ∃ s t u : JsonlRun Unit Unit Unit ℚ,
      Reachable (Steps (step btcJson)) (start (.create btcJson ⟨4, 2⟩ none)) s ∧
        s.step btcJson (.callFlush ()) = some t ∧ Reachable (Steps (step btcJson)) t u ∧
        s.log.length = 1 ∧ u.flushes () = .returned true ∧
        load btcJson [] ++ s.acceptedEvents btcJson none <+: u.storage.committedEvents ∧
        [] ++ (s.acceptedEvents btcJson none).flatMap (line btcJson) <+: u.storage.output := by
  have hrun : (runActions (step btcJson) (start (.create btcJson ⟨4, 2⟩ none))
      (appendTrade ++ flushBatch)).map
        (fun s => (s.log.length, ((s.step btcJson (.callFlush ())).bind
          (fun t => runActions (step btcJson) t flushStorage.tail)).map
            (fun u => (u.flushes (), (load btcJson []).length + u.log.length)))) =
      some (1, some (.returned true, 1)) := by
    decide +kernel
  obtain ⟨s, hs, hview⟩ := Reachable.exists_of_runActions hrun
  obtain ⟨hlog, hflush⟩ := Prod.mk.inj hview
  obtain ⟨u, hu, hview⟩ := Option.map_eq_some_iff.mp hflush
  obtain ⟨t, hcall, hu⟩ := Option.bind_eq_some_iff.mp hu
  obtain ⟨hreturned, hcount⟩ := Prod.mk.inj hview
  have hu := Reachable.of_runActions _ .init hu
  have hbound : (load btcJson []).length + u.log.length < 2 ^ 64 := by
    rw [hcount]
    decide
  exact ⟨s, t, u, hs, hcall, hu, hlog, hreturned,
    flush_commits hs hcall hu hbound hreturned⟩

/-- Between two rounds: `n` events are accepted, written and counted. -/
structure Rounds (s : JsonlRun Unit Unit Unit ℚ) (n : Nat) : Prop where
  appender : s.appenders () = .idle ∨ s.appenders () = .returned true
  mutex : s.queueMutex = none
  flusher : s.flusher = .waiting
  flushes : s.flushes () = .idle
  queue : s.storage.queue = []
  closed : s.storage.closed = false
  queueCapacity : s.storage.queueCapacity = 4
  batchSize : s.storage.batchSize = 2
  accepted : s.storage.accepted = UInt64.ofNat n
  committed : s.storage.committed = UInt64.ofNat n
  committedEvents : s.storage.committedEvents.length = n
  log : s.log.length = n

/-- A round, up to the moment when the flusher has drained the queue. -/
def drained (s : JsonlRun Unit Unit Unit ℚ) : JsonlRun Unit Unit Unit ℚ :=
  { s with
    appenders := fun _ => .returned true
    storage := { accept s.storage btcTrade 7 with queue := [], queueDepth := 0 }
    flusher := .writing [stamp s.storage.nextOffset 7 btcTrade]
    log := s.log ++ [(btcTrade, 7)] }

theorem Rounds.drain
    {s : JsonlRun Unit Unit Unit ℚ} {n : Nat}
    (h : Rounds s n) :
    runActions (step btcJson) s (appendTrade ++ [.flusher]) = some s.drained := by
  have hcall : s.step btcJson (.callAppend () btcTrade) =
      some (s.setAppender () (.checkPayload btcTrade)) := by
    rcases h.appender with hidle | hreturned
    · simp [step, hidle]
    · simp [step, hreturned]
  have hpayload : payloadMatchesType btcTrade = true := rfl
  have hupdate : ∀ (f : Unit → AppendPc ℚ) (pc : AppendPc ℚ),
      Function.update f () pc = fun _ => pc := by
    intro f pc
    funext i
    simp
  simp only [appendTrade, List.cons_append, List.nil_append, runActions, hcall, Option.bind_some]
  simp [step, appendStep, flusherStep, setAppender, accept, drained, hpayload, h.mutex, h.closed,
    h.queue, h.queueCapacity, h.batchSize, h.flusher, hupdate]

/-- The flusher writes, commits and counts the trade. -/
theorem Rounds.next
    {s : JsonlRun Unit Unit Unit ℚ} {n : Nat}
    (h : Rounds s n) :
    ∃ t, runActions (step btcJson) s.drained [.flusher, .flusher, .flusher] = some t ∧
      Rounds t (n + 1) := by
  refine ⟨_, rfl, ?_⟩
  constructor
  · exact .inr rfl
  · exact h.mutex
  · rfl
  · exact h.flushes
  · rfl
  · exact h.closed
  · exact h.queueCapacity
  · exact h.batchSize
  · exact (congrArg (· + 1) h.accepted).trans (UInt64.ofNat_add n 1).symm
  · exact (congrArg (· + 1) h.committed).trans (UInt64.ofNat_add n 1).symm
  · simpa [drained, accept] using h.committedEvents
  · simpa [drained] using h.log

theorem rounds_reachable
    (n : Nat) :
    ∃ s : JsonlRun Unit Unit Unit ℚ,
      Reachable (Steps (step btcJson)) (start (.create btcJson ⟨4, 2⟩ none)) s ∧ Rounds s n := by
  induction n with
  | zero =>
      exact ⟨_, .init, .inl rfl, rfl, rfl, rfl, rfl, rfl, rfl, rfl, rfl, rfl, rfl, rfl⟩
  | succ n ih =>
      obtain ⟨s, hs, hrounds⟩ := ih
      obtain ⟨t, hrun, ht⟩ := hrounds.next
      exact ⟨t, Reachable.of_runActions _ (Reachable.of_runActions _ hs hrounds.drain) hrun, ht⟩

/--
After `2 ^ 64` accepted events `accepted_` is zero again, and `flush` returns true
while the last event is on its way to the file.  The run keeps all these events in
`committed_events_`: it is one of 64-bit counters over unlimited memory.
-/
theorem flush_returns_early :
    ∃ s t u : JsonlRun Unit Unit Unit ℚ,
      Reachable (Steps (step btcJson)) (start (.create btcJson ⟨4, 2⟩ none)) s ∧
        s.step btcJson (.callFlush ()) = some t ∧ Reachable (Steps (step btcJson)) t u ∧
        u.flushes () = .returned true ∧ s.log.length = 2 ^ 64 ∧
        ¬ load btcJson [] ++ s.acceptedEvents btcJson none <+: u.storage.committedEvents := by
  obtain ⟨r, hr, hrounds⟩ := rounds_reachable (2 ^ 64 - 1)
  have hs := Reachable.of_runActions _ hr hrounds.drain
  have hlog : r.drained.log.length = 2 ^ 64 := by
    simp [drained, hrounds.log]
  have haccepted : r.drained.storage.accepted = 0 := by
    show r.storage.accepted + 1 = 0
    rw [hrounds.accepted]
    rfl
  have hdepth : r.drained.storage.queueDepth = 0 := rfl
  have hcall : r.drained.step btcJson (.callFlush ()) = some (r.drained.setFlush () .count) := by
    have hidle : r.drained.flushes () = .idle := hrounds.flushes
    simp [step, hidle]
  have hrun : (runActions (step btcJson) (r.drained.setFlush () .count)
      flushStorage.tail).map (fun u => (u.flushes (), u.storage.committedEvents)) =
      some (.returned true, r.storage.committedEvents) := by
    simp [flushStorage, runActions, step, flushStep, setFlush, haccepted, hdepth]
    rfl
  obtain ⟨u, hu, hview⟩ := Reachable.exists_of_runActions hrun
  obtain ⟨hreturned, hevents⟩ := Prod.mk.inj hview
  refine ⟨_, _, u, hs, hcall, hu, hreturned, hlog, ?_⟩
  intro hstarts
  have hle := hstarts.length_le
  rw [hevents, hrounds.committedEvents, List.length_append, acceptedEvents, length_stampFrom,
    hlog] at hle
  omega

end Rounds

end JsonlRun
end Storage
end CryptoHft
