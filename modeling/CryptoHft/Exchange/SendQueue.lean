import CryptoHft.Lib.Runs
import CryptoHft.Lib.CString

/-!
# The send queue of the websocket client

`async_send` and `do_send` of `include/exchange/websocket_client.hpp`.  Any number
of threads push messages under `send_mutex_` and then compete for the flag
`sending_`; whoever sets it runs `do_send`, which pops one message under the
mutex and starts an asynchronous write, or clears the flag if there is none.
The completion handler of a write runs on any thread: after a success it runs
`do_send` again, after an error it clears the flag.

The steps of the model are the atomic sections of the source: the locked push,
the compare-exchange, the locked pop-or-clear, the start of the write, its
completion, and the store to the flag in the error branch.  `pushed` and
`written` record the messages that were pushed and those passed to `async_write`;
neither is read by a step.
-/

namespace CryptoHft
namespace Exchange

open Lib

universe u v

/-- Where a thread stands in `async_send`, `do_send` or a completion handler. -/
inductive SendPc (μ : Type v)
  | idle
  /-- `async_send` has pushed its message. -/
  | pushed
  /-- At the locked section of `do_send`. -/
  | draining
  /-- `do_send` has popped a message. -/
  | holding (msg : μ)
  /-- A completion handler got an error. -/
  | failed
deriving DecidableEq

namespace SendPc

variable {μ : Type v}

/-- The thread works under the flag it, or a write before it, has set. -/
def isActive : SendPc μ → Bool
  | idle => false
  | pushed => false
  | draining => true
  | holding _ => true
  | failed => true

/-- The message a thread has popped and not yet written. -/
def held : SendPc μ → List μ
  | holding msg => [msg]
  | idle => []
  | pushed => []
  | draining => []
  | failed => []

end SendPc

structure SendQueue (ι : Type u) (μ : Type v) where
  queue : List μ
  sending : Bool
  pc : ι → SendPc μ
  /-- The writes that have not completed. -/
  outstanding : List μ
  pushed : List μ
  written : List μ

inductive SendAction (ι : Type u) (μ : Type v)
  | push (i : ι) (msg : μ)
  | compareExchange (i : ι)
  | popOrClear (i : ι)
  | startWrite (i : ι)
  /-- The `k`-th outstanding write completes, and its handler runs on thread `i`. -/
  | complete (i : ι) (k : Nat) (ok : Bool)
  | clearFlag (i : ι)
deriving DecidableEq

namespace SendAction

variable {ι : Type u} {μ : Type v}

/-- The thread that takes the step. -/
def thread : SendAction ι μ → ι
  | push i _ => i
  | compareExchange i => i
  | popOrClear i => i
  | startWrite i => i
  | complete i _ _ => i
  | clearFlag i => i

/-- The step starts a call of `async_send`. -/
def isPush : SendAction ι μ → Bool
  | push _ _ => true
  | _ => false

/-- The step is the completion of a write with an error. -/
def isWriteError : SendAction ι μ → Bool
  | complete _ _ ok => !ok
  | _ => false

end SendAction

namespace SendQueue

section Steps

variable {ι : Type u} {μ : Type v} [DecidableEq ι]

def create : SendQueue ι μ where
  queue := []
  sending := false
  pc := fun _ => .idle
  outstanding := []
  pushed := []
  written := []

def setPc (s : SendQueue ι μ) (i : ι) (pc : SendPc μ) : SendQueue ι μ :=
  { s with pc := Function.update s.pc i pc }

def step (s : SendQueue ι μ) : SendAction ι μ → Option (SendQueue ι μ)
  | .push i msg =>
      match s.pc i with
      | .idle =>
          some { s.setPc i .pushed with
            queue := s.queue ++ [msg]
            pushed := s.pushed ++ [msg] }
      | _ => none
  | .compareExchange i =>
      match s.pc i with
      | .pushed =>
          if s.sending then some (s.setPc i .idle)
          else some { s.setPc i .draining with sending := true }
      | _ => none
  | .popOrClear i =>
      match s.pc i with
      | .draining =>
          match s.queue with
          | [] => some { s.setPc i .idle with sending := false }
          | msg :: rest => some { s.setPc i (.holding msg) with queue := rest }
      | _ => none
  | .startWrite i =>
      match s.pc i with
      | .holding msg =>
          some { s.setPc i .idle with
            outstanding := s.outstanding ++ [msg]
            written := s.written ++ [msg] }
      | _ => none
  | .complete i k ok =>
      match s.pc i with
      | .idle =>
          if k < s.outstanding.length then
            some { s.setPc i (if ok then .draining else .failed) with
              outstanding := s.outstanding.eraseIdx k }
          else none
      | _ => none
  | .clearFlag i =>
      match s.pc i with
      | .failed => some { s.setPc i .idle with sending := false }
      | _ => none

/-- Nothing is left to do: no step but the start of another call is enabled. -/
def Quiescent (s : SendQueue ι μ) : Prop :=
  ∀ a : SendAction ι μ, a.isPush = false → s.step a = none

end Steps

section Inversion

variable {ι : Type u} {μ : Type v} [DecidableEq ι]
variable {s t : SendQueue ι μ} {i : ι}

theorem of_push
    {msg : μ}
    (h : s.step (.push i msg) = some t) :
    s.pc i = .idle ∧
      t = { s.setPc i .pushed with
        queue := s.queue ++ [msg]
        pushed := s.pushed ++ [msg] } := by
  cases hpc : s.pc i <;> simp_all [step]

theorem of_compareExchange
    (h : s.step (.compareExchange i) = some t) :
    s.pc i = .pushed ∧
      ((s.sending = true ∧ t = s.setPc i .idle) ∨
        (s.sending = false ∧ t = { s.setPc i .draining with sending := true })) := by
  cases hpc : s.pc i <;> cases hflag : s.sending <;> simp_all [step]

theorem of_popOrClear
    (h : s.step (.popOrClear i) = some t) :
    s.pc i = .draining ∧
      ((s.queue = [] ∧ t = { s.setPc i .idle with sending := false }) ∨
        (∃ msg rest, s.queue = msg :: rest ∧
          t = { s.setPc i (.holding msg) with queue := rest })) := by
  cases hpc : s.pc i <;> cases hqueue : s.queue <;> simp_all [step]

theorem of_startWrite
    (h : s.step (.startWrite i) = some t) :
    ∃ msg, s.pc i = .holding msg ∧
      t = { s.setPc i .idle with
        outstanding := s.outstanding ++ [msg]
        written := s.written ++ [msg] } := by
  cases hpc : s.pc i <;> simp_all [step]

theorem of_complete
    {k : Nat} {ok : Bool}
    (h : s.step (.complete i k ok) = some t) :
    s.pc i = .idle ∧ k < s.outstanding.length ∧
      t = { s.setPc i (if ok then .draining else .failed) with
        outstanding := s.outstanding.eraseIdx k } := by
  cases hpc : s.pc i <;> by_cases hk : k < s.outstanding.length <;> simp_all [step]

theorem of_clearFlag
    (h : s.step (.clearFlag i) = some t) :
    s.pc i = .failed ∧ t = { s.setPc i .idle with sending := false } := by
  cases hpc : s.pc i <;> simp_all [step]

end Inversion

section Ownership

variable {ι : Type u} {μ : Type v}

/-- Who is responsible for draining the queue. -/
inductive Owner (ι : Type u) (μ : Type v)
  | nobody
  | thread (i : ι)
  | wire (msg : μ)

/-- The write that owns the flag. -/
def Owner.onWire : Owner ι μ → List μ
  | nobody => []
  | thread _ => []
  | wire msg => [msg]

/-- The message that an owner has popped and not yet written. -/
def Owner.held (pc : ι → SendPc μ) : Owner ι μ → List μ
  | nobody => []
  | thread i => (pc i).held
  | wire _ => []

/-- The state as it is while the flag belongs to an owner. -/
structure OwnedBy (s : SendQueue ι μ) (owner : Owner ι μ) : Prop where
  sending : s.sending = true ↔ owner ≠ .nobody
  active : ∀ i, (s.pc i).isActive = true ↔ owner = .thread i
  outstanding : s.outstanding = owner.onWire
  pushed : s.pushed = s.written ++ owner.held s.pc ++ s.queue

/-- The flag has at most one owner, and it is set exactly while it has one. -/
def Owned (s : SendQueue ι μ) : Prop :=
  ∃ owner, OwnedBy s owner

theorem owned_create : Owned (create : SendQueue ι μ) :=
  ⟨.nobody, by constructor <;> simp [create, SendPc.isActive, Owner.onWire, Owner.held]⟩

theorem OwnedBy.thread_of_active
    {s : SendQueue ι μ} {owner : Owner ι μ} {i : ι}
    (h : OwnedBy s owner)
    (hactive : (s.pc i).isActive = true) :
    OwnedBy s (.thread i) := by
  rw [← (h.active i).mp hactive]
  exact h

theorem OwnedBy.inactive
    {s : SendQueue ι μ} {owner : Owner ι μ}
    (h : OwnedBy s owner)
    (hother : ∀ j, owner ≠ .thread j)
    (j : ι) :
    (s.pc j).isActive = false := by
  rw [Bool.eq_false_iff]
  intro hactive
  exact hother j ((h.active j).mp hactive)

variable [DecidableEq ι] {s t : SendQueue ι μ} {i : ι}

@[simp] theorem setPc_queue (pc : SendPc μ) : (s.setPc i pc).queue = s.queue :=
  rfl

@[simp] theorem setPc_sending (pc : SendPc μ) : (s.setPc i pc).sending = s.sending :=
  rfl

@[simp] theorem setPc_outstanding (pc : SendPc μ) :
    (s.setPc i pc).outstanding = s.outstanding :=
  rfl

@[simp] theorem setPc_pushed (pc : SendPc μ) : (s.setPc i pc).pushed = s.pushed :=
  rfl

@[simp] theorem setPc_written (pc : SendPc μ) : (s.setPc i pc).written = s.written :=
  rfl

theorem setPc_pc_self (pc : SendPc μ) : (s.setPc i pc).pc i = pc := by
  simp [setPc]

theorem setPc_pc_of_ne {j : ι} (hne : j ≠ i) (pc : SendPc μ) :
    (s.setPc i pc).pc j = s.pc j := by
  simp [setPc, hne]

/-- A thread that does not own the flag moves between points that do not need it. -/
theorem OwnedBy.setPc_of_inactive
    {owner : Owner ι μ}
    (h : OwnedBy s owner)
    (hbefore : (s.pc i).isActive = false)
    (pc : SendPc μ)
    (hafter : pc.isActive = false) :
    OwnedBy (s.setPc i pc) owner := by
  have hother : owner ≠ .thread i := by
    intro howner
    rw [(h.active i).mpr howner] at hbefore
    cases hbefore
  refine ⟨h.sending, ?_, h.outstanding, ?_⟩
  · intro j
    by_cases hj : j = i
    · subst hj
      rw [setPc_pc_self, hafter]
      simpa using hother
    · rw [setPc_pc_of_ne hj]
      exact h.active j
  · have hheld : owner.held (s.setPc i pc).pc = owner.held s.pc := by
      cases owner with
      | nobody =>
          rfl
      | wire msg =>
          rfl
      | thread j =>
          have hj : j ≠ i := by
            rintro rfl
            exact hother rfl
          simp only [Owner.held, setPc_pc_of_ne hj]
    rw [hheld]
    exact h.pushed

/-- An inactive thread takes the flag. -/
theorem ownedBy_thread_of_inactive
    (hinactive : ∀ j, (s.pc j).isActive = false)
    (pc : SendPc μ)
    (hpc : t.pc = (s.setPc i pc).pc)
    (hactive : pc.isActive = true)
    (hheld : pc.held = [])
    (hsending : t.sending = true)
    (houtstanding : t.outstanding = [])
    (hpushed : t.pushed = t.written ++ t.queue) :
    OwnedBy t (.thread i) := by
  refine ⟨by simp [hsending], ?_, houtstanding, ?_⟩
  · intro j
    rw [hpc]
    by_cases hj : j = i
    · subst hj
      simp [setPc_pc_self, hactive]
    · rw [setPc_pc_of_ne hj, hinactive j]
      simpa [eq_comm] using hj
  · simp [Owner.held, hpc, setPc_pc_self, hheld, hpushed]

/-- The owning thread passes the flag on, to a write or to nobody. -/
theorem ownedBy_of_thread_done
    (h : OwnedBy s (.thread i))
    {owner : Owner ι μ}
    (hother : ∀ j, owner ≠ .thread j)
    (hpc : t.pc = (s.setPc i .idle).pc)
    (hsending : t.sending = true ↔ owner ≠ .nobody)
    (houtstanding : t.outstanding = owner.onWire)
    (hpushed : t.pushed = t.written ++ t.queue) :
    OwnedBy t owner := by
  have hheld : owner.held t.pc = [] := by
    cases owner with
    | nobody =>
        rfl
    | wire msg =>
        rfl
    | thread j =>
        exact absurd rfl (hother j)
  refine ⟨hsending, ?_, houtstanding, by simp [hheld, hpushed]⟩
  intro j
  have hinactive : (t.pc j).isActive = false := by
    rw [hpc]
    by_cases hj : j = i
    · subst hj
      rw [setPc_pc_self]
      rfl
    · rw [setPc_pc_of_ne hj, Bool.eq_false_iff]
      intro hactive
      have howner := (h.active j).mp hactive
      cases howner
      exact hj rfl
  simp [hinactive, hother j]

/-- Every step keeps at most one owner of the flag. -/
theorem Owned.step
    (h : Owned s)
    {a : SendAction ι μ}
    (ha : s.step a = some t) :
    Owned t := by
  obtain ⟨owner, howner⟩ := h
  cases a with
  | push i msg =>
      obtain ⟨hpc, rfl⟩ := of_push ha
      have hset := howner.setPc_of_inactive (by rw [hpc]; rfl) .pushed rfl
      refine ⟨owner, hset.sending, hset.active, hset.outstanding, ?_⟩
      have hpushed := congrArg (· ++ [msg]) hset.pushed
      simpa [List.append_assoc] using hpushed
  | compareExchange i =>
      obtain ⟨hpc, ⟨hflag, rfl⟩ | ⟨hflag, rfl⟩⟩ := of_compareExchange ha
      · exact ⟨owner, howner.setPc_of_inactive (by rw [hpc]; rfl) .idle rfl⟩
      · have hnobody : owner = .nobody := by
          by_contra hne
          rw [howner.sending.mpr hne] at hflag
          cases hflag
        subst hnobody
        refine ⟨.thread i, ownedBy_thread_of_inactive (s := s)
          (howner.inactive (by simp)) .draining rfl rfl rfl rfl howner.outstanding ?_⟩
        simpa [Owner.held] using howner.pushed
  | popOrClear i =>
      obtain ⟨hpc, hcases⟩ := of_popOrClear ha
      have hthread := howner.thread_of_active (i := i) (by rw [hpc]; rfl)
      have hpushed := hthread.pushed
      simp only [Owner.held, hpc, SendPc.held, List.append_nil] at hpushed
      obtain ⟨hqueue, rfl⟩ | ⟨msg, rest, hqueue, rfl⟩ := hcases
      · exact ⟨.nobody, ownedBy_of_thread_done hthread (by simp) rfl (by simp)
          hthread.outstanding hpushed⟩
      · -- the popped message moves from the queue to the hands of the owner
        refine ⟨.thread i, hthread.sending, ?_, hthread.outstanding, ?_⟩
        · intro j
          by_cases hj : j = i
          · subst hj
            simp [setPc_pc_self, SendPc.isActive]
          · simp only [setPc_pc_of_ne hj]
            exact hthread.active j
        · simp only [Owner.held, setPc_pc_self, SendPc.held, List.append_assoc,
            List.singleton_append, ← hqueue]
          exact hpushed
  | startWrite i =>
      obtain ⟨msg, hpc, rfl⟩ := of_startWrite ha
      have hthread := howner.thread_of_active (i := i) (by rw [hpc]; rfl)
      have hpushed := hthread.pushed
      simp only [Owner.held, hpc, SendPc.held] at hpushed
      refine ⟨.wire msg, ownedBy_of_thread_done hthread (by simp) rfl ?_ ?_ hpushed⟩
      · simpa using hthread.sending
      · have hnone := hthread.outstanding
        simp only [Owner.onWire] at hnone ⊢
        rw [hnone, List.nil_append]
  | complete i k ok =>
      obtain ⟨hpc, hk, rfl⟩ := of_complete ha
      cases owner with
      | nobody =>
          rw [howner.outstanding] at hk
          simp [Owner.onWire] at hk
      | thread j =>
          rw [howner.outstanding] at hk
          simp [Owner.onWire] at hk
      | wire msg =>
          have hout := howner.outstanding
          simp only [Owner.onWire] at hout
          have hzero : k = 0 := by
            rw [hout, List.length_singleton] at hk
            omega
          refine ⟨.thread i, ownedBy_thread_of_inactive (s := s)
            (howner.inactive (by simp)) (if ok then .draining else .failed) rfl ?_ ?_ ?_ ?_ ?_⟩
          · cases ok <;> rfl
          · cases ok <;> rfl
          · exact howner.sending.mpr (by simp)
          · simp [hout, hzero]
          · simpa [Owner.held] using howner.pushed
  | clearFlag i =>
      obtain ⟨hpc, rfl⟩ := of_clearFlag ha
      have hthread := howner.thread_of_active (i := i) (by rw [hpc]; rfl)
      have hpushed := hthread.pushed
      simp only [Owner.held, hpc, SendPc.held, List.append_nil] at hpushed
      exact ⟨.nobody, ownedBy_of_thread_done hthread (by simp) rfl (by simp)
        hthread.outstanding hpushed⟩

theorem owned_of_reachable
    (hs : Reachable (Steps step) (create : SendQueue ι μ) s) :
    Owned s :=
  hs.invariant owned_create (fun _ _ _ h ha => h.step ha)

end Ownership

section Wakeup

variable {ι : Type u} {μ : Type v} [DecidableEq ι] {s t : SendQueue ι μ}

/-- A message in the queue has somebody who will come for it. -/
structure Awake (s : SendQueue ι μ) : Prop where
  waits : s.queue ≠ [] → s.sending = true ∨ ∃ i, s.pc i = .pushed
  healthy : ∀ i, s.pc i ≠ .failed

omit [DecidableEq ι] in
theorem awake_create : Awake (create : SendQueue ι μ) := by
  constructor <;> simp [create]

/-- Every step but a failing completion keeps the queue awake. -/
theorem Awake.step
    (h : Awake s)
    (howned : Owned s)
    {a : SendAction ι μ}
    (ha : s.step a = some t)
    (hok : a.isWriteError = false) :
    Awake t := by
  -- no step below puts a thread into the error branch of a handler
  have hhealthy : ∀ {i : ι} {pc : SendPc μ}, pc ≠ .failed →
      ∀ j, (s.setPc i pc).pc j ≠ .failed := by
    intro i pc hpc j
    by_cases hj : j = i
    · subst hj
      rwa [setPc_pc_self]
    · rw [setPc_pc_of_ne hj]
      exact h.healthy j
  obtain ⟨owner, howner⟩ := howned
  cases a with
  | push i msg =>
      obtain ⟨-, rfl⟩ := of_push ha
      exact ⟨fun _ => .inr ⟨i, setPc_pc_self _⟩, hhealthy (by simp)⟩
  | compareExchange i =>
      obtain ⟨-, ⟨hflag, rfl⟩ | ⟨-, rfl⟩⟩ := of_compareExchange ha
      · exact ⟨fun _ => .inl hflag, hhealthy (by simp)⟩
      · exact ⟨fun _ => .inl rfl, hhealthy (by simp)⟩
  | popOrClear i =>
      obtain ⟨hpc, ⟨hqueue, rfl⟩ | ⟨msg, rest, -, rfl⟩⟩ := of_popOrClear ha
      · exact ⟨fun hne => absurd hqueue hne, hhealthy (by simp)⟩
      · have hthread := howner.thread_of_active (i := i) (by rw [hpc]; rfl)
        exact ⟨fun _ => .inl (hthread.sending.mpr (by simp)), hhealthy (by simp)⟩
  | startWrite i =>
      obtain ⟨msg, hpc, rfl⟩ := of_startWrite ha
      have hthread := howner.thread_of_active (i := i) (by rw [hpc]; rfl)
      exact ⟨fun _ => .inl (hthread.sending.mpr (by simp)), hhealthy (by simp)⟩
  | complete i k ok =>
      obtain ⟨-, hk, rfl⟩ := of_complete ha
      have hwire : owner ≠ .nobody := by
        rintro rfl
        rw [howner.outstanding] at hk
        simp [Owner.onWire] at hk
      have htrue : ok = true := by
        simpa [SendAction.isWriteError] using hok
      exact ⟨fun _ => .inl (howner.sending.mpr hwire), hhealthy (by simp [htrue])⟩
  | clearFlag i =>
      exact absurd (of_clearFlag ha).1 (h.healthy i)

/-- Runs in which no write completes with an error. -/
def WithoutWriteErrors (s : SendQueue ι μ) : Prop :=
  Reachable (Guarded (Steps step) (fun _ a => a.isWriteError = false)) create s

theorem WithoutWriteErrors.awake
    (hs : WithoutWriteErrors s) :
    Awake s := by
  induction hs with
  | init =>
      exact awake_create
  | tail hprev ha ih =>
      exact ih.step (owned_of_reachable hprev.of_guarded) ha.1 ha.2

/-- When nothing is left to do, every thread is outside and no write is pending. -/
theorem Quiescent.idle
    (h : Quiescent s)
    (i : ι) :
    s.pc i = .idle ∧ s.outstanding = [] := by
  have hpc : s.pc i = .idle := by
    cases hpc : s.pc i with
    | idle =>
        rfl
    | pushed =>
        have hnone := h (.compareExchange i) rfl
        cases hflag : s.sending <;> simp [step, hpc, hflag] at hnone
    | draining =>
        have hnone := h (.popOrClear i) rfl
        cases hqueue : s.queue <;> simp [step, hpc, hqueue] at hnone
    | holding msg =>
        have hnone := h (.startWrite i) rfl
        simp [step, hpc] at hnone
    | failed =>
        have hnone := h (.clearFlag i) rfl
        simp [step, hpc] at hnone
  refine ⟨hpc, ?_⟩
  have hnone := h (.complete i 0 true) rfl
  simpa [step, hpc] using hnone

/-- A write was started by some thread. -/
theorem nonempty_of_outstanding
    (hs : Reachable (Steps step) (create : SendQueue ι μ) s)
    (hout : s.outstanding ≠ []) :
    Nonempty ι := by
  cases hs with
  | init =>
      exact absurd rfl hout
  | @tail _ _ a _ _ =>
      exact ⟨a.thread⟩

/--
At most one write is outstanding, and the `k`-th message passed to `async_write`
is the `k`-th message pushed.  Without write errors nothing is stranded.
-/
theorem send_queue_safe
    (hs : Reachable (Steps step) (create : SendQueue ι μ) s) :
    s.outstanding.length ≤ 1 ∧
      s.written <+: s.pushed ∧
      (WithoutWriteErrors s → Quiescent s →
        s.queue = [] ∧ s.sending = false ∧ s.written = s.pushed) := by
  obtain ⟨owner, howner⟩ := owned_of_reachable hs
  refine ⟨?_, ?_, ?_⟩
  · rw [howner.outstanding]
    cases owner <;> simp [Owner.onWire]
  · rw [howner.pushed, List.append_assoc]
    exact List.prefix_append _ _
  · intro hrun hquiet
    have hidle : ∀ i, (s.pc i).isActive = false := by
      intro i
      rw [(hquiet.idle i).1]
      rfl
    -- neither a thread nor a write owns the flag
    have hnobody : owner = .nobody := by
      cases hcase : owner with
      | nobody =>
          rfl
      | thread i =>
          have hactive := (howner.active i).mpr hcase
          rw [hidle i] at hactive
          cases hactive
      | wire msg =>
          have hout := howner.outstanding
          rw [hcase, Owner.onWire] at hout
          obtain ⟨i⟩ : Nonempty ι := nonempty_of_outstanding hs (by simp [hout])
          rw [(hquiet.idle i).2] at hout
          cases hout
    subst hnobody
    have hflag : s.sending = false := by
      rw [Bool.eq_false_iff]
      intro hflag
      exact (howner.sending.mp hflag) rfl
    have hqueue : s.queue = [] := by
      by_contra hne
      rcases hrun.awake.waits hne with hsending | ⟨i, hi⟩
      · rw [hflag] at hsending
        cases hsending
      · rw [(hquiet.idle i).1] at hi
        cases hi
    refine ⟨hqueue, hflag, ?_⟩
    rw [howner.pushed, hqueue]
    simp [Owner.held]

theorem quiescent_of_idle
    (hidle : ∀ i, s.pc i = .idle)
    (hout : s.outstanding = []) :
    Quiescent s := by
  intro a ha
  cases a with
  | push i msg =>
      cases ha
  | compareExchange i =>
      simp [step, hidle]
  | popOrClear i =>
      simp [step, hidle]
  | startWrite i =>
      simp [step, hidle]
  | complete i k ok =>
      simp [step, hidle, hout]
  | clearFlag i =>
      simp [step, hidle]

/-- Two threads push; one of them and the handler of its write do the sending. -/
theorem send_queue_safe_two_threads :
    ∃ s : SendQueue (Fin 2) Nat,
      Reachable (Steps step) create s ∧ WithoutWriteErrors s ∧ Quiescent s ∧
        s.pushed = [7, 8] ∧ s.written = s.pushed ∧ s.outstanding.length ≤ 1 := by
  have hrun : (runActions (guardActions step (fun _ a => a.isWriteError = false))
      (create : SendQueue (Fin 2) Nat)
      [.push 0 7, .push 1 8, .compareExchange 0, .compareExchange 1, .popOrClear 0,
        .startWrite 0, .complete 1 0 true, .popOrClear 1, .startWrite 1, .complete 0 0 true,
        .popOrClear 0]).map (fun s => (s.pc 0, s.pc 1, s.outstanding, s.pushed)) =
      some (.idle, .idle, [], [7, 8]) := by
    decide
  obtain ⟨s, hs, hview⟩ := Reachable.exists_of_guardActions hrun
  simp only [Prod.mk.injEq] at hview
  obtain ⟨hzero, hone, hout, hpushed⟩ := hview
  have hquiet : Quiescent s := by
    refine quiescent_of_idle (fun i => ?_) hout
    fin_cases i
    · exact hzero
    · exact hone
  obtain ⟨hlength, -, hdone⟩ := send_queue_safe hs.of_guarded
  exact ⟨s, hs.of_guarded, hs, hquiet, hpushed, (hdone hs hquiet).2.2, hlength⟩

end Wakeup

end SendQueue

end Exchange
end CryptoHft
