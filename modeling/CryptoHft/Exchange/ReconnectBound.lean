import CryptoHft.Exchange.ClosedClient

/-!
# Connection attempts are bounded

Each call of `connect` starts a chain of operations: resolve, connect, shake hands, read,
and after an error the reconnect timer.  A step of a chain starts at most one other, so
there are at most as many chains as calls of `connect`; with one call, no two reads are in
flight together and no two timers run.

`schedule_reconnect` compares `reconnect_attempts_` with the maximum and counts afterwards.
With `n` chains the count can exceed the maximum by `n - 1`.  Between two resets of the
counter it grows by one with every reconnect, so it bounds the reconnects that are scheduled
in such a stretch of a run.
-/

namespace CryptoHft
namespace Exchange

open Lib

universe v

/-- The points of a chain. -/
def Task.inChain : Task → Bool
  | .resolve | .tcpConnect | .tlsHandshake | .websocketHandshake => true
  | .beginRead | .read | .readAgain | .clearAuthenticated => true
  | .scheduleReconnect | .armTimer | .timer => true
  | .setReconnect | .resetAttempts | .doConnect => true
  | .sendAuth => false
  | .clearReconnect | .testConnected | .closeConnected | .closeAuthenticated => false
  | .closeReturn => false

/-- The points that reset `reconnect_attempts_`. -/
def Task.resets : Task → Bool
  | .beginRead | .resetAttempts => true
  | _ => false

/-- The point between the test of `reconnect_attempts_` and its increment. -/
def Task.arms : Task → Bool
  | .armTimer => true
  | _ => false

namespace ConnectionRun

variable {τ : Type v}

/-- The chains in progress. -/
def chains (s : ConnectionRun τ) : Nat :=
  s.tasks.countP Task.inChain

def arming (s : ConnectionRun τ) : Nat :=
  s.tasks.countP Task.arms

section Steps

def connectCalls (_ : ConnectionRun τ) : ConnectionAction τ → Nat
  | .connect => 1
  | _ => 0

/-- The steps that schedule a reconnect. -/
def reconnects (s : ConnectionRun τ) : ConnectionAction τ → Nat
  | .task k _ => if (s.tasks[k]?.map Task.arms).getD false then 1 else 0
  | _ => 0

/-- The steps that reset `reconnect_attempts_`. -/
def counterResets (s : ConnectionRun τ) : ConnectionAction τ → Nat
  | .task k _ => if (s.tasks[k]?.map Task.resets).getD false then 1 else 0
  | _ => 0

/-- What a step of a task does to the tasks and to the counter. -/
structure TaskStep (s t : ConnectionRun τ) (task : Task) (added : List Task) : Prop where
  tasks : t.tasks = s.tasks ++ added
  chain : added.countP Task.inChain ≤ if task.inChain then 1 else 0
  arming : added.countP Task.arms = 0 ∨
    (task = .scheduleReconnect ∧ added.countP Task.arms = 1 ∧
      s.reconnectAttempts < WebsocketClient.maxReconnectAttempts)
  count : t.reconnectAttempts =
    if task.arms then s.reconnectAttempts + 1
    else if task.resets then 0
    else s.reconnectAttempts

variable (s : ConnectionRun τ) (outcome : Outcome τ)

theorem exists_taskStep (task : Task) :
    ∃ added, TaskStep s (s.run task outcome) task added := by
  cases task with
  | resolve | tcpConnect | tlsHandshake =>
      cases outcome <;> exact ⟨_, rfl, by decide, .inl rfl, rfl⟩
  | websocketHandshake =>
      cases outcome <;> exact ⟨_, rfl, by decide, .inl rfl, rfl⟩
  | read =>
      cases outcome <;> exact ⟨_, rfl, by decide, .inl rfl, rfl⟩
  | beginRead =>
      refine ⟨[.read, .sendAuth], ?_, by decide, .inl rfl, rfl⟩
      show (s.tasks ++ [.read]) ++ [.sendAuth] = _
      rw [List.append_assoc]
      rfl
  | clearAuthenticated | armTimer | setReconnect | resetAttempts | doConnect | clearReconnect |
      closeConnected | closeAuthenticated =>
      exact ⟨_, rfl, by decide, .inl rfl, rfl⟩
  | testConnected =>
      refine ⟨[if s.connected then .closeConnected else .closeReturn], rfl, ?_, .inl ?_, rfl⟩
      all_goals
        cases s.connected <;> decide
  | sendAuth | closeReturn =>
      exact ⟨[], (List.append_nil _).symm, by decide, .inl rfl, rfl⟩
  | readAgain =>
      cases hconnected : s.connected with
      | true =>
          refine ⟨[.read], ?_, by decide, .inl rfl, ?_⟩ <;>
            simp [run, spawn, hconnected, Task.arms, Task.resets]
      | false =>
          refine ⟨[], ?_, by decide, .inl rfl, ?_⟩ <;>
            simp [run, hconnected, Task.arms, Task.resets]
  | timer =>
      cases outcome with
      | error => exact ⟨[], (List.append_nil _).symm, by decide, .inl rfl, rfl⟩
      | ok | authenticated | heartbeat =>
          cases hreconnect : s.shouldReconnect with
          | true =>
              refine ⟨[.doConnect], ?_, by decide, .inl rfl, ?_⟩ <;>
                simp [run, onTimer, spawn, hreconnect, Task.arms, Task.resets]
          | false =>
              refine ⟨[], ?_, by decide, .inl rfl, ?_⟩ <;>
                simp [run, onTimer, hreconnect, Task.arms, Task.resets]
  | scheduleReconnect =>
      by_cases hstop : s.shouldReconnect = false ∨
          WebsocketClient.maxReconnectAttempts ≤ s.reconnectAttempts
      · have hrun : s.run .scheduleReconnect outcome = s := if_pos hstop
        rw [hrun]
        exact ⟨[], (List.append_nil _).symm, by decide, .inl rfl, rfl⟩
      · have hrun : s.run .scheduleReconnect outcome = s.spawn .armTimer := if_neg hstop
        rw [hrun]
        refine ⟨[.armTimer], rfl, by decide, .inr ⟨rfl, rfl, ?_⟩, rfl⟩
        exact not_le.mp fun hle => hstop (.inr hle)

end Steps

section Bound

/-- Taking a task off the list. -/
theorem countP_eraseIdx
    {tasks : List Task} {k : Nat} {task : Task}
    (h : tasks[k]? = some task)
    (p : Task → Bool) :
    (tasks.eraseIdx k).countP p + (if p task then 1 else 0) = tasks.countP p := by
  obtain ⟨hk, rfl⟩ := List.getElem?_eq_some_iff.mp h
  rw [← (List.getElem_cons_eraseIdx_perm hk).countP_eq p, List.countP_cons]

theorem arming_le_chains (tasks : List Task) :
    tasks.countP Task.arms ≤ tasks.countP Task.inChain := by
  refine List.countP_mono_left fun task _ h => ?_
  cases task with
  | armTimer => rfl
  | _ => cases h

/-- What is known after `n` calls of `connect`. -/
structure Bounded (s : ConnectionRun τ) (n : Nat) : Prop where
  chains : s.chains ≤ n
  attempts : s.reconnectAttempts + s.arming ≤ 9 + n

variable {s t : ConnectionRun τ} {n : Nat}

theorem bounded_create : (create : ConnectionRun τ).Bounded 0 :=
  ⟨Nat.le_refl 0, Nat.zero_le _⟩

theorem Bounded.connect
    (h : s.Bounded n) :
    Bounded ({ s with closed := false }.spawn .setReconnect) (n + 1) := by
  have hchains := h.chains
  have hattempts := h.attempts
  refine ⟨?_, ?_⟩
  · show (s.tasks ++ [Task.setReconnect]).countP Task.inChain ≤ n + 1
    rw [List.countP_append]
    exact Nat.add_le_add_right hchains 1
  · show s.reconnectAttempts + (s.tasks ++ [Task.setReconnect]).countP Task.arms ≤ 9 + (n + 1)
    rw [List.countP_append]
    exact Nat.le_succ_of_le hattempts

theorem Bounded.close
    (h : s.Bounded n) :
    (s.spawn .clearReconnect).Bounded n := by
  refine ⟨?_, ?_⟩
  · show (s.tasks ++ [Task.clearReconnect]).countP Task.inChain ≤ n
    rw [List.countP_append]
    exact h.chains
  · show s.reconnectAttempts + (s.tasks ++ [Task.clearReconnect]).countP Task.arms ≤ 9 + n
    rw [List.countP_append]
    exact h.attempts

theorem Bounded.task
    (h : s.Bounded n)
    {k : Nat} {task : Task}
    (htask : s.tasks[k]? = some task)
    (outcome : Outcome τ) :
    ({ s with tasks := s.tasks.eraseIdx k }.run task outcome).Bounded n := by
  obtain ⟨added, hstep⟩ := exists_taskStep { s with tasks := s.tasks.eraseIdx k } outcome task
  generalize ({ s with tasks := s.tasks.eraseIdx k } : ConnectionRun τ).run task outcome = t at hstep
  have htasks : t.tasks = s.tasks.eraseIdx k ++ added := hstep.tasks
  have hchain := hstep.chain
  have harms : added.countP Task.arms = 0 ∨ (task = .scheduleReconnect ∧
      added.countP Task.arms = 1 ∧ s.reconnectAttempts < 10) := hstep.arming
  have hcount : t.reconnectAttempts =
      if task.arms then s.reconnectAttempts + 1
      else if task.resets then 0 else s.reconnectAttempts := hstep.count
  have herase := countP_eraseIdx htask Task.inChain
  have herase' := countP_eraseIdx htask Task.arms
  have hrest := arming_le_chains (s.tasks.eraseIdx k)
  have hchains : t.chains = (s.tasks.eraseIdx k).countP Task.inChain +
      added.countP Task.inChain := by
    rw [ConnectionRun.chains, htasks, List.countP_append]
  have harming : t.arming = (s.tasks.eraseIdx k).countP Task.arms + added.countP Task.arms := by
    rw [ConnectionRun.arming, htasks, List.countP_append]
  have hle : s.tasks.countP Task.inChain ≤ n := h.chains
  have hattempts : s.reconnectAttempts + s.tasks.countP Task.arms ≤ 9 + n := h.attempts
  cases task with
  | scheduleReconnect =>
      simp only [Task.inChain, Task.arms, Task.resets, if_true, Bool.false_eq_true, if_false,
        true_and, Nat.add_zero] at *
      exact ⟨by omega, by omega⟩
  | _ =>
      simp only [Task.inChain, Task.arms, Task.resets, if_true, Bool.false_eq_true, if_false,
        reduceCtorEq, false_and, or_false, Nat.add_zero] at *
      exact ⟨by omega, by omega⟩

theorem bounded_of_execution
    {trace : List (ConnectionRun τ × ConnectionAction τ)}
    (hrun : Execution (Steps step) create trace s) :
    s.Bounded (Execution.total connectCalls trace) := by
  induction hrun with
  | init =>
      exact bounded_create
  | @tail trace s t a hs ha ih =>
      rw [Execution.total_concat]
      cases a with
      | connect =>
          cases ha
          exact ih.connect
      | close =>
          cases ha
          exact ih.close
      | task k outcome =>
          simp only [Steps, step] at ha
          split at ha
          · cases ha
          · rename_i task htask
            cases ha
            exact ih.task htask outcome

/-- A step that does not reset the counter counts the reconnect that it schedules. -/
theorem attempts_of_step
    {a : ConnectionAction τ}
    (hstep : s.step a = some t)
    (hreset : s.counterResets a = 0) :
    t.reconnectAttempts = s.reconnectAttempts + s.reconnects a := by
  cases a with
  | connect | close =>
      cases hstep
      rfl
  | task k outcome =>
      simp only [step] at hstep
      split at hstep
      · cases hstep
      · rename_i task htask
        cases hstep
        obtain ⟨added, htaskStep⟩ :=
          exists_taskStep { s with tasks := s.tasks.eraseIdx k } outcome task
        rw [htaskStep.count]
        simp only [counterResets, reconnects, htask, Option.map_some, Option.getD_some] at hreset ⊢
        cases harms : task.arms with
        | true =>
            rfl
        | false =>
            have hnot : task.resets = false := by
              by_contra hresets
              simp [hresets] at hreset
            simp [hnot]

/-- Without a reset the counter grows by the reconnects that are scheduled. -/
theorem attempts_of_execution
    {stretch : List (ConnectionRun τ × ConnectionAction τ)}
    (hrun : Execution (Steps step) s stretch t)
    (hreset : Execution.total counterResets stretch = 0) :
    t.reconnectAttempts = s.reconnectAttempts + Execution.total reconnects stretch := by
  induction hrun with
  | init =>
      rfl
  | @tail stretch u v a hs ha ih =>
      rw [Execution.total_concat] at hreset ⊢
      rw [attempts_of_step ha (by omega), ih (by omega)]
      omega

/--
After `n` calls of `connect` at most `n` chains are in progress, so at most `n` reads are in
flight, and the counter is at most `9 + n`.  In every stretch of the run in which the counter
is not reset, so before the first reset and after each of them, at most that many reconnects
are scheduled.
-/
theorem reconnects_bounded
    {trace : List (ConnectionRun τ × ConnectionAction τ)}
    (hrun : Execution (Steps step) create trace s) :
    s.chains ≤ Execution.total connectCalls trace ∧
      s.tasks.count .read ≤ Execution.total connectCalls trace ∧
      s.reconnectAttempts ≤ 9 + Execution.total connectCalls trace ∧
      ∀ before stretch after, trace = before ++ stretch ++ after →
        Execution.total counterResets stretch = 0 →
        Execution.total reconnects stretch ≤
          9 + Execution.total connectCalls (before ++ stretch) := by
  have hbounded := bounded_of_execution hrun
  refine ⟨hbounded.chains, ?_, (Nat.le_add_right _ _).trans hbounded.attempts, ?_⟩
  · refine (List.countP_mono_left fun task _ h => ?_).trans hbounded.chains
    rw [eq_of_beq h]
    rfl
  · rintro before stretch after rfl hreset
    obtain ⟨t, hwhole, -⟩ := hrun.split
    obtain ⟨u, -, hstretch⟩ := hwhole.split
    have hattempts := (bounded_of_execution hwhole).attempts
    have hgrown := attempts_of_execution hstretch hreset
    omega

/-- Two calls of `connect`, up to the point where both chains have reset the counter. -/
def connectTwice : List (ConnectionAction Unit) :=
  [.connect, .connect] ++ List.replicate 4 (.task 0 .error)

/-- Both chains fail, and both test the counter before either of them counts. -/
def failTwice : List (ConnectionAction Unit) :=
  List.replicate 8 (.task 0 .error)

theorem reconnects_bounded_two_chains :
    ∃ (s : ConnectionRun Unit)
      (before stretch : List (ConnectionRun Unit × ConnectionAction Unit)),
      (Execution.total connectCalls (before ++ stretch) = 2 ∧
        Execution.total counterResets before = 2 ∧ s.chains = 2) ∧
      Execution.total reconnects stretch = 2 ∧
        Execution.total reconnects stretch ≤
          9 + Execution.total connectCalls (before ++ stretch) := by
  have hview : ((runTrace step (create : ConnectionRun Unit) connectTwice).bind (fun p =>
      (runTrace step p.2 failTwice).map (fun q => (p, q)))).map (fun r =>
        decide ((Execution.total connectCalls (r.1.1 ++ r.2.1) = 2 ∧
          Execution.total counterResets r.1.1 = 2 ∧ r.2.2.chains = 2) ∧
          Execution.total reconnects r.2.1 = 2 ∧ Execution.total counterResets r.2.1 = 0)) =
      some true := by
    decide +kernel
  obtain ⟨⟨⟨before, m⟩, ⟨stretch, s⟩⟩, hboth, hview⟩ := Option.map_eq_some_iff.mp hview
  obtain ⟨⟨before', m'⟩, hbefore, hrest⟩ := Option.bind_eq_some_iff.mp hboth
  obtain ⟨⟨stretch', s'⟩, hstretch, heq⟩ := Option.map_eq_some_iff.mp hrest
  simp only [Prod.mk.injEq] at heq
  obtain ⟨⟨rfl, rfl⟩, rfl, rfl⟩ := heq
  obtain ⟨hcalls, hreconnects, hreset⟩ := of_decide_eq_true hview
  have hrun := Execution.of_runTrace failTwice
    (Execution.of_runTrace connectTwice Execution.init hbefore) hstretch
  exact ⟨s', before', stretch', hcalls, hreconnects,
    (reconnects_bounded hrun).2.2.2 before' stretch' [] (List.append_nil _).symm hreset⟩

end Bound

end ConnectionRun

end Exchange
end CryptoHft
