import CryptoHft.Exchange.WebsocketClient
import CryptoHft.Lib.Runs

/-!
# A closed client

The connection handlers of `include/exchange/websocket_client.hpp`, lines 119-133
and 186-346, cut at every access to the flags of the client.  `WebsocketClient`
takes `close` and each handler as one step; here a call of `connect` or `close`, a
handler and an asynchronous operation in flight are tasks, any number of them at a
time, and a step moves one task on.  The outcome of an operation is chosen by the
environment.  The callbacks of the owner are not part of the handlers.

`closed` is set when a call of `close` returns and cleared by the next call of
`connect`; `handlerSends` are the requests that handlers have queued since then.
None of the handlers of the connect chain looks at `should_reconnect_`, so a
client stays closed (`StaysClosed`) only if `close` finds no attempt in progress.
Once that is so, the reconnect timer does not start a new one: this is the
content of `stays_closed`.
-/

namespace CryptoHft
namespace Exchange

open Lib

universe v

/-- How an asynchronous operation ends. -/
inductive Outcome (τ : Type v)
  | error
  /-- Success; for a read, a message without consequences for the connection. -/
  | ok
  /-- A read gets a successful reply to the authentication request. -/
  | authenticated
  /-- A read gets a heartbeat, and this is the reply. -/
  | heartbeat (reply : τ)
deriving DecidableEq

inductive Task
  -- operations in flight
  | resolve
  | tcpConnect
  | tlsHandshake
  | websocketHandshake
  | read
  | timer
  -- `on_handshake`, after `connected_` has been set
  | beginRead
  | sendAuth
  -- `on_read`
  | clearAuthenticated
  | readAgain
  -- `schedule_reconnect`
  | scheduleReconnect
  | armTimer
  -- `connect`, and `do_connect`
  | setReconnect
  | resetAttempts
  | doConnect
  -- `close`
  | clearReconnect
  | testConnected
  | closeConnected
  | closeAuthenticated
  | closeReturn
deriving DecidableEq

namespace Task

/-- The tasks that end in a connection, if nothing fails. -/
def opening : Task → Bool
  | resolve | tcpConnect | tlsHandshake | websocketHandshake => true
  | beginRead | sendAuth => true
  | setReconnect | resetAttempts | doConnect => true
  | _ => false

/-- A call of `close` that has tested `connected_`. -/
def closing : Task → Bool
  | closeConnected | closeAuthenticated | closeReturn => true
  | _ => false

end Task

structure ConnectionRun (τ : Type v) where
  shouldReconnect : Bool
  connected : Bool
  authenticated : Bool
  reconnectAttempts : Nat
  tasks : List Task
  closed : Bool
  handlerSends : List (Request τ)

inductive ConnectionAction (τ : Type v)
  | connect
  | close
  /-- Task number `k` moves on. -/
  | task (k : Nat) (outcome : Outcome τ)

namespace ConnectionRun

section Steps

variable {τ : Type v}

def create : ConnectionRun τ where
  shouldReconnect := true
  connected := false
  authenticated := false
  reconnectAttempts := 0
  tasks := []
  closed := false
  handlerSends := []

def spawn (s : ConnectionRun τ) (task : Task) : ConnectionRun τ :=
  { s with tasks := s.tasks ++ [task] }

/-- The next step of an operation of the connect chain. -/
def onChain (s : ConnectionRun τ) (outcome : Outcome τ) (next : Task) : ConnectionRun τ :=
  match outcome with
  | .error => s.spawn .scheduleReconnect
  | _ => s.spawn next

def onHandshake (s : ConnectionRun τ) (outcome : Outcome τ) : ConnectionRun τ :=
  match outcome with
  | .error => s.spawn .scheduleReconnect
  | _ => { s with connected := true }.spawn .beginRead

def onRead (s : ConnectionRun τ) (outcome : Outcome τ) : ConnectionRun τ :=
  match outcome with
  | .error => { s with connected := false }.spawn .clearAuthenticated
  | .ok => s.spawn .readAgain
  | .authenticated => { s with authenticated := true }.spawn .readAgain
  | .heartbeat reply =>
      { s with handlerSends := s.handlerSends ++ [Request.other reply] }.spawn .readAgain

/-- The callback of the reconnect timer. -/
def onTimer (s : ConnectionRun τ) (outcome : Outcome τ) : ConnectionRun τ :=
  match outcome with
  | .error => s
  | _ => if s.shouldReconnect then s.spawn .doConnect else s

/-- One step of a task, which has been taken off the list. -/
def run (s : ConnectionRun τ) (task : Task) (outcome : Outcome τ) : ConnectionRun τ :=
  match task with
  | .resolve => s.onChain outcome .tcpConnect
  | .tcpConnect => s.onChain outcome .tlsHandshake
  | .tlsHandshake => s.onChain outcome .websocketHandshake
  | .websocketHandshake => s.onHandshake outcome
  | .beginRead => ({ s with reconnectAttempts := 0 }.spawn .read).spawn .sendAuth
  | .sendAuth => { s with handlerSends := s.handlerSends ++ [.auth] }
  | .read => s.onRead outcome
  | .clearAuthenticated => { s with authenticated := false }.spawn .scheduleReconnect
  | .readAgain => if s.connected then s.spawn .read else s
  | .scheduleReconnect =>
      if s.shouldReconnect = false ∨ WebsocketClient.maxReconnectAttempts ≤ s.reconnectAttempts
      then s
      else s.spawn .armTimer
  | .armTimer => { s with reconnectAttempts := s.reconnectAttempts + 1 }.spawn .timer
  | .timer => s.onTimer outcome
  | .setReconnect => { s with shouldReconnect := true }.spawn .resetAttempts
  | .resetAttempts => { s with reconnectAttempts := 0 }.spawn .doConnect
  | .doConnect => s.spawn .resolve
  | .clearReconnect => { s with shouldReconnect := false }.spawn .testConnected
  | .testConnected => s.spawn (if s.connected then .closeConnected else .closeReturn)
  | .closeConnected => { s with connected := false }.spawn .closeAuthenticated
  | .closeAuthenticated => { s with authenticated := false }.spawn .closeReturn
  | .closeReturn =>
      { s with closed := true, handlerSends := if s.closed then s.handlerSends else [] }

def step (s : ConnectionRun τ) : ConnectionAction τ → Option (ConnectionRun τ)
  | .connect => some ({ s with closed := false }.spawn .setReconnect)
  | .close => some (s.spawn .clearReconnect)
  | .task k outcome =>
      match s.tasks[k]? with
      | none => none
      | some task => some ({ s with tasks := s.tasks.eraseIdx k }.run task outcome)

/--
After `close` has returned and until the next `connect`, the flags are down and
no handler has queued an authentication request or an order.
-/
def StaysClosed (s : ConnectionRun τ) : Prop :=
  s.closed = true →
    s.connected = false ∧ s.authenticated = false ∧
      ∀ request ∈ s.handlerSends, ∃ body, request = .other body

/-- `close` has tested `connected_` or has returned, and `connect` was not called since. -/
def Quiet (s : ConnectionRun τ) : Prop :=
  s.closed = true ∨ ∃ task ∈ s.tasks, task.closing = true

/--
When `close` tests `connected_`, no connection attempt is in progress or can
start, and `authenticated_` is down if `connected_` is; from then on, until the
next `connect`, no successful reply to an authentication request is read; and
`connect` is not called while `close` is between that test and its return.
-/
def ClosesAtRest (s : ConnectionRun τ) : ConnectionAction τ → Prop
  | .connect => ∀ task ∈ s.tasks, task.closing = false
  | .close => True
  | .task k outcome =>
      (s.tasks[k]? = some .testConnected →
        (∀ task ∈ s.tasks, task.opening = false) ∧ s.shouldReconnect = false ∧
          (s.connected = false → s.authenticated = false)) ∧
      (s.tasks[k]? = some .read → outcome = .authenticated → ¬ s.Quiet)

end Steps

section Invariant

variable {τ : Type v} {s t : ConnectionRun τ}

/-- What a client that is quiet has given up, and what each point of `close` has done. -/
structure Inv (s : ConnectionRun τ) : Prop where
  reconnect : s.Quiet → s.shouldReconnect = false
  opening : s.Quiet → ∀ task ∈ s.tasks, task.opening = false
  disconnected : s.closed = true ∨ .closeAuthenticated ∈ s.tasks ∨ .closeReturn ∈ s.tasks →
    s.connected = false
  deauthenticated : s.closed = true ∨ .closeReturn ∈ s.tasks → s.authenticated = false
  silent : s.closed = true → ∀ request ∈ s.handlerSends, ∃ body, request = .other body

/-- A step whose new tasks are not part of `close`. -/
theorem not_quiet_of
    (h : ¬ s.Quiet)
    (hclosed : t.closed = s.closed)
    (htasks : ∀ x ∈ t.tasks, x ∈ s.tasks ∨ x.closing = false) :
    ¬ t.Quiet := by
  rintro (hc | ⟨x, hx, hxc⟩)
  · exact h (.inl (hclosed ▸ hc))
  · rcases htasks x hx with hold | hno
    · exact h (.inr ⟨x, hold, hxc⟩)
    · rw [hno] at hxc
      cases hxc

/-- A client that is not quiet owes nothing. -/
theorem inv_of_not_quiet
    (h : ¬ s.Quiet) :
    Inv s := by
  have hclosed : ¬ s.closed = true := fun hc => h (.inl hc)
  have hclosing : ∀ task ∈ s.tasks, task.closing = true → False :=
    fun task ht hc => h (.inr ⟨task, ht, hc⟩)
  refine ⟨fun hq => absurd hq h, fun hq => absurd hq h, ?_, ?_, fun hc => absurd hc hclosed⟩
  · rintro (hc | ha | hr)
    · exact absurd hc hclosed
    · exact (hclosing _ ha rfl).elim
    · exact (hclosing _ hr rfl).elim
  · rintro (hc | hr)
    · exact absurd hc hclosed
    · exact (hclosing _ hr rfl).elim

/-- A new task is the only one that was not there before. -/
theorem forall_mem_spawn
    {task : Task} {p : Task → Prop}
    (h : p task) :
    ∀ x ∈ (s.spawn task).tasks, x ∈ s.tasks ∨ p x := by
  intro x hx
  rcases List.mem_append.mp hx with hx | hx
  · exact .inl hx
  · rw [List.mem_singleton.mp hx]
    exact .inr h

/--
A step towards rest: no flag goes up, and the new task opens no connection; if it
is a task of `close`, then what stands before it has been done.
-/
theorem Inv.spawn
    (h : Inv s)
    {task : Task}
    (hopening : ∀ x ∈ s.tasks, x.opening = false)
    (htask : task.opening = false)
    (hreconnect : t.shouldReconnect = false)
    (hclosed : t.closed = s.closed)
    (htasks : t.tasks = s.tasks)
    (hcleared : task = .closeAuthenticated → t.connected = false)
    (hreturn : task = .closeReturn → t.connected = false ∧ t.authenticated = false)
    (hconnected : s.connected = false → t.connected = false)
    (hauthenticated : s.authenticated = false → t.authenticated = false)
    (hsends : ∀ request ∈ t.handlerSends,
      request ∈ s.handlerSends ∨ ∃ body, request = .other body) :
    Inv (t.spawn task) := by
  have hnew : ∀ x ∈ (t.spawn task).tasks, x ∈ s.tasks ∨ x = task := by
    rw [← htasks]
    exact forall_mem_spawn rfl
  refine ⟨fun _ => hreconnect, ?_, ?_, ?_, ?_⟩
  · intro _ x hx
    rcases hnew x hx with hs | rfl
    · exact hopening x hs
    · exact htask
  · rintro (hc | ha | hr)
    · exact hconnected (h.disconnected (.inl (hclosed ▸ hc)))
    · rcases hnew _ ha with hs | heq
      · exact hconnected (h.disconnected (.inr (.inl hs)))
      · exact hcleared heq.symm
    · rcases hnew _ hr with hs | heq
      · exact hconnected (h.disconnected (.inr (.inr hs)))
      · exact (hreturn heq.symm).1
  · rintro (hc | hr)
    · exact hauthenticated (h.deauthenticated (.inl (hclosed ▸ hc)))
    · rcases hnew _ hr with hs | heq
      · exact hauthenticated (h.deauthenticated (.inr hs))
      · exact (hreturn heq.symm).2
  · intro hc request hrequest
    rcases hsends request hrequest with hs | hother
    · exact h.silent (hclosed ▸ hc) request hs
    · exact hother

/-- No task outside of `close` makes the client quiet. -/
theorem run_not_closing
    {task : Task}
    (hclosing : task.closing = false)
    (htest : task ≠ .testConnected)
    (outcome : Outcome τ) :
    (s.run task outcome).closed = s.closed ∧
      ∀ x ∈ (s.run task outcome).tasks, x ∈ s.tasks ∨ x.closing = false := by
  cases task with
  | resolve | tcpConnect | tlsHandshake | websocketHandshake | read =>
      cases outcome with
      | error | ok | authenticated | heartbeat =>
          exact ⟨rfl, forall_mem_spawn rfl⟩
  | timer =>
      cases outcome with
      | error =>
          exact ⟨rfl, fun x hx => .inl hx⟩
      | ok | authenticated | heartbeat =>
          simp only [run, onTimer]
          split
          · exact ⟨rfl, forall_mem_spawn rfl⟩
          · exact ⟨rfl, fun x hx => .inl hx⟩
  | beginRead =>
      refine ⟨rfl, ?_⟩
      intro x hx
      rcases forall_mem_spawn (p := fun y => y.closing = false) rfl x hx with hx | hx
      · exact forall_mem_spawn (p := fun y => y.closing = false) rfl x hx
      · exact .inr hx
  | sendAuth =>
      exact ⟨rfl, fun x hx => .inl hx⟩
  | clearAuthenticated | armTimer | setReconnect | resetAttempts | doConnect | clearReconnect =>
      exact ⟨rfl, forall_mem_spawn rfl⟩
  | readAgain =>
      simp only [run]
      split
      · exact ⟨rfl, forall_mem_spawn rfl⟩
      · exact ⟨rfl, fun x hx => .inl hx⟩
  | scheduleReconnect =>
      simp only [run]
      split
      · exact ⟨rfl, fun x hx => .inl hx⟩
      · exact ⟨rfl, forall_mem_spawn rfl⟩
  | testConnected =>
      exact absurd rfl htest
  | closeConnected | closeAuthenticated | closeReturn =>
      cases hclosing

/-- The client as a task is taken off the list. -/
theorem Inv.erase
    (h : Inv s)
    (k : Nat) :
    Inv { s with tasks := s.tasks.eraseIdx k } := by
  have hsub : ∀ task ∈ s.tasks.eraseIdx k, task ∈ s.tasks :=
    fun task ht => List.mem_of_mem_eraseIdx ht
  have hquiet : Quiet { s with tasks := s.tasks.eraseIdx k } → s.Quiet := by
    rintro (hc | ⟨task, ht, hclosing⟩)
    · exact .inl hc
    · exact .inr ⟨task, hsub task ht, hclosing⟩
  refine ⟨fun hq => h.reconnect (hquiet hq),
    fun hq task ht => h.opening (hquiet hq) task (hsub task ht), ?_, ?_, h.silent⟩
  · rintro (hc | ha | hr)
    · exact h.disconnected (.inl hc)
    · exact h.disconnected (.inr (.inl (hsub _ ha)))
    · exact h.disconnected (.inr (.inr (hsub _ hr)))
  · rintro (hc | hr)
    · exact h.deauthenticated (.inl hc)
    · exact h.deauthenticated (.inr (hsub _ hr))

/-- A task of a client at rest, other than the end of `close`. -/
theorem Inv.run_at_rest
    (h : Inv s)
    (hreconnect : s.shouldReconnect = false)
    (hopening : ∀ task ∈ s.tasks, task.opening = false)
    {task : Task} {outcome : Outcome τ}
    (htask : task.opening = false)
    (hreturn : task ≠ .closeReturn)
    (hreply : task = .read → outcome ≠ .authenticated)
    (htest : task = .testConnected → s.connected = false → s.authenticated = false)
    (hcleared : task = .closeAuthenticated → s.connected = false) :
    Inv (s.run task outcome) := by
  cases task with
  | resolve | tcpConnect | tlsHandshake | websocketHandshake | beginRead | sendAuth
  | setReconnect | resetAttempts | doConnect =>
      cases htask
  | read =>
      cases outcome with
      | error =>
          exact h.spawn hopening rfl hreconnect rfl rfl (by simp) (by simp)
            (fun _ => rfl) id (fun _ hr => .inl hr)
      | ok =>
          exact h.spawn hopening rfl hreconnect rfl rfl (by simp) (by simp)
            id id (fun _ hr => .inl hr)
      | heartbeat reply =>
          refine h.spawn hopening rfl hreconnect rfl rfl (by simp) (by simp) id id ?_
          intro request hr
          rcases List.mem_append.mp hr with hr | hr
          · exact .inl hr
          · exact .inr ⟨reply, List.mem_singleton.mp hr⟩
      | authenticated =>
          exact absurd rfl (hreply rfl)
  | timer =>
      cases outcome with
      | error | ok | authenticated | heartbeat =>
          simpa [run, onTimer, hreconnect] using h
  | clearAuthenticated =>
      exact h.spawn hopening rfl hreconnect rfl rfl (by simp) (by simp)
        id (fun _ => rfl) (fun _ hr => .inl hr)
  | armTimer =>
      exact h.spawn hopening rfl hreconnect rfl rfl (by simp) (by simp)
        id id (fun _ hr => .inl hr)
  | clearReconnect =>
      exact h.spawn hopening rfl rfl rfl rfl (by simp) (by simp) id id (fun _ hr => .inl hr)
  | readAgain =>
      simp only [run]
      split
      · exact h.spawn hopening rfl hreconnect rfl rfl (by simp) (by simp)
          id id (fun _ hr => .inl hr)
      · exact h
  | scheduleReconnect =>
      simpa [run, hreconnect] using h
  | testConnected =>
      simp only [run]
      split
      · exact h.spawn hopening rfl hreconnect rfl rfl (by simp) (by simp)
          id id (fun _ hr => .inl hr)
      · rename_i hdown
        have hconnected : s.connected = false := by simpa using hdown
        exact h.spawn hopening rfl hreconnect rfl rfl (by simp)
          (fun _ => ⟨hconnected, htest rfl hconnected⟩) id id (fun _ hr => .inl hr)
  | closeConnected =>
      exact h.spawn hopening rfl hreconnect rfl rfl (fun _ => rfl) (by simp)
        (fun _ => rfl) id (fun _ hr => .inl hr)
  | closeAuthenticated =>
      exact h.spawn hopening rfl hreconnect rfl rfl (by simp)
        (fun _ => ⟨hcleared rfl, rfl⟩) id (fun _ => rfl) (fun _ hr => .inl hr)
  | closeReturn =>
      exact absurd rfl hreturn

/-- The end of `close`. -/
theorem Inv.run_closeReturn
    (h : Inv s)
    (hreconnect : s.shouldReconnect = false)
    (hopening : ∀ task ∈ s.tasks, task.opening = false)
    (hconnected : s.connected = false)
    (hauthenticated : s.authenticated = false)
    (outcome : Outcome τ) :
    Inv (s.run .closeReturn outcome) := by
  refine ⟨fun _ => hreconnect, fun _ => hopening, fun _ => hconnected,
    fun _ => hauthenticated, ?_⟩
  intro _ request hr
  cases hclosed : s.closed with
  | true =>
      simp only [run, hclosed, if_true] at hr
      exact h.silent hclosed request hr
  | false =>
      simp [run, hclosed] at hr

/-- One step of a task. -/
theorem Inv.task
    (h : Inv s)
    {k : Nat} {task : Task} {outcome : Outcome τ}
    (hk : s.tasks[k]? = some task)
    (hrest : s.ClosesAtRest (.task k outcome)) :
    Inv ({ s with tasks := s.tasks.eraseIdx k }.run task outcome) := by
  have hmem : task ∈ s.tasks := List.mem_of_getElem? hk
  have hsub : ∀ x ∈ s.tasks.eraseIdx k, x ∈ s.tasks :=
    fun x hx => List.mem_of_mem_eraseIdx hx
  by_cases htest : task = .testConnected
  · -- the test of `connected_`, with nothing in progress
    subst htest
    obtain ⟨hopening, hreconnect, hauthenticated⟩ := hrest.1 hk
    exact (h.erase k).run_at_rest hreconnect (fun x hx => hopening x (hsub x hx)) rfl
      (by simp) (by simp) (fun _ => hauthenticated) (by simp)
  · by_cases hquiet : s.Quiet
    · have hreconnect := h.reconnect hquiet
      have hopening := h.opening hquiet
      by_cases hreturn : task = .closeReturn
      · subst hreturn
        exact (h.erase k).run_closeReturn hreconnect (fun x hx => hopening x (hsub x hx))
          (h.disconnected (.inr (.inr hmem))) (h.deauthenticated (.inr hmem)) outcome
      · refine (h.erase k).run_at_rest hreconnect (fun x hx => hopening x (hsub x hx))
          (hopening task hmem) hreturn ?_ (fun heq => absurd heq htest) ?_
        · rintro rfl rfl
          exact hrest.2 hk rfl hquiet
        · rintro rfl
          exact h.disconnected (.inr (.inl hmem))
    · have hclosing : task.closing = false := by
        by_contra hc
        exact hquiet (.inr ⟨task, hmem, by simpa using hc⟩)
      obtain ⟨hclosed, htasks⟩ := run_not_closing
        (s := { s with tasks := s.tasks.eraseIdx k }) hclosing htest outcome
      refine inv_of_not_quiet (not_quiet_of hquiet hclosed ?_)
      intro x hx
      exact (htasks x hx).imp_left (hsub x)

theorem Inv.step
    (h : Inv s)
    {a : ConnectionAction τ}
    (ha : s.step a = some t)
    (hrest : s.ClosesAtRest a) :
    Inv t := by
  cases a with
  | connect =>
      cases ha
      have hopen : ¬ ({ s with closed := false } : ConnectionRun τ).Quiet := by
        rintro (hc | ⟨x, hx, hxc⟩)
        · cases hc
        · rw [hrest x hx] at hxc
          cases hxc
      exact inv_of_not_quiet (not_quiet_of hopen rfl (forall_mem_spawn rfl))
  | close =>
      cases ha
      by_cases hquiet : s.Quiet
      · exact h.spawn (h.opening hquiet) rfl (h.reconnect hquiet) rfl rfl (by simp) (by simp)
          id id (fun _ hr => .inl hr)
      · exact inv_of_not_quiet (not_quiet_of hquiet rfl (forall_mem_spawn rfl))
  | task k outcome =>
      simp only [ConnectionRun.step] at ha
      split at ha
      · cases ha
      · rename_i task hk
        cases ha
        exact h.task hk hrest

/--
A closed client stays closed, in every run in which `close` finds no connection
attempt in progress and no successful reply to an authentication request is read
while the client is closed.
-/
theorem stays_closed
    (hrun : Reachable (Guarded (Steps step) ClosesAtRest) create s) :
    s.StaysClosed := by
  have hinv : Inv s := by
    refine hrun.invariant (P := Inv) (inv_of_not_quiet (by simp [Quiet, create])) ?_
    intro s a t h hstep
    exact h.step hstep.1 hstep.2
  intro hclosed
  exact ⟨hinv.disconnected (.inl hclosed), hinv.deauthenticated (.inl hclosed),
    hinv.silent hclosed⟩

end Invariant

section Schedules

instance (s : ConnectionRun Unit) : Decidable s.Quiet :=
  inferInstanceAs (Decidable (s.closed = true ∨ ∃ task ∈ s.tasks, task.closing = true))

instance (s : ConnectionRun Unit) (a : ConnectionAction Unit) : Decidable (s.ClosesAtRest a) :=
  match a with
  | .connect => inferInstanceAs (Decidable (∀ task ∈ s.tasks, task.closing = false))
  | .close => isTrue trivial
  | .task k outcome =>
      inferInstanceAs (Decidable
        ((s.tasks[k]? = some .testConnected →
          (∀ task ∈ s.tasks, task.opening = false) ∧ s.shouldReconnect = false ∧
            (s.connected = false → s.authenticated = false)) ∧
        (s.tasks[k]? = some .read → outcome = .authenticated → ¬ s.Quiet)))

/-- Steps of the task number `k`, with the outcomes of its operations. -/
def tasksAt (k : Nat) (outcomes : List (Outcome Unit)) : List (ConnectionAction Unit) :=
  outcomes.map (.task k)

/-- `connect` up to the request for authentication, with a pending read, and the reply. -/
def authenticate : List (ConnectionAction Unit) :=
  List.flatten [[.connect], tasksAt 0 (.replicate 8 .ok), tasksAt 1 [.ok],
    tasksAt 0 [.authenticated, .ok]]

/-- `close`, and the failure of the pending read. -/
def closeAndFail : List (ConnectionAction Unit) :=
  List.flatten [[.close], tasksAt 1 (.replicate 5 .ok), tasksAt 0 [.error, .ok, .ok]]

/-- `close` comes while the name is being resolved, and the connect chain goes on. -/
def closeWhileResolving : List (ConnectionAction Unit) :=
  List.flatten [[.connect], tasksAt 0 (.replicate 3 .ok), [.close], tasksAt 1 (.replicate 3 .ok),
    tasksAt 0 (.replicate 5 .ok), tasksAt 1 [.ok]]

/-- A client is closed after its authentication, and the pending read then fails. -/
theorem stays_closed_after_authentication :
    ∃ s : ConnectionRun Unit, Reachable (Guarded (Steps step) ClosesAtRest) create s ∧
      (s.closed = true ∧ s.tasks = []) ∧ s.StaysClosed := by
  have hrun : (runActions (guardActions step ClosesAtRest) (create : ConnectionRun Unit)
      (authenticate ++ closeAndFail)).map
        (fun s => decide (s.closed = true ∧ s.tasks = [])) = some true := by
    decide +kernel
  obtain ⟨s, hs, hview⟩ := Reachable.exists_of_guardActions hrun
  exact ⟨s, hs, of_decide_eq_true hview, stays_closed hs⟩

/-- The client is connected, and has queued the request, after `close` has returned. -/
theorem closed_client_connects :
    ∃ s : ConnectionRun Unit, Reachable (Steps step) create s ∧
      (s.closed = true ∧ s.connected = true ∧ s.handlerSends = [.auth]) ∧ ¬ s.StaysClosed := by
  have hrun : (runActions step (create : ConnectionRun Unit) closeWhileResolving).map
        (fun s => decide (s.closed = true ∧ s.connected = true ∧ s.handlerSends = [.auth])) =
      some true := by
    decide +kernel
  obtain ⟨s, hs, hview⟩ := Reachable.exists_of_runActions hrun
  have hopen := of_decide_eq_true hview
  refine ⟨s, hs, hopen, ?_⟩
  intro hclosed
  have hconnected := (hclosed hopen.1).1
  rw [hopen.2.1] at hconnected
  cases hconnected

end Schedules

end ConnectionRun

end Exchange
end CryptoHft
