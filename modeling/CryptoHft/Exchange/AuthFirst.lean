import CryptoHft.Exchange.WebsocketClient

/-!
# The first frame of a connection

After every successful handshake the client queues the authentication request of
the new connection.  Whether it is also the first message written there depends
on what the queue holds: the queue is not emptied when a connection ends, and a
message left in it goes out ahead of the request.

`AuthGoesFirst` is the condition under which it does not.  Along runs that meet
it, the messages pushed since the last handshake begin with the request of the
connection (`Fresh`), and the frames of the connection are a part of them.
-/

namespace CryptoHft
namespace Exchange
namespace WebsocketClient

open Lib

universe u v

section Statement

variable {ι : Type u} {τ : Type v} [DecidableEq ι]

/-- The frames written on a connection. -/
def framesOf (s : WebsocketClient ι τ) (connection : Nat) : List (Frame τ) :=
  s.frames.filter (fun f => f.connection = connection)

/-- The first frame of every connection is its authentication request. -/
def AuthFirst (s : WebsocketClient ι τ) : Prop :=
  ∀ connection, 0 < connection → ∀ f, (s.framesOf connection).head? = some f →
    f.message = ⟨.auth, connection⟩

/-- No order of an earlier connection is written before the authentication. -/
def OrdersWait (s : WebsocketClient ι τ) : Prop :=
  ∀ f ∈ s.frames, ∀ body, f.message.request = .createOrder body →
    f.message.connection < f.connection → f.authenticated = true

/--
A handshake finds no message in the queue or in the hands of a thread, and no
other message is queued between a handshake and the request it is followed by.
-/
def AuthGoesFirst (s : WebsocketClient ι τ) : ClientAction ι τ → Prop
  | .handshake _ => s.send.queue = [] ∧ ∀ j, (s.send.pc j).held = []
  | .asyncSend i => s.call i = .handshaking s.connections ∨
      ∀ j, s.call j ≠ .handshaking s.connections
  | _ => True

end Statement

section Effects

variable {ι : Type u} {τ : Type v} [DecidableEq ι]

/-- What a step does to the queue, the frames and the handshakes in progress. -/
inductive Effect (s : WebsocketClient ι τ) :
    ClientAction ι τ → WebsocketClient ι τ → Prop
  | quiet {a : ClientAction ι τ} {t : WebsocketClient ι τ}
      (hsend : t.send = s.send)
      (hframes : t.frames = s.frames)
      (hconnections : t.connections = s.connections)
      (hcall : ∀ j c, t.call j = .handshaking c ↔ s.call j = .handshaking c) :
      Effect s a t
  | handshake {t : WebsocketClient ι τ} (i : ι)
      (hsend : t.send = s.send)
      (hframes : t.frames = s.frames)
      (hconnections : t.connections = s.connections + 1)
      (hcall : t.call i = .handshaking (s.connections + 1)) :
      Effect s (.handshake i) t
  | push {t : WebsocketClient ι τ} (i : ι) (msg : QueuedMessage τ)
      (hsend : s.send.step (.push i msg) = some t.send)
      (hframes : t.frames = s.frames)
      (hconnections : t.connections = s.connections)
      (hmsg : (∃ c, s.call i = .handshaking c ∧ msg = ⟨.auth, c⟩) ∨
        ((∀ c, s.call i ≠ .handshaking c) ∧ msg.connection = s.connections)) :
      Effect s (.asyncSend i) t
  | inner {a : ClientAction ι τ} {t : WebsocketClient ι τ}
      (hsend : ∃ b, s.send.step b = some t.send)
      (hpushed : t.send.pushed = s.send.pushed)
      (hwritten : t.send.written = s.send.written)
      (hframes : t.frames = s.frames)
      (hconnections : t.connections = s.connections)
      (hcall : t.call = s.call) :
      Effect s a t
  | write {t : WebsocketClient ι τ} (i : ι) (msg : QueuedMessage τ)
      (hsend : s.send.step (.startWrite i) = some t.send)
      (hwritten : t.send.written = s.send.written ++ [msg])
      (hpushed : t.send.pushed = s.send.pushed)
      (hframes : t.frames = s.frames ++ [⟨msg, s.connections, s.authSucceeded⟩])
      (hconnections : t.connections = s.connections)
      (hcall : t.call = s.call) :
      Effect s (.startWrite i) t

omit [DecidableEq ι] in
theorem free_iff
    {s : WebsocketClient ι τ}
    {i : ι} :
    s.free i = true ↔ s.call i = .outside ∧ s.send.pc i = .idle := by
  cases hcall : s.call i <;> cases hpc : s.send.pc i <;> simp [free, hcall, hpc]

variable {s t : WebsocketClient ι τ}

/-- Steps of the send queue other than a push and the start of a write. -/
theorem effect_of_sendStep
    {a : ClientAction ι τ}
    {b : SendAction ι (QueuedMessage τ)}
    (h : s.sendStep b = some t)
    (hpushed : ∀ q, s.send.step b = some q → q.pushed = s.send.pushed ∧
      q.written = s.send.written) :
    Effect s a t := by
  rw [sendStep] at h
  split at h
  · obtain ⟨q, hq, rfl⟩ := Option.map_eq_some_iff.mp h
    exact .inner ⟨b, hq⟩ (hpushed q hq).1 (hpushed q hq).2 rfl rfl rfl
  · cases h

theorem scheduleReconnect_quiet
    (a : ClientAction ι τ)
    (hsend : t.send = s.send)
    (hframes : t.frames = s.frames)
    (hconnections : t.connections = s.connections)
    (hcall : t.call = s.call) :
    Effect s a t.scheduleReconnect := by
  rw [scheduleReconnect]
  split
  · exact .quiet hsend hframes hconnections (by simp [hcall])
  · exact .quiet hsend hframes hconnections (by simp [hcall])

/-- A free thread enters a sending operation. -/
theorem setCall_quiet
    (a : ClientAction ι τ)
    {i : ι}
    (hfree : s.free i = true)
    (request : Request τ) :
    Effect s a (s.setCall i (.sending request)) := by
  refine .quiet rfl rfl rfl ?_
  intro j c
  by_cases hj : j = i
  · subst hj
    simp [setCall, (free_iff.mp hfree).1]
  · simp [setCall, hj]

theorem effect_of_push
    {i : ι} {msg : QueuedMessage τ}
    (h : s.push i msg = some t)
    (hmsg : (∃ c, s.call i = .handshaking c ∧ msg = ⟨.auth, c⟩) ∨
      ((∀ c, s.call i ≠ .handshaking c) ∧ msg.connection = s.connections)) :
    Effect s (.asyncSend i) t := by
  obtain ⟨q, hq, rfl⟩ := Option.map_eq_some_iff.mp h
  exact .push i msg hq rfl rfl hmsg

theorem effect_of_write
    {i : ι}
    (h : s.write i = some t) :
    Effect s (.startWrite i) t := by
  rw [write] at h
  split at h
  · rename_i msg _ hpc
    obtain ⟨q, hq, rfl⟩ := Option.map_eq_some_iff.mp h
    obtain ⟨msg', hpc', hq'⟩ := SendQueue.of_startWrite hq
    rw [hpc] at hpc'
    cases hpc'
    refine .write i msg hq ?_ ?_ rfl rfl rfl
    · rw [hq']
    · rw [hq']
      rfl
  · cases h

/-- Every step is of one of the five kinds. -/
theorem effect_of_step
    {a : ClientAction ι τ}
    (h : s.step a = some t) :
    Effect s a t := by
  cases a with
  | connect =>
      cases h
      exact .quiet rfl rfl rfl (fun _ _ => Iff.rfl)
  | timerFires =>
      simp only [step] at h
      split_ifs at h with _ hreconnect
      · cases h
        exact .quiet rfl rfl rfl (fun _ _ => Iff.rfl)
      · cases h
        exact .quiet rfl rfl rfl (fun _ _ => Iff.rfl)
  | connectFails =>
      simp only [step] at h
      split_ifs at h
      cases h
      exact scheduleReconnect_quiet _ rfl rfl rfl rfl
  | handshake i =>
      simp only [step] at h
      split_ifs at h
      cases h
      exact .handshake i rfl rfl rfl (by simp [setCall])
  | authReply ok =>
      simp only [step] at h
      split_ifs at h
      · cases h
        exact .quiet rfl rfl rfl (fun _ _ => Iff.rfl)
      · cases h
        exact .quiet rfl rfl rfl (fun _ _ => Iff.rfl)
  | message =>
      simp only [step] at h
      split_ifs at h
      cases h
      exact .quiet rfl rfl rfl (fun _ _ => Iff.rfl)
  | readError =>
      simp only [step] at h
      split_ifs at h
      cases h
      exact scheduleReconnect_quiet _ rfl rfl rfl rfl
  | close =>
      simp only [step] at h
      split_ifs at h
      · cases h
        exact .quiet rfl rfl rfl (fun _ _ => Iff.rfl)
      · cases h
        exact .quiet rfl rfl rfl (fun _ _ => Iff.rfl)
  | sendOrder i body =>
      simp only [step] at h
      split_ifs at h with hfree
      · cases h
        exact setCall_quiet _ hfree _
      · cases h
        exact .quiet rfl rfl rfl (fun _ _ => Iff.rfl)
  | request i body =>
      simp only [step] at h
      split_ifs at h with hfree
      · cases h
        exact setCall_quiet _ hfree _
      · cases h
        exact .quiet rfl rfl rfl (fun _ _ => Iff.rfl)
  | sendRaw i request =>
      simp only [step] at h
      split_ifs at h with hfree
      cases h
      exact setCall_quiet _ hfree _
  | asyncSend i =>
      cases hcall : s.call i with
      | outside =>
          simp [step, hcall] at h
      | sending request =>
          simp only [step, hcall] at h
          exact effect_of_push h (.inr ⟨by simp [hcall], rfl⟩)
      | handshaking c =>
          simp only [step, hcall] at h
          exact effect_of_push h (.inl ⟨c, hcall, rfl⟩)
  | compareExchange i =>
      refine effect_of_sendStep h ?_
      intro q hq
      obtain ⟨-, ⟨-, rfl⟩ | ⟨-, rfl⟩⟩ := SendQueue.of_compareExchange hq
      · exact ⟨rfl, rfl⟩
      · exact ⟨rfl, rfl⟩
  | popOrClear i =>
      refine effect_of_sendStep h ?_
      intro q hq
      obtain ⟨-, ⟨-, rfl⟩ | ⟨msg, rest, -, rfl⟩⟩ := SendQueue.of_popOrClear hq
      · exact ⟨rfl, rfl⟩
      · exact ⟨rfl, rfl⟩
  | startWrite i =>
      exact effect_of_write h
  | complete i k ok =>
      refine effect_of_sendStep h ?_
      intro q hq
      obtain ⟨-, -, rfl⟩ := SendQueue.of_complete hq
      exact ⟨rfl, rfl⟩
  | clearFlag i =>
      refine effect_of_sendStep h ?_
      intro q hq
      obtain ⟨-, rfl⟩ := SendQueue.of_clearFlag hq
      exact ⟨rfl, rfl⟩

end Effects

section Invariant

variable {ι : Type u} {τ : Type v} [DecidableEq ι]

/--
The messages and frames since the last handshake.  The messages begin with the
request of the connection, unless its handshake has not queued it yet.
-/
structure Fresh (s : WebsocketClient ι τ) (earlier fresh : List (QueuedMessage τ))
    (past current : List (Frame τ)) : Prop where
  pushed : s.send.pushed = earlier ++ fresh
  frames : s.frames = past ++ current
  length : past.length = earlier.length
  current_eq : ∀ f ∈ current, f.connection = s.connections
  orders : ∀ msg ∈ fresh, ∀ body, msg.request = .createOrder body →
    msg.connection = s.connections
  begins : (fresh = [] ∧ ∃ j, s.call j = .handshaking s.connections) ∨
    fresh.head? = some ⟨.auth, s.connections⟩

structure Inv (s : WebsocketClient ι τ) : Prop where
  owned : s.send.Owned
  written : s.frames.map Frame.message = s.send.written
  bounded : ∀ f ∈ s.frames, f.connection ≤ s.connections
  authFirst : AuthFirst s
  ordersWait : OrdersWait s
  fresh : s.connections = 0 ∨ ∃ earlier fresh past current, Fresh s earlier fresh past current

omit [DecidableEq ι] in
theorem inv_create : Inv (create : WebsocketClient ι τ) where
  owned := SendQueue.owned_create
  written := rfl
  bounded := by simp [create]
  authFirst := by simp [AuthFirst, framesOf, create]
  ordersWait := by simp [OrdersWait, create]
  fresh := .inl rfl

variable {s t : WebsocketClient ι τ}

omit [DecidableEq ι] in
/-- The message of the next frame is the next message pushed. -/
theorem Fresh.next
    {earlier fresh : List (QueuedMessage τ)} {past current : List (Frame τ)}
    (h : Fresh s earlier fresh past current)
    (hwritten : s.frames.map Frame.message = s.send.written)
    {msg : QueuedMessage τ}
    (hnext : s.send.written ++ [msg] <+: s.send.pushed) :
    fresh[current.length]? = some msg := by
  obtain ⟨rest, hrest⟩ := hnext
  have hlength : s.send.written.length = earlier.length + current.length := by
    rw [← hwritten, h.frames, List.length_map, List.length_append, h.length]
  have hget : (earlier ++ fresh)[earlier.length + current.length]? = some msg := by
    rw [← h.pushed, ← hrest, ← hlength]
    simp
  rw [List.getElem?_append_right (by omega)] at hget
  simpa using hget

omit [DecidableEq ι] in
/-- The first frame of the current connection carries its request. -/
theorem Fresh.first
    {earlier fresh : List (QueuedMessage τ)} {past current : List (Frame τ)}
    (h : Fresh s earlier fresh past current)
    (hwritten : s.frames.map Frame.message = s.send.written)
    {msg : QueuedMessage τ}
    (hnext : s.send.written ++ [msg] <+: s.send.pushed)
    (hnone : s.framesOf s.connections = []) :
    msg = ⟨.auth, s.connections⟩ := by
  have hnil : current = [] := by
    rw [List.eq_nil_iff_forall_not_mem]
    intro f hf
    have hmem : f ∈ s.framesOf s.connections := by
      rw [framesOf, List.mem_filter, h.frames]
      exact ⟨List.mem_append_right _ hf, by simp [h.current_eq f hf]⟩
    rw [hnone] at hmem
    cases hmem
  have hget := h.next hwritten hnext
  rw [hnil, List.length_nil, ← List.head?_eq_getElem?] at hget
  rcases h.begins with ⟨hfresh, -⟩ | hhead
  · rw [hfresh] at hget
    cases hget
  · rw [hhead, Option.some.injEq] at hget
    exact hget.symm

omit [DecidableEq ι] in
/-- A frame is one more of the current connection. -/
theorem Fresh.frame
    {earlier fresh : List (QueuedMessage τ)} {past current : List (Frame τ)}
    (h : Fresh s earlier fresh past current)
    {f : Frame τ}
    (hf : f.connection = s.connections)
    (hpushed : t.send.pushed = s.send.pushed)
    (hframes : t.frames = s.frames ++ [f])
    (hconnections : t.connections = s.connections)
    (hcall : t.call = s.call) :
    Fresh t earlier fresh past (current ++ [f]) where
  pushed := by rw [hpushed, h.pushed]
  frames := by rw [hframes, h.frames, List.append_assoc]
  length := h.length
  current_eq := by
    rw [hconnections]
    intro g hg
    rcases List.mem_append.mp hg with hg | hg
    · exact h.current_eq g hg
    · rw [List.mem_singleton.mp hg, hf]
  orders := by
    rw [hconnections]
    exact h.orders
  begins := by
    rw [hconnections, hcall]
    exact h.begins

omit [DecidableEq ι] in
theorem Inv.quiet
    (h : Inv s)
    (howned : t.send.Owned)
    (hpushed : t.send.pushed = s.send.pushed)
    (hwritten : t.send.written = s.send.written)
    (hframes : t.frames = s.frames)
    (hconnections : t.connections = s.connections)
    (hcall : ∀ j c, t.call j = .handshaking c ↔ s.call j = .handshaking c) :
    Inv t where
  owned := howned
  written := by rw [hframes, hwritten, h.written]
  bounded := by rw [hframes, hconnections]; exact h.bounded
  authFirst := by
    simp only [AuthFirst, framesOf, hframes]
    exact h.authFirst
  ordersWait := by
    simp only [OrdersWait, hframes]
    exact h.ordersWait
  fresh := by
    rw [hconnections]
    rcases h.fresh with hzero | ⟨earlier, fresh, past, current, hfresh⟩
    · exact .inl hzero
    · refine .inr ⟨earlier, fresh, past, current, ?_⟩
      constructor
      · rw [hpushed, hfresh.pushed]
      · rw [hframes, hfresh.frames]
      · exact hfresh.length
      · rw [hconnections]
        exact hfresh.current_eq
      · rw [hconnections]
        exact hfresh.orders
      · simp only [hconnections, hcall]
        exact hfresh.begins

omit [DecidableEq ι] in
/-- A handshake that finds the queue drained starts with nothing fresh. -/
theorem Inv.handshake
    (h : Inv s)
    (hqueue : s.send.queue = [])
    (hheld : ∀ j, (s.send.pc j).held = [])
    {i : ι}
    (hsend : t.send = s.send)
    (hframes : t.frames = s.frames)
    (hconnections : t.connections = s.connections + 1)
    (hcall : t.call i = .handshaking (s.connections + 1)) :
    Inv t where
  owned := hsend ▸ h.owned
  written := by rw [hframes, hsend, h.written]
  bounded := by
    rw [hframes, hconnections]
    exact fun f hf => Nat.le_succ_of_le (h.bounded f hf)
  authFirst := by
    simp only [AuthFirst, framesOf, hframes]
    exact h.authFirst
  ordersWait := by
    simp only [OrdersWait, hframes]
    exact h.ordersWait
  fresh := by
    obtain ⟨owner, howner⟩ := h.owned
    have hnone : owner.held s.send.pc = [] := by
      cases owner with
      | nobody =>
          rfl
      | thread j =>
          exact hheld j
      | wire msg =>
          rfl
    have hpushed : s.send.pushed = s.send.written := by
      rw [howner.pushed, hnone, hqueue, List.append_nil, List.append_nil]
    refine .inr ⟨s.send.pushed, [], s.frames, [], ?_⟩
    constructor
    · rw [hsend, List.append_nil]
    · rw [hframes, List.append_nil]
    · rw [hpushed, ← h.written, List.length_map]
    · simp
    · simp
    · exact .inl ⟨rfl, i, by rw [hcall, hconnections]⟩

/-- A message queued after the request of the connection, or the request itself. -/
theorem Inv.push
    (h : Inv s)
    {i : ι} {msg : QueuedMessage τ}
    (hok : s.call i = .handshaking s.connections ∨
      ∀ j, s.call j ≠ .handshaking s.connections)
    (hsend : s.send.step (.push i msg) = some t.send)
    (hframes : t.frames = s.frames)
    (hconnections : t.connections = s.connections)
    (hmsg : (∃ c, s.call i = .handshaking c ∧ msg = ⟨.auth, c⟩) ∨
      ((∀ c, s.call i ≠ .handshaking c) ∧ msg.connection = s.connections)) :
    Inv t := by
  have howned := h.owned.step hsend
  have hstep := (SendQueue.of_push hsend).2
  have hpushed : t.send.pushed = s.send.pushed ++ [msg] := by rw [hstep]
  have hwritten : t.send.written = s.send.written := by
    rw [hstep]
    rfl
  refine ⟨howned, by rw [hframes, hwritten, h.written], ?_, ?_, ?_, ?_⟩
  · rw [hframes, hconnections]
    exact h.bounded
  · simp only [AuthFirst, framesOf, hframes]
    exact h.authFirst
  · simp only [OrdersWait, hframes]
    exact h.ordersWait
  rw [hconnections]
  rcases h.fresh with hzero | ⟨earlier, fresh, past, current, hfresh⟩
  · exact .inl hzero
  refine .inr ⟨earlier, fresh ++ [msg], past, current, ?_⟩
  constructor
  · rw [hpushed, hfresh.pushed, List.append_assoc]
  · rw [hframes, hfresh.frames]
  · exact hfresh.length
  · rw [hconnections]
    exact hfresh.current_eq
  · rw [hconnections]
    intro m hm body hbody
    rcases List.mem_append.mp hm with hm | hm
    · exact hfresh.orders m hm body hbody
    · rw [List.mem_singleton.mp hm] at hbody ⊢
      rcases hmsg with ⟨c, -, rfl⟩ | ⟨-, hcurrent⟩
      · cases hbody
      · exact hcurrent
  · rw [hconnections]
    right
    rcases hfresh.begins with ⟨hnil, hwaiting⟩ | hhead
    · -- the request is still missing, so the step must be its push
      rcases hok with hself | hnone
      · rcases hmsg with ⟨c, hc, rfl⟩ | ⟨hno, -⟩
        · rw [hself] at hc
          cases hc
          simp [hnil]
        · exact absurd hself (hno _)
      · obtain ⟨j, hj⟩ := hwaiting
        exact absurd hj (hnone j)
    · rw [List.head?_append, hhead]
      rfl

/-- The next frame continues the messages of its connection in order. -/
theorem Inv.write
    (h : Inv s)
    {i : ι} {msg : QueuedMessage τ}
    (hsend : s.send.step (.startWrite i) = some t.send)
    (hwritten : t.send.written = s.send.written ++ [msg])
    (hpushed : t.send.pushed = s.send.pushed)
    (hframes : t.frames = s.frames ++ [⟨msg, s.connections, s.authSucceeded⟩])
    (hconnections : t.connections = s.connections)
    (hcall : t.call = s.call) :
    Inv t := by
  have howned := h.owned.step hsend
  have hnext : s.send.written ++ [msg] <+: s.send.pushed := by
    obtain ⟨owner, howner⟩ := howned
    rw [← hwritten, ← hpushed, howner.pushed, List.append_assoc]
    exact List.prefix_append _ _
  refine ⟨howned, by rw [hframes, hwritten, List.map_append, h.written]; rfl, ?_, ?_, ?_, ?_⟩
  · rw [hframes, hconnections]
    intro f hf
    rcases List.mem_append.mp hf with hf | hf
    · exact h.bounded f hf
    · rw [List.mem_singleton.mp hf]
  · intro connection hpos f hf
    rw [framesOf, hframes, List.filter_append, List.head?_append] at hf
    cases hold : (s.framesOf connection).head? with
    | some first =>
        rw [framesOf] at hold
        rw [hold] at hf
        cases hf
        exact h.authFirst connection hpos f hold
    | none =>
        -- the first frame of the connection
        have hempty := List.head?_eq_none_iff.mp hold
        rw [framesOf] at hold
        rw [hold, Option.none_or] at hf
        by_cases hcurrent : s.connections = connection
        · subst hcurrent
          rw [List.filter_cons_of_pos (by simp), List.head?_cons] at hf
          cases hf
          rcases h.fresh with hzero | ⟨earlier, fresh, past, current, hfresh⟩
          · omega
          · exact hfresh.first h.written hnext hempty
        · rw [List.filter_cons_of_neg (by simpa using hcurrent)] at hf
          cases hf
  · intro f hf body hbody hlt
    rw [hframes] at hf
    rcases List.mem_append.mp hf with hf | hf
    · exact h.ordersWait f hf body hbody hlt
    · rw [List.mem_singleton.mp hf] at hbody hlt
      rcases h.fresh with hzero | ⟨earlier, fresh, past, current, hfresh⟩
      · rw [hzero] at hlt
        exact absurd hlt (Nat.not_lt_zero _)
      · have hmem := List.mem_of_getElem? (hfresh.next h.written hnext)
        rw [hfresh.orders msg hmem body hbody] at hlt
        exact absurd hlt (lt_irrefl _)
  · rw [hconnections]
    rcases h.fresh with hzero | ⟨earlier, fresh, past, current, hfresh⟩
    · exact .inl hzero
    · exact .inr ⟨earlier, fresh, past, current ++ [⟨msg, s.connections, s.authSucceeded⟩],
        hfresh.frame rfl hpushed hframes hconnections hcall⟩

/-- Every step that meets the condition keeps the invariant. -/
theorem Inv.step
    (h : Inv s)
    {a : ClientAction ι τ}
    (ha : s.step a = some t)
    (hok : AuthGoesFirst s a) :
    Inv t := by
  cases effect_of_step ha with
  | quiet hsend hframes hconnections hcall =>
      exact h.quiet (hsend ▸ h.owned) (by rw [hsend]) (by rw [hsend]) hframes hconnections hcall
  | handshake i hsend hframes hconnections hcall =>
      exact h.handshake hok.1 hok.2 hsend hframes hconnections hcall
  | push i msg hsend hframes hconnections hmsg =>
      exact h.push hok hsend hframes hconnections hmsg
  | inner hsend hpushed hwritten hframes hconnections hcall =>
      obtain ⟨b, hb⟩ := hsend
      exact h.quiet (h.owned.step hb) hpushed hwritten hframes hconnections (by simp [hcall])
  | write i msg hsend hwritten hpushed hframes hconnections hcall =>
      exact h.write hsend hwritten hpushed hframes hconnections hcall

end Invariant

section Results

variable {ι : Type u} {τ : Type v} [DecidableEq ι]

/--
Along runs whose handshakes find the queue drained and whose authentication
requests are queued first, the request is the first frame of every connection,
and no order of an earlier connection is written before the authentication.
-/
theorem auth_is_first_frame
    {s : WebsocketClient ι τ}
    (hs : Reachable (Guarded (Steps step) AuthGoesFirst) create s) :
    AuthFirst s ∧ OrdersWait s := by
  have hinv : Inv s :=
    hs.invariant inv_create (fun _ _ _ h ha => h.step ha.1 ha.2)
  exact ⟨hinv.authFirst, hinv.ordersWait⟩

instance decidableAuthGoesFirst [Fintype ι] [DecidableEq τ]
    (s : WebsocketClient ι τ) :
    ∀ a, Decidable (AuthGoesFirst s a)
  | .handshake _ =>
      inferInstanceAs (Decidable (s.send.queue = [] ∧ ∀ j, (s.send.pc j).held = []))
  | .asyncSend i =>
      inferInstanceAs (Decidable (s.call i = .handshaking s.connections ∨
        ∀ j, s.call j ≠ .handshaking s.connections))
  | .connect => .isTrue trivial
  | .timerFires => .isTrue trivial
  | .connectFails => .isTrue trivial
  | .authReply _ => .isTrue trivial
  | .message => .isTrue trivial
  | .readError => .isTrue trivial
  | .close => .isTrue trivial
  | .sendOrder _ _ => .isTrue trivial
  | .request _ _ => .isTrue trivial
  | .sendRaw _ _ => .isTrue trivial
  | .compareExchange _ => .isTrue trivial
  | .popOrClear _ => .isTrue trivial
  | .startWrite _ => .isTrue trivial
  | .complete _ _ _ => .isTrue trivial
  | .clearFlag _ => .isTrue trivial

/-- Thread 0 connects and authenticates. -/
def firstConnection : List (ClientAction (Fin 2) Nat) :=
  [.connect, .handshake 0, .asyncSend 0, .compareExchange 0, .popOrClear 0, .startWrite 0,
    .complete 0 0 true, .popOrClear 0, .authReply true]

/-- After a broken connection a second one is established. -/
def secondConnection : List (ClientAction (Fin 2) Nat) :=
  [.timerFires, .handshake 1, .asyncSend 1, .compareExchange 1, .popOrClear 1,
    .startWrite 1]

theorem auth_is_first_frame_reconnect :
    ∃ s : WebsocketClient (Fin 2) Nat,
      Reachable (Guarded (Steps step) AuthGoesFirst) create s ∧
        s.frames = [⟨⟨.auth, 1⟩, 1, false⟩, ⟨⟨.auth, 2⟩, 2, false⟩] ∧
        AuthFirst s ∧ OrdersWait s := by
  have hrun : (runActions (guardActions step AuthGoesFirst)
      (create : WebsocketClient (Fin 2) Nat) (firstConnection ++ .readError :: secondConnection)).map
        (fun s => s.frames) =
      some [⟨⟨.auth, 1⟩, 1, false⟩, ⟨⟨.auth, 2⟩, 2, false⟩] := by
    decide
  obtain ⟨s, hs, hframes⟩ := Reachable.exists_of_guardActions hrun
  obtain ⟨hfirst, hwait⟩ := auth_is_first_frame hs
  exact ⟨s, hs, hframes, hfirst, hwait⟩

/--
Orders 7 and 8 are sent on the first connection; the write of order 7 fails with
the connection, and order 8 stays in the queue.
-/
def brokenWithOrderQueued : List (ClientAction (Fin 2) Nat) :=
  [.sendOrder 0 7, .asyncSend 0, .compareExchange 0, .popOrClear 0, .startWrite 0,
    .sendOrder 1 8, .asyncSend 1, .compareExchange 1, .readError, .complete 0 0 false,
    .clearFlag 0]

/-- The next connection writes the leftover order before its authentication request. -/
theorem leftover_order_is_first_frame :
    ∃ s : WebsocketClient (Fin 2) Nat,
      Reachable (Steps step) create s ∧ ¬ AuthFirst s ∧ ¬ OrdersWait s := by
  have hrun : (runActions step (create : WebsocketClient (Fin 2) Nat)
      (firstConnection ++ brokenWithOrderQueued ++ secondConnection)).map (fun s => s.frames) =
      some [⟨⟨.auth, 1⟩, 1, false⟩, ⟨⟨.createOrder 7, 1⟩, 1, true⟩,
        ⟨⟨.createOrder 8, 1⟩, 2, false⟩] := by
    decide
  obtain ⟨s, hs, hframes⟩ := Reachable.exists_of_runActions hrun
  refine ⟨s, hs, ?_, ?_⟩
  · intro hfirst
    have hauth := hfirst 2 (by decide) ⟨⟨.createOrder 8, 1⟩, 2, false⟩
      (by simp [framesOf, hframes])
    cases hauth
  · intro hwait
    have hauth := hwait ⟨⟨.createOrder 8, 1⟩, 2, false⟩ (by simp [hframes]) 8 rfl (by decide)
    cases hauth

end Results

end WebsocketClient
end Exchange
end CryptoHft
