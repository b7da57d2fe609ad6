import CryptoHft.Exchange.SendQueue

/-!
# The websocket client and its connections

`CryptoComWebSocketClient` of `include/exchange/websocket_client.hpp`: the
connection steps that run on the io threads, the sends of any thread, and the
send queue, which is a member of the client and outlives its connections.

A thread that has entered a sending operation holds its request until the locked
push of `async_send`; the check of `authenticated_` and that push are two steps.
`on_handshake` is such an operation: it marks the connection as established and
then sends the authentication request.  Messages carry the number of the
connection that was current when they were queued, and every message passed to
`async_write` is recorded in `frames` with the current connection; these numbers
are not read by a step.
-/

namespace CryptoHft
namespace Exchange

open Lib

universe u v

/-- The requests of the message builder, with their texts. -/
inductive Request (τ : Type v)
  /-- `public/auth`. -/
  | auth
  /-- `private/create-order`. -/
  | createOrder (body : τ)
  /-- Cancellations, subscriptions, heartbeats and raw messages. -/
  | other (body : τ)
deriving DecidableEq

structure QueuedMessage (τ : Type v) where
  request : Request τ
  /-- The number of handshakes that had succeeded when it was queued. -/
  connection : Nat
deriving DecidableEq

/-- A call of `ws_.async_write`. -/
structure Frame (τ : Type v) where
  message : QueuedMessage τ
  connection : Nat
  /-- The authentication of the connection had succeeded. -/
  authenticated : Bool
deriving DecidableEq

/-- Where a thread stands before it enters `async_send`. -/
inductive Call (τ : Type v)
  | outside
  | sending (request : Request τ)
  /-- `on_handshake` of a connection has succeeded; its request comes next. -/
  | handshaking (connection : Nat)
deriving DecidableEq

structure WebsocketClient (ι : Type u) (τ : Type v) where
  send : SendQueue ι (QueuedMessage τ)
  call : ι → Call τ
  /-- A connection attempt is in progress. -/
  connecting : Bool
  /-- An `async_read` is pending. -/
  reading : Bool
  connected : Bool
  authenticated : Bool
  shouldReconnect : Bool
  reconnectAttempts : Nat
  reconnectTimer : Bool
  connections : Nat
  authSucceeded : Bool
  frames : List (Frame τ)

inductive ClientAction (ι : Type u) (τ : Type v)
  | connect
  | timerFires
  /-- An error in `on_resolve`, `on_connect`, `on_ssl_handshake` or `on_handshake`. -/
  | connectFails
  | handshake (i : ι)
  /-- `on_read` gets the reply to the authentication request. -/
  | authReply (ok : Bool)
  /-- `on_read` gets another message. -/
  | message
  | readError
  | close
  | sendOrder (i : ι) (body : τ)
  /-- The other operations that check `authenticated_`. -/
  | request (i : ι) (body : τ)
  /-- `send_raw`, and the reply to a heartbeat. -/
  | sendRaw (i : ι) (request : Request τ)
  /-- The locked push of `async_send`. -/
  | asyncSend (i : ι)
  | compareExchange (i : ι)
  | popOrClear (i : ι)
  | startWrite (i : ι)
  | complete (i : ι) (k : Nat) (ok : Bool)
  | clearFlag (i : ι)
deriving DecidableEq

namespace WebsocketClient

section Steps

variable {ι : Type u} {τ : Type v} [DecidableEq ι]

/-- `MAX_RECONNECT_ATTEMPTS`. -/
def maxReconnectAttempts : Nat := 10

def create : WebsocketClient ι τ where
  send := .create
  call := fun _ => .outside
  connecting := false
  reading := false
  connected := false
  authenticated := false
  shouldReconnect := true
  reconnectAttempts := 0
  reconnectTimer := false
  connections := 0
  authSucceeded := false
  frames := []

def setCall (s : WebsocketClient ι τ) (i : ι) (call : Call τ) : WebsocketClient ι τ :=
  { s with call := Function.update s.call i call }

/-- The thread is outside of every operation of the client. -/
def free (s : WebsocketClient ι τ) (i : ι) : Bool :=
  match s.call i, s.send.pc i with
  | .outside, .idle => true
  | _, _ => false

/-- `do_connect`: a new stream. -/
def doConnect (s : WebsocketClient ι τ) : WebsocketClient ι τ :=
  { s with connecting := true }

/-- `schedule_reconnect`. -/
def scheduleReconnect (s : WebsocketClient ι τ) : WebsocketClient ι τ :=
  if s.shouldReconnect = false ∨ maxReconnectAttempts ≤ s.reconnectAttempts then s
  else { s with reconnectAttempts := s.reconnectAttempts + 1, reconnectTimer := true }

/-- A step of the send queue by a thread that has entered it. -/
def sendStep (s : WebsocketClient ι τ) (a : SendAction ι (QueuedMessage τ)) :
    Option (WebsocketClient ι τ) :=
  match s.call a.thread with
  | .outside => (s.send.step a).map (fun send => { s with send := send })
  | _ => none

/-- `async_send`, entered with a request: its message is pushed. -/
def push (s : WebsocketClient ι τ) (i : ι) (msg : QueuedMessage τ) :
    Option (WebsocketClient ι τ) :=
  (s.send.step (.push i msg)).map (fun send => { s.setCall i .outside with send := send })

/-- `do_send` passes the message it holds to `async_write`. -/
def write (s : WebsocketClient ι τ) (i : ι) : Option (WebsocketClient ι τ) :=
  match s.call i, s.send.pc i with
  | .outside, .holding msg =>
      (s.send.step (.startWrite i)).map (fun send =>
        { s with
          send := send
          frames := s.frames ++ [⟨msg, s.connections, s.authSucceeded⟩] })
  | _, _ => none

def step (s : WebsocketClient ι τ) : ClientAction ι τ → Option (WebsocketClient ι τ)
  | .connect =>
      some { s with shouldReconnect := true, reconnectAttempts := 0 }.doConnect
  | .timerFires =>
      if s.reconnectTimer then
        let fired := { s with reconnectTimer := false }
        some (if s.shouldReconnect then fired.doConnect else fired)
      else none
  | .connectFails =>
      if s.connecting then some { s with connecting := false }.scheduleReconnect
      else none
  | .handshake i =>
      -- a write pending at a disconnect has completed before the next handshake
      if s.connecting ∧ s.free i ∧ s.send.outstanding = [] then
        some { s.setCall i (.handshaking (s.connections + 1)) with
          connecting := false
          reading := true
          connected := true
          reconnectAttempts := 0
          connections := s.connections + 1
          authSucceeded := false }
      else none
  | .authReply ok =>
      if s.reading then
        let read := { s with reading := s.connected }
        some (if ok then { read with authenticated := true, authSucceeded := true } else read)
      else none
  | .message => if s.reading then some { s with reading := s.connected } else none
  | .readError =>
      if s.reading then
        some { s with
          reading := false
          connected := false
          authenticated := false }.scheduleReconnect
      else none
  | .close =>
      let closing := { s with shouldReconnect := false }
      some
        (if s.connected then { closing with connected := false, authenticated := false }
        else closing)
  | .sendOrder i body =>
      if s.free i then
        some (if s.authenticated then s.setCall i (.sending (.createOrder body)) else s)
      else none
  | .request i body =>
      if s.free i then
        some (if s.authenticated then s.setCall i (.sending (.other body)) else s)
      else none
  | .sendRaw i request =>
      if s.free i then some (s.setCall i (.sending request)) else none
  | .asyncSend i =>
      match s.call i with
      | .outside => none
      | .sending request => s.push i ⟨request, s.connections⟩
      | .handshaking connection => s.push i ⟨.auth, connection⟩
  | .compareExchange i => s.sendStep (.compareExchange i)
  | .popOrClear i => s.sendStep (.popOrClear i)
  | .startWrite i => s.write i
  | .complete i k ok => s.sendStep (.complete i k ok)
  | .clearFlag i => s.sendStep (.clearFlag i)

end Steps

end WebsocketClient

end Exchange
end CryptoHft
