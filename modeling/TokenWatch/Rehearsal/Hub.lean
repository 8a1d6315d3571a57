import TokenWatch.Hub.Connection

/-!
A hub connection over a scripted socket and a virtual clock. After each scripted event the task
does all that it can do before the next one.
-/
namespace TokenWatch.Rehearsal
open Hub Json

structure HubSession where
  connection : Connection
  /-- Whether writes succeed. -/
  writable : Bool
  /-- Milliseconds since the handshake. -/
  clock : Nat
  /-- Tickets given out so far. -/
  tickets : Nat

namespace HubSession

def act (s : HubSession) (a : Connection.Action) : HubSession :=
  { s with connection := (s.connection.step? a).getD s.connection }

def ownSteps (s : HubSession) : List Connection.Action :=
  [.takeCommand s.writable, .forward, .handOver, .close]

def settleWithin (s : HubSession) : Nat → HubSession
  | 0 => s
  | fuel + 1 =>
    match s.ownSteps.findSome? s.connection.step? with
    | some connection => settleWithin { s with connection } fuel
    | none => s

/-- Lets the task go on until it waits. Each of its steps takes something out of a queue or ends
it. -/
def settle (s : HubSession) : HubSession :=
  s.settleWithin (s.connection.outbox.length + s.connection.commands.length + 2)

def receive (s : HubSession) (i : Incoming) : HubSession := (s.act (.receive i)).settle

def receiveAll (s : HubSession) (is : List Incoming) : HubSession := is.foldl receive s

/-- Lets time pass; pings fall on the multiples of the interval. -/
def advance (s : HubSession) (millis : Nat) : HubSession :=
  let count := (s.clock + millis) / pingPeriod - s.clock / pingPeriod
  let pinged := Nat.repeat (fun s => (act s (.ping s.writable)).settle) count s
  { pinged with clock := s.clock + millis }

def drop (s : HubSession) : HubSession := (s.act .drop).settle

/-- Invokes, lets the server send, and gives the answer if there is one by then. -/
def invoke (s : HubSession) (target : String) (arguments : List Value) (answers : List Incoming) :
    HubSession × Option Reply :=
  let ticket := s.tickets
  let s := { s with tickets := ticket + 1 }
  let s := ((s.act (.invoke ⟨ticket, target, arguments⟩)).settle).receiveAll answers
  (s, s.connection.replies.lookup ticket)

def next (s : HubSession) : HubSession × Option Delivery :=
  match s.connection.step? .next with
  | some connection => ({ s with connection }.settle, connection.delivered.head?)
  | none => (s, none)

def nextMany (s : HubSession) : Nat → HubSession × List (Option Delivery)
  | 0 => (s, [])
  | n + 1 =>
    let (s, d) := s.next
    let (s, ds) := nextMany s n
    (s, d :: ds)

def takeSent (s : HubSession) : HubSession × List Written :=
  ({ s with connection := { s.connection with sent := [] } }, s.connection.sent.reverse)

end HubSession

/-- Feeds the handshake until it is over; the messages that it did not need come second. -/
def shakeHands : Handshake → List Incoming → Handshake × List Incoming
  | .waiting frames, i :: rest => shakeHands (Handshake.receive frames i) rest
  | h, rest => (h, rest)

def HubSession.open (frames : OpenFrame) (messages : List Message) (queued : List Incoming) :
    HubSession :=
  (HubSession.settle ⟨.ofHandshake frames messages, true, 0, 0⟩).receiveAll queued

end TokenWatch.Rehearsal
