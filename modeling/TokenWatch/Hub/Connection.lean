import TokenWatch.Hub.Handshake

/-!
An open hub connection: the task that owns the socket, the queues between it and its caller, and
the caller's calls. Every step of either side is an action, and the two sides interleave freely.
-/
namespace TokenWatch.Hub
open Json

/-- An invocation that the server made. -/
structure Call where
  target : String
  arguments : List Value

/-- An invocation that the caller asked for; the ticket tells one call from another. -/
structure Command where
  ticket : Nat
  target : String
  arguments : List Value

abbrev Reply := Except Error (Option Value)

abbrev Delivery := Except Error Call

inductive Written where
  | frame (cs : List Char)
  | closed
deriving DecidableEq

inductive Phase where
  | running
  /-- The connection is lost; what was received is still handed over, then the error. -/
  | ending (e : Error)
  | ended
deriving DecidableEq

/-- The slots of each of the two channels between the task and its caller. -/
def channelSlots : Nat := 16

/-- Milliseconds between two pings, the first of which is due that long after the handshake. -/
def pingPeriod : Nat := 15000

structure Connection where
  frames : OpenFrame
  /-- Server invocations that are not in the channel yet. -/
  outbox : List Call
  /-- Invocations on the wire, by the text of their number. -/
  waiting : List (String × Command)
  lastId : UInt64
  commands : List Command
  channel : List Delivery
  phase : Phase
  /-- Whether the caller still holds the connection. -/
  held : Bool
  /-- Newest first, as are the next two. -/
  sent : List Written
  replies : List (Nat × Reply)
  delivered : List Delivery

namespace Connection

def numberText (n : Nat) : String := String.ofList (Nat.toDigits 10 n)

def idText (id : UInt64) : String := numberText id.toNat

/-- Leaves the loop with an error: every invocation on the wire is answered with it. -/
def lose (c : Connection) (e : Error) : Connection :=
  { c with
    phase := .ending e
    waiting := []
    replies := (c.waiting.map fun (_, command) =>
      (command.ticket, .error (.closed (some e.message)))) ++ c.replies }

def takeWaiting (id : String) :
    List (String × Command) → Option (Command × List (String × Command))
  | [] => none
  | (k, command) :: rest =>
    if k = id then some (command, rest)
    else (takeWaiting id rest).map fun (found, others) => (found, (k, command) :: others)

def outcome (command : Command) (result : Option Value) (failure : Option String) : Reply :=
  match failure with
  | some failure => .error (.invocation command.target failure)
  | none => .ok result

/-- Acts on received messages in order. A completion of an unknown id is passed over. -/
def dispatch (c : Connection) : List Message → Connection
  | [] => c
  | .invocation _ target arguments :: rest =>
    if maxWaiting ≤ c.outbox.length then c.lose .backlog
    else dispatch { c with outbox := c.outbox ++ [⟨target, arguments⟩] } rest
  | .completion id result failure :: rest =>
    match takeWaiting id c.waiting with
    | none => dispatch c rest
    | some (command, others) =>
      dispatch { c with
        waiting := others
        replies := (command.ticket, outcome command result failure) :: c.replies } rest
  | .close failure :: _ => c.lose (.closed failure)
  | .ping :: rest => dispatch c rest
  | .other _ :: rest => dispatch c rest

def ofHandshake (frames : OpenFrame) (messages : List Message) : Connection :=
  dispatch
    { frames, outbox := [], waiting := [], lastId := 0, commands := [], channel := [],
      phase := .running, held := true, sent := [], replies := [], delivered := [] } messages

/-- Takes what arrived on the socket. A frame that is no message ends the connection before the
other frames of its text are acted on. -/
def receive (c : Connection) : Incoming → Connection
  | .text cs =>
    match c.frames.push cs with
    | (frames, .error e) => { c with frames }.lose e
    | (frames, .ok pieces) =>
      match pieces.mapM Message.parse with
      | .error e => { c with frames }.lose e
      | .ok messages => dispatch { c with frames } messages
  | .close reason => c.lose (.closed reason)
  | .other => c
  | .failed cause => c.lose (.webSocket cause)
  | .ended => c.lose (.closed none)

def writeFailure : Error := .webSocket "write failed"

/-- Sends one invocation under the next number. When the write fails, its caller is not told why
the connection was lost. -/
def send (c : Connection) (command : Command) (written : Bool) : Connection :=
  let id := idText (c.lastId + 1)
  if written then
    { c with
      lastId := c.lastId + 1
      waiting := c.waiting ++ [(id, command)]
      sent := .frame (Message.encodeCall id command.target command.arguments) :: c.sent }
  else
    { c with
      lastId := c.lastId + 1
      replies := (command.ticket, .error (.closed none)) :: c.replies }.lose writeFailure

/-- Ends the task; invocations that it did not take are answered without a reason. -/
def finish (c : Connection) : Connection :=
  let answers := c.commands.map fun command => (command.ticket, .error (.closed none))
  { c with phase := .ended, commands := [], replies := answers ++ c.replies }

inductive Action where
  /-- Writes a ping; the flag tells whether the write succeeds. -/
  | ping (written : Bool)
  | takeCommand (written : Bool)
  /-- Moves a server invocation into the channel. -/
  | forward
  | receive (i : Incoming)
  /-- Closes the socket once the caller has let go of the connection, which the task learns when
  it finds no more commands or nobody to pass an invocation to. -/
  | close
  /-- A step of the task after the connection was lost. -/
  | handOver
  | invoke (command : Command)
  | next
  | drop

/-- One step, or `none` where the action has to wait. -/
def step? (c : Connection) : Action → Option Connection
  | .ping written =>
    if c.phase = .running then
      some (if written then { c with sent := .frame Message.encodedPing :: c.sent }
        else c.lose writeFailure)
    else none
  | .takeCommand written =>
    match c.phase, c.commands with
    | .running, command :: rest => some ({ c with commands := rest }.send command written)
    | _, _ => none
  | .forward =>
    match c.phase, c.outbox with
    | .running, call :: rest =>
      if c.held ∧ c.channel.length < channelSlots then
        some { c with outbox := rest, channel := c.channel ++ [.ok call] }
      else none
    | _, _ => none
  | .receive i => if c.phase = .running then some (c.receive i) else none
  | .close =>
    if c.phase = .running ∧ ¬c.held ∧ (c.commands = [] ∨ c.outbox ≠ []) then
      some { c with phase := .ended, commands := [], sent := .closed :: c.sent }
    else none
  | .handOver =>
    match c.phase with
    | .ending e =>
      if ¬c.held then some c.finish
      else if channelSlots ≤ c.channel.length then none
      else
        match c.outbox with
        | call :: rest => some { c with outbox := rest, channel := c.channel ++ [.ok call] }
        | [] => some { c with channel := c.channel ++ [Except.error e] }.finish
    | _ => none
  | .invoke command =>
    if ¬c.held then none
    else if c.phase = .ended then
      some { c with replies := (command.ticket, .error (.closed none)) :: c.replies }
    else if c.commands.length < channelSlots then
      some { c with commands := c.commands ++ [command] }
    else none
  | .next =>
    if ¬c.held then none
    else
      match c.channel with
      | d :: rest => some { c with channel := rest, delivered := d :: c.delivered }
      | [] =>
        if c.phase = .ended then
          some { c with delivered := .error (.closed none) :: c.delivered }
        else none
  | .drop => if c.held then some { c with held := false } else none

end Connection
end TokenWatch.Hub
