import TokenWatch.Hub.Message

/-!
The exchange that opens a hub connection. The server's first frame answers it; further frames of
the same message belong to the connection already.
-/
namespace TokenWatch.Hub
open Json

inductive Incoming where
  | text (cs : List Char)
  | close (reason : Option String)
  /-- A message that carries no text. -/
  | other
  | failed (cause : String)
  | ended
deriving DecidableEq

inductive Handshake where
  | waiting (frames : OpenFrame)
  | refused (e : Error)
  | finished (frames : OpenFrame) (messages : List Message)

namespace Handshake

def start : Handshake := waiting .empty

/-- The answer is any JSON value; only a text under `error` refuses the connection. -/
def checkAnswer (frame : List Char) : Except Error Unit :=
  match Value.parse? frame with
  | none => .error (.json "malformed handshake response")
  | some v =>
    match v.get? "error" with
    | some (.text reason) => .error (.handshake reason)
    | _ => .ok ()

def receiveFrames (frames : OpenFrame) : List (List Char) → Handshake
  | [] => waiting frames
  | first :: rest =>
    match checkAnswer first with
    | .error e => refused e
    | .ok () =>
      match rest.mapM Message.parse with
      | .error e => refused e
      | .ok messages => finished frames messages

def receive (frames : OpenFrame) : Incoming → Handshake
  | .text cs =>
    match frames.push cs with
    | (_, .error e) => refused e
    | (frames, .ok pieces) => receiveFrames frames pieces
  | .close reason => refused (.closed reason)
  | .other => waiting frames
  | .failed cause => refused (.webSocket cause)
  | .ended => refused (.closed none)

end Handshake
end TokenWatch.Hub
