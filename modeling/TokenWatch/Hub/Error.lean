/-!
What can go wrong between a client and an event hub.
-/
namespace TokenWatch.Hub

/-- The most bytes that a message, or a frame without its separator, may have. -/
def messageLimit : Nat := 0x100000

/-- The most server invocations that wait to be passed on. -/
def maxWaiting : Nat := 1024

inductive Error where
  | http (cause : String)
  | url (cause : String)
  | webSocket (cause : String)
  | json (cause : String)
  | negotiate (reason : String)
  | handshake (reason : String)
  | timeout
  | invocation (target : String) (failure : String)
  | closed (reason : Option String)
  | frameTooLarge (bytes : Nat)
  | backlog
deriving DecidableEq, Inhabited

def Error.message : Error → String
  | http cause => "negotiate request failed: " ++ cause
  | url cause => "invalid hub url: " ++ cause
  | webSocket cause => "websocket error: " ++ cause
  | json cause => "invalid hub frame: " ++ cause
  | negotiate reason => "negotiate rejected: " ++ reason
  | handshake reason => "handshake rejected: " ++ reason
  | timeout => "hub connection timed out"
  | invocation target failure => "invocation of " ++ target ++ " failed: " ++ failure
  | closed none => "hub connection closed"
  | closed (some reason) => "hub connection closed: " ++ reason
  | frameTooLarge bytes =>
    "incomplete hub frame of " ++ toString bytes ++ " bytes exceeds " ++
      toString messageLimit ++ " bytes"
  | backlog => "more than " ++ toString maxWaiting ++ " hub invocations are waiting"

end TokenWatch.Hub
