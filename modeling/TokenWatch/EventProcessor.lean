import TokenWatch.Event.Wire
import TokenWatch.Http.Error
import TokenWatch.Http.Exchange

/-!
The event processor at the end of an HTTP connection: it accepts an event or the push fails.
-/
namespace TokenWatch
open Json

inductive PushError where
  | client (cause : Http.Error)
  | rejected (status : Int32)
deriving DecidableEq

def PushError.message : PushError → String
  | client cause => "event processor request failed: " ++ cause.message
  | rejected status => "event processor rejected event with status " ++ toString status.toInt

/-- What the push of one event comes to. -/
abbrev PushResult := Except PushError Unit

def Receipt.result (r : Receipt) : PushResult :=
  if r.IsAccepted then .ok () else .error (.rejected r.status)

structure EventProcessor where
  base : Url

namespace EventProcessor

def ofUrl (url : Url) : EventProcessor := ⟨url.directory⟩

def eventsPath : String := "v1/events"

/-- Sends one event. A rejection comes in the body of a successful response. -/
def push [Monad m] (processor : EventProcessor) (exchange : Http.Exchange m) (e : Event) :
    m PushResult := do
  let body := (Submission.ofEvent e).toJson
  match ← exchange.fetch .post (processor.base.endpoint eventsPath) (some body)
      Reader.receipt with
  | .error cause => return .error (.client cause)
  | .ok response => return response.result

end EventProcessor
end TokenWatch
