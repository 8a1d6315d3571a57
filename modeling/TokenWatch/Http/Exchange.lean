import TokenWatch.Http.Error
import TokenWatch.Json.Reader
import TokenWatch.Text.Utf8
import TokenWatch.Url.Edit

/-!
Requests and responses of HTTP as the clients of this library see them.
-/
namespace TokenWatch.Http
open Json

inductive Method where
  | get
  | post
deriving DecidableEq

def Method.name : Method → String
  | get => "GET"
  | post => "POST"

/-- The body is sent as JSON if there is one. -/
structure Request where
  method : Method
  url : Url
  body : Option Value

structure Response where
  status : Status
  body : List UInt8

/-- Sends a request and waits for the response; an error is the transport's. -/
abbrev Exchange (m : Type → Type) := Request → m (Except String Response)

namespace Response

def bodyText (r : Response) : String := String.ofList (Text.Utf8.decodeLossy r.body)

def json? (r : Response) (reader : Reader α) : Option α := do
  let text ← String.fromUTF8? ⟨r.body.toArray⟩
  Reader.ofText? reader text.toList

/-- What a response comes to for a client: only success has a body of the expected kind. -/
def read (r : Response) (reader : Reader α) : Except Http.Error α :=
  if r.status.IsSuccess then
    match r.json? reader with
    | some a => .ok a
    | none => .error (.json "malformed body")
  else .error (.api r.status r.bodyText)

end Response

namespace Exchange

/-- An exchange that reaches nobody. -/
def unreachable [Monad m] : Exchange m := fun _ => return .error "unreachable"

def fetch [Monad m] (exchange : Exchange m) (method : Method)
    (address : Except Url.Error Url) (body : Option Value) (reader : Reader α) :
    m (Except Http.Error α) := do
  match address with
  | .error e => return .error (.url e.message)
  | .ok url =>
    match ← exchange ⟨method, url, body⟩ with
    | .error cause => return .error (.http cause)
    | .ok response => return response.read reader

end Exchange

end TokenWatch.Http
