import TokenWatch.Hub.Error
import TokenWatch.Http.Exchange

/-!
Negotiation: before a hub connection is opened the hub is asked for a token, which then stands in
the address of the connection.
-/
namespace TokenWatch.Hub
open Json

/-- The answer to a negotiation. Older hubs give an identifier and no token. -/
structure Negotiation where
  connectionId : Option String
  connectionToken : Option String
  redirect : Option String
  refusal : Option String

namespace Negotiation

def reader : Reader Negotiation := fun levels node => do
  let p ← Reader.parts ["connectionId", "connectionToken", "url", "error"] levels node
  let connectionId ← p.withDefault "connectionId" none (Reader.orNull Reader.text)
  let connectionToken ← p.withDefault "connectionToken" none (Reader.orNull Reader.text)
  let redirect ← p.withDefault "url" none (Reader.orNull Reader.text)
  let refusal ← p.withDefault "error" none (Reader.orNull Reader.text)
  return ⟨connectionId, connectionToken, redirect, refusal⟩

def token (n : Negotiation) : Except Error String :=
  match n.refusal, n.redirect, n.connectionToken <|> n.connectionId with
  | some reason, _, _ => .error (.negotiate reason)
  | none, some target, _ =>
    .error (.negotiate ("redirect to " ++ target ++ " is not supported"))
  | none, none, none => .error (.negotiate "no connection token")
  | none, none, some token => .ok token

/-- The address that a hub negotiates at. Slashes at the end of the hub's own address do not
count. -/
def address (hub : Url) : Except Url.Error Url := do
  let front := (hub.toChars.reverse.dropWhile (· == '/')).reverse
  let url ← Url.parse (String.ofList front ++ "/negotiate")
  return url.appendPair "negotiateVersion" "1"

def request (hub : Url) : Except Url.Error Http.Request := do
  return ⟨.post, ← address hub, none⟩

/-- What is made of the response: only a body that can be read counts. -/
def ofResponse (r : Http.Response) : Except Error Negotiation :=
  if r.status.IsSuccess then
    match r.json? reader with
    | some n => .ok n
    | none => .error (.http "malformed negotiation")
  else .error (.http ("status " ++ r.status.toText))

def negotiate [Monad m] (exchange : Http.Exchange m) (hub : Url) : m (Except Error String) := do
  match request hub with
  | .error e => return .error (.url e.message)
  | .ok request =>
    match ← exchange request with
    | .error cause => return .error (.http cause)
    | .ok response => return ofResponse response >>= token

end Negotiation

/-- Connections are encrypted where the hub's own address is. -/
def webSocketScheme (scheme : String) : String :=
  if scheme = "https" ∨ scheme = "wss" then "wss" else "ws"

def webSocketAddress (hub : Url) (token : String) : Except Error Url :=
  match hub.withSpecialScheme? (webSocketScheme hub.scheme) with
  | some url => .ok (url.appendPair "id" token)
  | none => .error (.negotiate ("cannot use " ++ hub.toText ++ " as websocket url"))

end TokenWatch.Hub
