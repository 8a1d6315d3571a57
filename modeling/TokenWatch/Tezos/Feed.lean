import TokenWatch.Hub.Negotiation
import TokenWatch.Tezos.Explorer

/-!
The event hub of the explorer: what is subscribed to, and how it is reached.
-/
namespace TokenWatch.Tezos.Feed
open Json Hub

def subscriptions : List (String × List Value) :=
  [("SubscribeToTokenTransfers", [.object []]),
    ("SubscribeToBigMaps", [.object [("tags", .array [.text metadataTag])]])]

def subscribe [Monad m] (invoke : String → List Value → m (Except Hub.Error (Option Value))) :
    m (Except Hub.Error Unit) :=
  go subscriptions
where
  go : List (String × List Value) → m (Except Hub.Error Unit)
    | [] => return .ok ()
    | (target, arguments) :: rest => do
      match ← invoke target arguments with
      | .error e => return .error e
      | .ok _ => go rest

def connect [Monad m] (exchange : Http.Exchange m) (hub : Url) : m (Except Hub.Error Url) := do
  match ← Negotiation.negotiate exchange hub with
  | .error e => return .error e
  | .ok token => return webSocketAddress hub token

end TokenWatch.Tezos.Feed
