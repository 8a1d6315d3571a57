import TokenWatch.Bitmark.Row

/-!
What is done with one notification of the ledger: the transactions of its row become events.
-/
namespace TokenWatch.Bitmark
open Time

namespace Handler

structure Surroundings (m : Type → Type) where
  transactionsOf : String → m (Except Error (List String))
  transaction : String → m (Except Error Transaction)
  push : Event → m PushResult

/-- Whether the transaction was fetched, converted and pushed. -/
def handleTransaction [Monad m] (around : Surroundings m) (receivedAt : Moment) (id : String) :
    m Bool := do
  match ← around.transaction id with
  | .error _ => return false
  | .ok t =>
    match t.toEvent receivedAt with
    | .error _ => return false
    | .ok e =>
      match ← around.push e with
      | .error _ => return false
      | .ok () => return true

/-- Handles each transaction in turn, and counts the accepted events. -/
def handleAll [Monad m] (around : Surroundings m) (receivedAt : Moment) : List String → m Nat
  | [] => return 0
  | id :: rest => do
    let accepted ← handleTransaction around receivedAt id
    let count ← handleAll around receivedAt rest
    return if accepted then count + 1 else count

/-- Handles one notification; only a failed look-up of its row is an error. -/
def handleNotification [Monad m] (around : Surroundings m) (n : Notification) :
    m (Except Error Nat) := do
  match ← around.transactionsOf n.eventId with
  | .error e => return .error e
  | .ok ids => return .ok (← handleAll around n.receivedAt ids)

end Handler
end TokenWatch.Bitmark
