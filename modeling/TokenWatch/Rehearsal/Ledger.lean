import TokenWatch.Bitmark.Handler
import TokenWatch.Rehearsal.Sink
import TokenWatch.Table

/-!
A ledger with known rows and transactions, and an event processor.
-/
namespace TokenWatch.Rehearsal
open Bitmark

inductive LedgerTrace where
  | fetch (id : String)
  | push (e : Event) (answer : SinkAnswer)

structure Ledger where
  rows : Table (Except Error (List String))
  transactions : Table (Except Error Transaction)
  sink : Sink
  /-- Newest first. -/
  trace : List LedgerTrace

namespace Ledger

def missing : Error := .client (.api ⟨404⟩ "")

def surroundings : Handler.Surroundings (StateM Ledger) where
  transactionsOf eventId := do
    return ((← get).rows.get? eventId).getD (.error (.invalidEventId eventId))
  transaction id := do
    modify fun l => { l with trace := .fetch id :: l.trace }
    return ((← get).transactions.get? id).getD (.error missing)
  push e := do
    let (sink, answer) := (← get).sink.push e
    modify fun l => { l with sink, trace := .push e answer :: l.trace }
    return answer.result

end Ledger
end TokenWatch.Rehearsal
