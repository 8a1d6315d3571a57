import TokenWatch.Tezos.Record

/-!
Batches of records that the event hub pushes.
-/
namespace TokenWatch.Tezos
open Json

/-- The payload of a push: 0 tells the state of a subscription, 1 brings data, 2 a reorganisation
of the chain. -/
structure Push (α : Type) where
  kind : Nat
  state : UInt64
  data : List α

def Push.dataKind : Nat := 1

inductive Batch where
  | transfers (records : List TransferRecord)
  | updates (records : List UpdateRecord)
  /-- States, reorganisations, empty data, unknown channels and malformed payloads. -/
  | ignored

namespace Batch

def transfersTarget : String := "transfers"

def updatesTarget : String := "bigmaps"

def pushReader (r : Reader α) : Reader (Push α) := fun levels node => do
  let p ← Reader.parts ["type", "state", "data"] levels node
  let kind ← p.required "type" (Reader.natBelow 256)
  let state ← p.withDefault "state" 0 Reader.uint64
  let data ← p.withDefault "data" [] (Reader.list r)
  return ⟨kind, state, data⟩

/-- The records of a payload. One malformed record spoils all of them. -/
def records (r : Reader α) (payload : Value) : List α :=
  match Reader.ofValue? (pushReader r) payload with
  | some push => if push.kind = Push.dataKind then push.data else []
  | none => []

/-- The batch of an invocation; only the first argument counts. -/
def decode (target : String) : List Value → Batch
  | [] => ignored
  | payload :: _ =>
    if target = transfersTarget then
      match records Reader.transferRecord payload with
      | [] => ignored
      | rs => transfers rs
    else if target = updatesTarget then
      match records Reader.updateRecord payload with
      | [] => ignored
      | rs => updates rs
    else ignored

def events : Batch → List Event
  | transfers rs => transferEvents rs
  | updates rs => updateEvents rs
  | ignored => []

end Batch
end TokenWatch.Tezos
