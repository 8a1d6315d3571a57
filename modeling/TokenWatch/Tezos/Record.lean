import TokenWatch.Event.Wire

/-!
Records of the Tezos indexer: transfers of tokens and updates of the maps that hold their metadata.
-/
namespace TokenWatch.Tezos
open Time Json

structure TransferRecord where
  id : UInt64
  level : UInt64
  time : Moment
  contract : String
  tokenId : String
  source : Option String
  target : Option String
  transaction : Option UInt64
  origination : Option UInt64
  migration : Option UInt64
deriving DecidableEq

structure MapEntry where
  key : Value
  value : Value

structure UpdateRecord where
  id : UInt64
  level : UInt64
  time : Moment
  contract : String
  action : String
  content : Option MapEntry

structure RecordError where
  id : UInt64
  reason : String
deriving DecidableEq

def RecordError.message (e : RecordError) : String :=
  "invalid record " ++ toString e.id.toNat ++ ": " ++ e.reason

def readTokenId (id : UInt64) (text : String) : Except RecordError TokenId :=
  match TokenId.ofDecimal text with
  | .ok t => .ok t
  | .error e => .error ⟨id, e.message⟩

namespace TransferRecord

def operation (r : TransferRecord) : UInt64 :=
  (r.transaction <|> r.origination <|> r.migration).getD r.id

def toEvent (r : TransferRecord) : Except RecordError Event :=
  match readTokenId r.id r.tokenId with
  | .error e => .error e
  | .ok tokenId =>
    .ok (.ofTransfer .tezos
      { source := r.source
        target := r.target.getD ""
        contract := r.contract
        tokenId
        txId := toString r.operation.toNat
        index := 0
        time := r.time
        level := some r.level })

end TransferRecord

namespace UpdateRecord

/-- The actions that change metadata of a token that is there already. -/
def changeActions : List String := ["update_key", "remove_key"]

def IsChange (r : UpdateRecord) : Prop := r.action ∈ changeActions

instance (r : UpdateRecord) : Decidable r.IsChange := inferInstanceAs (Decidable (_ ∈ _))

def scalarText? : Value → Option String
  | .text s => some s
  | .number n => some (String.ofList n.toText)
  | _ => none

/-- The token that an entry names, first in its value, else in its key. -/
def MapEntry.tokenText? (e : MapEntry) : Option String :=
  (e.value.get? "token_id" >>= scalarText?) <|> scalarText? e.key

/-- The event of a change; other updates have none. -/
def toEvent (r : UpdateRecord) : Except RecordError (Option Event) :=
  if r.IsChange then
    match r.content >>= MapEntry.tokenText? with
    | none => .error ⟨r.id, "no token id in big-map content"⟩
    | some text =>
      match readTokenId r.id text with
      | .error e => .error e
      | .ok tokenId =>
        .ok (some (.ofUpdate .tezos
          { contract := r.contract
            tokenId
            txId := toString r.id.toNat
            time := r.time
            level := some r.level }))
  else .ok none

end UpdateRecord

/-- The events of records that have one, in order. -/
def transferEvents (records : List TransferRecord) : List Event :=
  records.filterMap fun r => r.toEvent.toOption

def updateEvents (records : List UpdateRecord) : List Event :=
  records.filterMap fun r => r.toEvent.toOption.join

end TokenWatch.Tezos

namespace TokenWatch.Json.Reader
open Tezos

def account : Reader String := fun levels node => do
  let p ← parts ["address"] levels node
  p.required "address" text

def token : Reader (String × String) := fun levels node => do
  let p ← parts ["contract", "tokenId"] levels node
  let contract ← p.required "contract" account
  let tokenId ← p.required "tokenId" text
  return (contract, tokenId)

def transferRecord : Reader TransferRecord := fun levels node => do
  let p ← parts ["id", "level", "timestamp", "token", "from", "to", "transactionId",
    "originationId", "migrationId"] levels node
  let id ← p.required "id" uint64
  let level ← p.required "level" uint64
  let time ← p.required "timestamp" moment
  let (contract, tokenId) ← p.required "token" token
  let source ← p.withDefault "from" none (orNull account)
  let target ← p.withDefault "to" none (orNull account)
  let transaction ← p.withDefault "transactionId" none (orNull uint64)
  let origination ← p.withDefault "originationId" none (orNull uint64)
  let migration ← p.withDefault "migrationId" none (orNull uint64)
  return { id, level, time, contract, tokenId, source, target, transaction, origination, migration }

def mapEntry : Reader MapEntry := fun levels node => do
  let p ← parts ["key", "value"] levels node
  let key ← p.withDefault "key" .null value
  let entry ← p.withDefault "value" .null value
  return ⟨key, entry⟩

def updateRecord : Reader UpdateRecord := fun levels node => do
  let p ← parts ["id", "level", "timestamp", "contract", "action", "content"] levels node
  let id ← p.required "id" uint64
  let level ← p.required "level" uint64
  let time ← p.required "timestamp" moment
  let contract ← p.required "contract" account
  let action ← p.required "action" text
  let content ← p.withDefault "content" none (orNull mapEntry)
  return { id, level, time, contract, action, content }

end TokenWatch.Json.Reader
