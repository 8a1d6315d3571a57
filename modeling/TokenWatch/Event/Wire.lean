import TokenWatch.Event.Basic
import TokenWatch.Json.Printer
import TokenWatch.Json.Reader

/-!
Events as the event processor receives them, and its answers.
-/
namespace TokenWatch
open Time Json

/-- The body that hands one event over. -/
structure Submission where
  kind : EventKind
  chain : Chain
  contract : String
  source : String
  target : String
  tokenId : TokenId
  txId : String
  index : UInt64
  level : UInt64
  time : Moment
deriving DecidableEq

namespace Submission

/-- A missing level is sent as zero. -/
def ofEvent (e : Event) : Submission :=
  { kind := e.kind
    chain := e.chain
    contract := e.contract
    source := e.source
    target := e.target
    tokenId := e.tokenId
    txId := e.txId
    index := e.index
    level := e.level.getD 0
    time := e.time }

def toJson (i : Submission) : Value :=
  .ofMembers
    [("type", .text i.kind.name),
     ("blockchain", .text i.chain.name),
     ("contract", .text i.contract),
     ("from", .text i.source),
     ("to", .text i.target),
     ("tokenID", .text i.tokenId.text),
     ("txID", .text i.txId),
     ("eventIndex", .ofUInt64 i.index),
     ("level", .ofUInt64 i.level),
     ("txTime", .text i.time.toText)]

end Submission

namespace Json.Reader

def tokenId : Reader TokenId := text.andThen TokenId.ofDecimal?

def moment : Reader Moment := text.andThen Moment.ofText?

def chain : Reader Chain := choice Chain.table

def eventKind : Reader EventKind := choice EventKind.table

def submission : Reader Submission := fun levels node => do
  let p ← parts ["type", "blockchain", "contract", "from", "to", "tokenID", "txID", "eventIndex",
    "level", "txTime"] levels node
  let kind ← p.required "type" eventKind
  let chain ← p.required "blockchain" chain
  let contract ← p.required "contract" text
  let source ← p.required "from" text
  let target ← p.required "to" text
  let tokenId ← p.required "tokenID" tokenId
  let txId ← p.required "txID" text
  let index ← p.withDefault "eventIndex" 0 uint64
  let level ← p.withDefault "level" 0 uint64
  let time ← p.required "txTime" moment
  return { kind, chain, contract, source, target, tokenId, txId, index, level, time }

end Json.Reader

structure Receipt where
  status : Int32
deriving DecidableEq

namespace Receipt

/-- Every status but 200 is a rejection. -/
def IsAccepted (r : Receipt) : Prop := r.status = 200

instance (r : Receipt) : Decidable r.IsAccepted := inferInstanceAs (Decidable (_ = _))

end Receipt

namespace Json.Reader

def receipt : Reader Receipt := fun levels node => do
  let p ← parts ["status"] levels node
  let status ← p.required "status" (intWithin (-0x80000000) 0x80000000)
  return ⟨Int32.ofInt status⟩

end Json.Reader

namespace Event

def toJson (e : Event) : Value :=
  .ofMembers
    [("event_type", .text e.kind.name),
     ("from", .text e.source),
     ("to", .text e.target),
     ("contract_address", .text e.contract),
     ("blockchain", .text e.chain.name),
     ("token_id", .text e.tokenId.text),
     ("tx_id", .text e.txId),
     ("event_index", .ofUInt64 e.index),
     ("tx_time", .text e.time.toText),
     ("level", .ofOption .ofUInt64 e.level)]

end Event
end TokenWatch
