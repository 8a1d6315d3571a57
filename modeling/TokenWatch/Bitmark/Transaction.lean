import TokenWatch.EventProcessor
import TokenWatch.Http.Exchange
import TokenWatch.Text.Quoted

/-!
Transactions of the Bitmark ledger, what can go wrong when they are looked up, and the service at
the end of an HTTP connection that knows them.
-/
namespace TokenWatch.Bitmark
open Time Json Text

inductive Error where
  | database (cause : String)
  | client (cause : Http.Error)
  | invalidEventId (text : String)
  | eventNotFound (id : Int64)
  | invalidBitmarkId (text : String)
deriving DecidableEq

def Error.message : Error → String
  | database cause => "database error: " ++ cause
  | client cause => cause.message
  | invalidEventId text => "invalid event id " ++ Quoted.quote text
  | eventNotFound id => "event " ++ toString id.toInt ++ " not found"
  | invalidBitmarkId text => "invalid bitmark id " ++ Quoted.quote text

structure Transaction where
  id : String
  owner : String
  bitmarkId : String
  previousOwner : Option String
deriving DecidableEq

namespace Transaction

/-- A bitmark is issued by the transaction that has its identifier. -/
def IsIssue (t : Transaction) : Prop := t.bitmarkId = t.id

instance (t : Transaction) : Decidable t.IsIssue := inferInstanceAs (Decidable (_ = _))

def idBound : Nat := Nat.pow 2 512

/-- The number of a hexadecimal identifier, in which underscores do not count. -/
def idNumber? (text : String) : Option Nat :=
  (Hex.value? (text.toList.filter (· ≠ '_'))).filter (· < idBound)

def tokenId (t : Transaction) : Except Error TokenId :=
  match idNumber? t.bitmarkId with
  | some n => .ok (.ofNat n)
  | none => .error (.invalidBitmarkId t.bitmarkId)

/-- The event of a transaction at the time when it was heard of. -/
def toEvent (t : Transaction) (time : Moment) : Except Error Event :=
  match t.tokenId with
  | .error e => .error e
  | .ok tokenId =>
    .ok (.ofTransfer .bitmark
      { source := if t.IsIssue then none else some (t.previousOwner.getD "")
        target := t.owner
        contract := ""
        tokenId
        txId := t.id
        index := 0
        time
        level := none })

end Transaction
end TokenWatch.Bitmark

namespace TokenWatch.Json.Reader
open Bitmark

def transaction : Reader Transaction := fun levels node => do
  let p ← parts ["id", "owner", "bitmark_id", "previous_owner"] levels node
  let id ← p.required "id" text
  let owner ← p.required "owner" text
  let bitmarkId ← p.required "bitmark_id" text
  let previousOwner ← p.withDefault "previous_owner" none (orNull text)
  return ⟨id, owner, bitmarkId, previousOwner⟩

def wrappedTransaction : Reader Transaction := fun levels node => do
  let p ← parts ["tx"] levels node
  p.required "tx" transaction

end TokenWatch.Json.Reader

namespace TokenWatch.Bitmark
open Json

structure Service where
  base : Url

namespace Service

def ofUrl (url : Url) : Service := ⟨url.directory⟩

def transactionPath (id : String) : String := "v1/txs/" ++ id

def transaction [Monad m] (s : Service) (exchange : Http.Exchange m) (id : String) :
    m (Except Error Transaction) := do
  match ← exchange.fetch .get (s.base.endpoint (transactionPath id)) none
      Reader.wrappedTransaction with
  | .error cause => return .error (.client cause)
  | .ok t => return .ok t

end Service
end TokenWatch.Bitmark
