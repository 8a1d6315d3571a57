import TokenWatch.Event.Chain
import TokenWatch.Event.TokenId
import TokenWatch.Time.Rfc3339

/-!
The event model shared by all chains. The kind of an event is derived from its parties and never
chosen by the one who reports it.
-/
namespace TokenWatch
open Time

inductive EventKind where
  | mint
  | transfer
  | burned
  | tokenUpdated
deriving DecidableEq, Inhabited

namespace EventKind

def name : EventKind → String
  | mint => "mint"
  | transfer => "transfer"
  | burned => "burned"
  | tokenUpdated => "token_updated"

def all : List EventKind := [mint, transfer, burned, tokenUpdated]

def table : List (String × EventKind) := all.map fun k => (k.name, k)

/-- A token without a source or from a zero address is minted; one that goes to a zero address is
burned; any other is transferred. -/
def derive (chain : Chain) (source : Option String) (target : String) : EventKind :=
  match source with
  | none => mint
  | some source =>
    if chain.isZeroAddress source then mint
    else if chain.isZeroAddress target then burned
    else transfer

end EventKind

structure Event where
  kind : EventKind
  source : String
  target : String
  contract : String
  chain : Chain
  tokenId : TokenId
  txId : String
  index : UInt64
  time : Moment
  level : Option UInt64
deriving DecidableEq

structure Transfer where
  source : Option String
  target : String
  contract : String
  tokenId : TokenId
  txId : String
  index : UInt64
  time : Moment
  level : Option UInt64
deriving DecidableEq

structure MetadataUpdate where
  contract : String
  tokenId : TokenId
  txId : String
  time : Moment
  level : Option UInt64
deriving DecidableEq

namespace Event

/-- A mint has no source, also when the chain names a zero address. -/
def ofTransfer (chain : Chain) (t : Transfer) : Event :=
  let kind := EventKind.derive chain t.source t.target
  { kind
    source := if kind = .mint then "" else t.source.getD ""
    target := t.target
    contract := t.contract
    chain
    tokenId := t.tokenId
    txId := t.txId
    index := t.index
    time := t.time
    level := t.level }

def ofUpdate (chain : Chain) (u : MetadataUpdate) : Event :=
  { kind := .tokenUpdated
    source := ""
    target := ""
    contract := u.contract
    chain
    tokenId := u.tokenId
    txId := u.txId
    index := 0
    time := u.time
    level := u.level }

end Event
end TokenWatch
