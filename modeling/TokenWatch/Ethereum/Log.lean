import TokenWatch.BlockTime
import TokenWatch.Ethereum.Address

/-!
Logs of Ethereum contracts, and the transfers of single tokens among them.
-/
namespace TokenWatch.Ethereum

structure Log where
  address : Address
  topics : List Word
  data : List UInt8
  blockHash : Option BlockHash
  txHash : Option Word
  index : Option UInt64
deriving DecidableEq

inductive Standard where
  | erc721
  | erc1155
deriving DecidableEq

namespace Standard

def name : Standard → String
  | erc721 => "Erc721"
  | erc1155 => "Erc1155"

/-- The first topic of a transfer of one token. -/
def signature : Standard → Word
  | erc721 => 0xddf252ad1be2c89b69c2b068fc378daa952ba7f163c4a11628f55a4df523b3ef#256
  | erc1155 => 0xc3d58168c5ae7397731d063d5bbf3d657854427343f4c083240f7aacaa2d0f62#256

def all : List Standard := [erc721, erc1155]

end Standard

/-- What a subscription asks for: the values admitted for each topic, and an address if only one
is wanted. No value at all admits every topic. -/
structure LogFilter where
  address : Option Address
  topics : List (List Word)

namespace LogFilter

/-- Both kinds of transfer, of any contract. -/
def transfers : LogFilter := ⟨none, [Standard.all.map Standard.signature]⟩

/-- Whether a log has an admitted value for every topic that is restricted. -/
def Admits (f : LogFilter) (log : Log) : Prop :=
  (∀ a, f.address = some a → log.address = a) ∧
    ∀ (i : Nat) values, f.topics[i]? = some values → values ≠ [] →
      ∃ t ∈ log.topics[i]?, t ∈ values

end LogFilter

inductive LoggedTransfer.Error where
  | shortData (bytes : Nat)
deriving DecidableEq

def LoggedTransfer.Error.message : LoggedTransfer.Error → String
  | shortData bytes =>
    "TransferSingle data has " ++ toString bytes ++ " bytes, expected at least 32"

structure LoggedTransfer where
  standard : Standard
  contract : Address
  source : Address
  target : Address
  tokenId : Word
deriving DecidableEq

namespace LoggedTransfer

/-- The transfer that a log stands for, if it does. Transfers of single tokens have four topics;
transfers of amounts share a signature with them but have three. -/
def ofLog (log : Log) : Except LoggedTransfer.Error (Option LoggedTransfer) :=
  match log.topics with
  | [signature, a, b, c] =>
    if signature = Standard.signature .erc721 then
      .ok (some ⟨.erc721, log.address, a.toAddress, b.toAddress, c⟩)
    else if signature = Standard.signature .erc1155 then
      if log.data.length < 32 then .error (.shortData log.data.length)
      else
        .ok (some ⟨.erc1155, log.address, b.toAddress, c.toAddress,
          Word.ofBytes (log.data.take 32)⟩)
    else .ok none
  | _ => .ok none

end LoggedTransfer
end TokenWatch.Ethereum
