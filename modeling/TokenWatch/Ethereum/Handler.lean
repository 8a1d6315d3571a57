import TokenWatch.Ethereum.Log
import TokenWatch.EventProcessor

/-!
What is done with one log: its transfer becomes an event at the time of its block.
-/
namespace TokenWatch.Ethereum
open Time

namespace Handler

inductive Error where
  | decode (cause : LoggedTransfer.Error)
  | missingBlockHash
  | missingTransactionHash
  | blockTime (cause : BlockTime.Error)
  | tokenId (cause : TokenId.Error)
  | emit (cause : PushError)
deriving DecidableEq

def Error.message : Error → String
  | decode cause => "decode error: " ++ cause.message
  | missingBlockHash => "log has no block hash"
  | missingTransactionHash => "log has no transaction hash"
  | blockTime cause => "block time error: " ++ cause.message
  | tokenId cause => "token id error: " ++ cause.message
  | emit cause => "emit error: " ++ cause.message

structure Surroundings (m : Type → Type) extends BlockTime.Surroundings m where
  push : Event → m PushResult

/-- A transfer in a block, as yet without the block's time. -/
structure Placed where
  transfer : LoggedTransfer
  blockHash : BlockHash
  txHash : Word
  index : UInt64

/-- The checks that need the log alone. -/
def place (log : Log) : Except Error (Option Placed) :=
  match LoggedTransfer.ofLog log with
  | .error e => .error (.decode e)
  | .ok none => .ok none
  | .ok (some transfer) =>
    match log.blockHash, log.txHash with
    | none, _ => .error .missingBlockHash
    | some _, none => .error .missingTransactionHash
    | some blockHash, some txHash => .ok (some ⟨transfer, blockHash, txHash, log.index.getD 0⟩)

def Placed.toEvent (p : Placed) (time : Moment) : Except Error Event :=
  match TokenId.ofDecimal (toString p.transfer.tokenId.toNat) with
  | .error e => .error (.tokenId e)
  | .ok tokenId =>
    .ok (.ofTransfer .ethereum
      { source := some p.transfer.source.toText
        target := p.transfer.target.toText
        contract := p.transfer.contract.toText
        tokenId
        txId := BlockHash.toText p.txHash
        index := p.index
        time
        level := none })

/-- Handles one log; `none` is a log that is no transfer of a single token. -/
def handle [Monad m] (around : Surroundings m) (log : Log) : m (Except Error (Option Event)) := do
  match place log with
  | .error e => return .error e
  | .ok none => return .ok none
  | .ok (some placed) =>
    match ← BlockTime.resolve around.toSurroundings placed.blockHash with
    | .error e => return .error (.blockTime e)
    | .ok time =>
      match placed.toEvent time with
      | .error e => return .error e
      | .ok event =>
        match ← around.push event with
        | .error e => return .error (.emit e)
        | .ok () => return .ok (some event)

end Handler
end TokenWatch.Ethereum
