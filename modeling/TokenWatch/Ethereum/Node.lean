import TokenWatch.Ethereum.Log
import TokenWatch.Http.Exchange

/-!
Ethereum nodes: how one is reached, and how the time of a block is asked for.
-/
namespace TokenWatch.Ethereum
open Json Text

/-- How a node is reached. Over HTTP every request stands alone; a socket has to be connected
first. -/
inductive NodeAddress where
  | http (url : Url)
  | socket (url : Url)
deriving DecidableEq

namespace NodeAddress

def isPort (cs : List Char) : Bool := (Numeral.read? cs).any (· < 65536)

def isSocketAddress (cs : List Char) : Bool :=
  match cs with
  | '[' :: rest =>
    match Url.cutAt ']' rest with
    | (host, some (':' :: port)) =>
      (Url.Host.ipv6? (host.takeWhile (· ≠ '%'))).isSome && isPort port
    | _ => false
  | cs =>
    match Url.cutAt ':' cs with
    | (host, some port) => (Url.Host.ipv6Tail? host).isSome && isPort port
    | (_, none) => false

/-- An address that names no scheme is one of HTTP. -/
def ofText? (s : String) : Option NodeAddress :=
  let bare := "localhost:".toList.isPrefixOf s.toList || isSocketAddress s.toList
  match Url.parse (if bare then "http://" ++ s else s) with
  | .error _ => none
  | .ok url =>
    if url.scheme = "http" ∨ url.scheme = "https" then some (http url)
    else if url.scheme = "ws" ∨ url.scheme = "wss" then some (socket url)
    else none

end NodeAddress

def callBody (id : Nat) (method : String) (params : List Value) : Value :=
  .ofMembers
    [("jsonrpc", .text "2.0"), ("id", .ofNat id), ("method", .text method),
      ("params", .array params)]

/-- The call for a block without its transactions. -/
def blockCall (id : Nat) (hash : BlockHash) : Value :=
  callBody id "eth_getBlockByHash" [.text hash.toText, .bool false]

inductive BlockAnswer where
  | timedOut
  | failed (cause : String)
  | unknown
  | header (timestamp : UInt64)
deriving DecidableEq

namespace BlockAnswer

def time (hash : BlockHash) : BlockAnswer → Except BlockTime.Error Time.Moment
  | timedOut => .error .timeout
  | failed cause => .error (.rpc cause)
  | unknown => .error (.notFound hash)
  | header timestamp => BlockTime.ofTimestamp timestamp

def quantity? : Value → Option UInt64
  | .text s =>
    match s.toList with
    | '0' :: 'x' :: d :: rest =>
      ((Hex.value? (d :: rest)).filter (· < UInt64.size)).map UInt64.ofNat
    | _ => none
  | _ => none

def ofBody (body : Value) : BlockAnswer :=
  match body.get? "error", body.get? "result" with
  | none, some .null => unknown
  | none, some block =>
    match block.get? "timestamp" >>= quantity? with
    | some timestamp => header timestamp
    | none => failed "malformed block"
  | _, _ => failed "the node refused"

def ofResponse : Except Http.Error Value → BlockAnswer
  | .ok body => ofBody body
  | .error e => failed e.message

end BlockAnswer

def blockTime [Monad m] (exchange : Http.Exchange m) (node : Url) (id : Nat) (hash : BlockHash) :
    m (Except BlockTime.Error Time.Moment) := do
  let response ← exchange.fetch .post (.ok node) (some (blockCall id hash)) Reader.value
  return (BlockAnswer.ofResponse response).time hash

end TokenWatch.Ethereum
