import TokenWatch.Retry
import TokenWatch.Toml.Parser
import TokenWatch.Toml.Reader

/-!
The configuration file: a section for the event processor and one for each chain. Time limits are
whole seconds.
-/
namespace TokenWatch.Config

structure ProcessorSection where
  endpoint : Url
  requestTimeout : UInt64
deriving DecidableEq

structure EthereumSection where
  /-- Where logs are subscribed to. -/
  wsUrl : String
  /-- Where blocks are looked up. -/
  rpcUrl : Option String
  rpcTimeout : UInt64
  reconnect : RetrySchedule
deriving DecidableEq

structure TezosSection where
  apiUrl : Url
  hubUrl : Option Url
  checkpointKey : String
  connectTimeout : UInt64
  requestTimeout : UInt64
deriving DecidableEq

structure BitmarkSection where
  databaseUrl : String
  listenChannel : String
  apiUrl : Url
  requestTimeout : UInt64
deriving DecidableEq

structure File where
  processor : ProcessorSection
  ethereum : Option EthereumSection
  tezos : Option TezosSection
  bitmark : Option BitmarkSection
deriving DecidableEq

def standardTimeout : UInt64 := 10

def standardKey : String := "tezos_last_stopped_level"

def standardChannel : String := "new_transfers"

open Toml Reader

def readProcessor : Reader ProcessorSection := fun v => do
  let f ← fields ["endpoint", "request_timeout_secs"] v
  let endpoint ← f.required "endpoint" url
  let requestTimeout ← f.withDefault "request_timeout_secs" standardTimeout uint64
  return ⟨endpoint, requestTimeout⟩

def readReconnect : Reader RetrySchedule := fun v => do
  let f ← fields ["initial_delay", "max_delay", "multiplier"] v
  let initial ← f.withDefault "initial_delay" RetrySchedule.fixed.initialMillis uint64
  let max ← f.withDefault "max_delay" RetrySchedule.fixed.maxMillis uint64
  let multiplier ← f.withDefault "multiplier" RetrySchedule.fixed.multiplier uint32
  return ⟨initial, max, multiplier⟩

def readEthereum : Reader EthereumSection := fun v => do
  let f ← fields ["ws_url", "rpc_url", "rpc_timeout_secs", "reconnect"] v
  let wsUrl ← f.required "ws_url" text
  let rpcUrl ← f.optional "rpc_url" text
  let rpcTimeout ← f.withDefault "rpc_timeout_secs" standardTimeout uint64
  let reconnect ← f.withDefault "reconnect" RetrySchedule.fixed readReconnect
  return ⟨wsUrl, rpcUrl, rpcTimeout, reconnect⟩

def readTezos : Reader TezosSection := fun v => do
  let f ← fields ["api_url", "hub_url", "checkpoint_key", "connect_timeout_secs",
    "request_timeout_secs"] v
  let apiUrl ← f.required "api_url" url
  let hubUrl ← f.optional "hub_url" url
  let checkpointKey ← f.withDefault "checkpoint_key" standardKey text
  let connectTimeout ← f.withDefault "connect_timeout_secs" standardTimeout uint64
  let requestTimeout ← f.withDefault "request_timeout_secs" standardTimeout uint64
  return ⟨apiUrl, hubUrl, checkpointKey, connectTimeout, requestTimeout⟩

def readBitmark : Reader BitmarkSection := fun v => do
  let f ← fields ["database_url", "listen_channel", "api_url", "request_timeout_secs"] v
  let databaseUrl ← f.required "database_url" text
  let listenChannel ← f.withDefault "listen_channel" standardChannel text
  let apiUrl ← f.required "api_url" url
  let requestTimeout ← f.withDefault "request_timeout_secs" standardTimeout uint64
  return ⟨databaseUrl, listenChannel, apiUrl, requestTimeout⟩

namespace File

def ofMembers? (members : Members) : Option File := do
  let f : Fields := ⟨members⟩
  let processor ← f.required "processor" readProcessor
  let ethereum ← f.optional "ethereum" readEthereum
  let tezos ← f.optional "tezos" readTezos
  let bitmark ← f.optional "bitmark" readBitmark
  return ⟨processor, ethereum, tezos, bitmark⟩

def ofText? (text : List Char) : Option File := Toml.parse? text >>= ofMembers?

end File
end TokenWatch.Config
