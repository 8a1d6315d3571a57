import TokenWatch.Config.File
import TokenWatch.Text.Pieces
import TokenWatch.Url.Edit

/-!
The configuration of the watchers: what a valid file comes to once the values that it leaves out
are derived from the others.
-/
namespace TokenWatch.Config
open Text

inductive Flaw where
  | noWatcher
  | blankWsUrl
  | noInitialDelay
  | blankCheckpointKey
  | blankListenChannel
  | apiUrl (cause : Url.Error)
deriving DecidableEq

def Flaw.message : Flaw → String
  | noWatcher => "at least one of [ethereum], [tezos] or [bitmark] must be configured"
  | blankWsUrl => "ethereum.ws_url is empty"
  | noInitialDelay => "ethereum.reconnect.initial_delay must be positive"
  | blankCheckpointKey => "tezos.checkpoint_key is empty"
  | blankListenChannel => "bitmark.listen_channel is empty"
  | apiUrl cause => "tezos.api_url: " ++ cause.message

inductive Error where
  | io (cause : String)
  | malformed (cause : String)
  | invalid (cause : Flaw)
  | missingDatabaseUrl
deriving DecidableEq

def Error.message : Error → String
  | io cause => "failed to read config file: " ++ cause
  | malformed cause => "failed to parse config file: " ++ cause
  | invalid cause => "validation error: " ++ cause.message
  | missingDatabaseUrl => "DATABASE_URL environment variable not set"

structure Processor where
  endpoint : Url
  requestTimeout : UInt64

structure Ethereum where
  wsUrl : String
  rpcUrl : String
  rpcTimeout : UInt64
  reconnect : RetrySchedule

structure Tezos where
  apiUrl : Url
  hubUrl : Url
  checkpointKey : String
  connectTimeout : UInt64
  requestTimeout : UInt64

structure Bitmark where
  databaseUrl : String
  listenChannel : String
  apiUrl : Url
  requestTimeout : UInt64

/-- A watcher runs when its part is present. -/
structure Watchers where
  processor : Processor
  ethereum : Option Ethereum
  tezos : Option Tezos
  bitmark : Option Bitmark

def Watchers.enabled (w : Watchers) : List String :=
  (if w.ethereum.isSome then ["ethereum"] else []) ++
    (if w.tezos.isSome then ["tezos"] else []) ++
    (if w.bitmark.isSome then ["bitmark"] else [])

/-! Checks -/

def checkEthereum (s : EthereumSection) : Except Flaw Unit :=
  if IsBlank s.wsUrl then .error .blankWsUrl
  else if s.reconnect.initialMillis = 0 then .error .noInitialDelay
  else .ok ()

def checkTezos (s : TezosSection) : Except Flaw Unit :=
  if IsBlank s.checkpointKey then .error .blankCheckpointKey else .ok ()

def checkBitmark (s : BitmarkSection) : Except Flaw Unit :=
  if IsBlank s.listenChannel then .error .blankListenChannel else .ok ()

/-- An absent section passes every check. -/
def checkPresent (check : α → Except Flaw Unit) : Option α → Except Flaw Unit
  | some s => check s
  | none => .ok ()

def validate (f : File) : Except Flaw Unit :=
  if f.ethereum.isNone ∧ f.tezos.isNone ∧ f.bitmark.isNone then .error .noWatcher
  else do
    checkPresent checkEthereum f.ethereum
    checkPresent checkTezos f.tezos
    checkPresent checkBitmark f.bitmark

/-! Derived values -/

def Processor.ofSection (s : ProcessorSection) : Processor := ⟨s.endpoint, s.requestTimeout⟩

/-- Blocks are looked up where the logs come from unless another place is given. -/
def Ethereum.ofSection (s : EthereumSection) : Ethereum :=
  ⟨s.wsUrl, s.rpcUrl.getD s.wsUrl, s.rpcTimeout, s.reconnect⟩

def hubPath : String := "v1/ws"

def deriveHubUrl (apiUrl : Url) : Except Url.Error Url := apiUrl.endpoint hubPath

def Tezos.ofSection (s : TezosSection) : Except Flaw Tezos :=
  match s.hubUrl.elim (deriveHubUrl s.apiUrl) .ok with
  | .ok url => .ok ⟨s.apiUrl, url, s.checkpointKey, s.connectTimeout, s.requestTimeout⟩
  | .error e => .error (.apiUrl e)

def Bitmark.ofSection (s : BitmarkSection) : Bitmark :=
  ⟨s.databaseUrl, s.listenChannel, s.apiUrl, s.requestTimeout⟩

def Watchers.build (f : File) : Except Flaw Watchers :=
  match f.tezos.mapM Tezos.ofSection with
  | .error e => .error e
  | .ok tezos =>
    .ok { processor := .ofSection f.processor
          ethereum := f.ethereum.map .ofSection
          tezos
          bitmark := f.bitmark.map .ofSection }

namespace Watchers

def ofFile (f : File) : Except Flaw Watchers :=
  match validate f with
  | .error e => .error e
  | .ok () => build f

def ofText (text : List Char) : Except Error Watchers :=
  match File.ofText? text with
  | none => .error (.malformed "not a configuration")
  | some f =>
    match ofFile f with
    | .error e => .error (.invalid e)
    | .ok w => .ok w

def load : Option ByteArray → Except Error Watchers
  | none => .error (.io "no such file")
  | some bytes =>
    match String.fromUTF8? bytes with
    | none => .error (.io "not valid UTF-8")
    | some text => ofText text.toList

end Watchers

def databaseUrl (environment : String → Option String) : Except Error String :=
  match environment "DATABASE_URL" with
  | some url => .ok url
  | none => .error .missingDatabaseUrl

end TokenWatch.Config
