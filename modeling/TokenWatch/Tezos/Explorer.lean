import TokenWatch.Http.Exchange
import TokenWatch.Tezos.Batch

/-!
The explorer that knows the records of each level, at the end of an HTTP connection.
-/
namespace TokenWatch.Tezos
open Json

def metadataTag : String := "token_metadata"

structure Explorer where
  base : Url

namespace Explorer

def ofUrl (url : Url) : Explorer := ⟨url.directory⟩

def transfersPath : String := "v1/tokens/transfers"

def updatesPath : String := "v1/bigmaps/updates"

def levelPath (moment : Time.Moment) : String := "v1/blocks/" ++ moment.toText ++ "/level"

structure Page where
  level : UInt64
  offset : UInt64
  limit : UInt64

def Page.pairs (p : Page) : List (String × String) :=
  [("level", toString p.level.toNat), ("offset", toString p.offset.toNat),
    ("limit", toString p.limit.toNat), ("sort.asc", "id")]

def updateFilter : List (String × String) :=
  [("tags.any", metadataTag), ("action.in", String.intercalate "," UpdateRecord.changeActions)]

def address (x : Explorer) (path : String) (pairs : List (String × String)) :
    Except Url.Error Url :=
  (x.base.endpoint path).map (·.appendPairs pairs)

variable {m : Type → Type} [Monad m]

def levelAt (x : Explorer) (exchange : Http.Exchange m) (moment : Time.Moment) :
    m (Except Http.Error UInt64) :=
  exchange.fetch .get (x.address (levelPath moment) []) none Reader.uint64

def transfers (x : Explorer) (exchange : Http.Exchange m) (p : Page) :
    m (Except Http.Error (List TransferRecord)) :=
  exchange.fetch .get (x.address transfersPath p.pairs) none
    (Reader.list Reader.transferRecord)

def updates (x : Explorer) (exchange : Http.Exchange m) (p : Page) :
    m (Except Http.Error (List UpdateRecord)) :=
  exchange.fetch .get (x.address updatesPath (updateFilter ++ p.pairs)) none
    (Reader.list Reader.updateRecord)

end Explorer
end TokenWatch.Tezos
