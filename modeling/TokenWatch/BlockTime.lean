import TokenWatch.Json.Value
import TokenWatch.Table
import TokenWatch.Text.Numeral
import TokenWatch.Time.Rfc3339

/-!
The times of blocks, looked up once and remembered in a cache that may fail.
-/
namespace TokenWatch
open Time Json Text

abbrev BlockHash := BitVec 256

namespace BlockHash

def toText (h : BlockHash) : String := String.ofList ('0' :: 'x' :: Hex.digits 64 h.toNat)

end BlockHash

inductive BlockTime.Error where
  | rpc (cause : String)
  | notFound (hash : BlockHash)
  | timeout
  | invalidTimestamp (seconds : UInt64)
deriving DecidableEq

def BlockTime.Error.message : BlockTime.Error → String
  | rpc cause => "block lookup failed: " ++ cause
  | notFound hash => "block " ++ hash.toText ++ " not found"
  | timeout => "block lookup timed out"
  | invalidTimestamp seconds => "invalid block timestamp " ++ toString seconds.toNat

namespace BlockTime

def ofTimestamp (seconds : UInt64) : Except BlockTime.Error Moment :=
  match Moment.ofUnixSeconds? seconds.toNat with
  | some t => .ok t
  | none => .error (.invalidTimestamp seconds)

/-- The cache and the chain, which the resolver asks. -/
structure Surroundings (m : Type → Type) where
  /-- The entry of a key, if any; the outer `none` is a failed read. -/
  cached : String → m (Option (Option Value))
  lookUp : BlockHash → m (Except BlockTime.Error Moment)
  /-- Whether the entry was written. -/
  remember : String → Value → m Bool

def key (h : BlockHash) : String := h.toText

def toEntry (t : Moment) : Value := .text t.toText

/-- Only a text in RFC 3339 form is of use. -/
def ofEntry? : Value → Option Moment
  | .text s => Moment.ofText? s
  | _ => none

/-- What a read of the cache yields. -/
def usable? (answer : Option (Option Value)) : Option Moment := answer.join.bind ofEntry?

/-- The time of a block: from the cache when it has a usable entry, else from the chain, and then
written to the cache as far as that succeeds. -/
def resolve [Monad m] (around : Surroundings m) (hash : BlockHash) :
    m (Except BlockTime.Error Moment) := do
  match usable? (← around.cached (key hash)) with
  | some t => return .ok t
  | none =>
    match ← around.lookUp hash with
    | .error e => return .error e
    | .ok t =>
      let _ ← around.remember (key hash) (toEntry t)
      return .ok t

end BlockTime
end TokenWatch
