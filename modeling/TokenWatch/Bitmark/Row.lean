import TokenWatch.Bitmark.Transaction
import TokenWatch.Text.Pieces

/-!
Rows of the ledger's event table: word of a new one, and the list of transaction identifiers that
it holds in one text.
-/
namespace TokenWatch.Bitmark
open Time Text

/-- The identifiers in a comma-separated list, without white space around them; empty places are
passed over. -/
def splitIds (cs : List Char) : List (List Char) :=
  ((pieces ',' cs).map trim).filter (· ≠ [])

def transactionIds (value : String) : List String :=
  (splitIds value.toList).map String.ofList

/-- Word of a new row in the ledger's event table, and when it arrived. -/
structure Notification where
  eventId : String
  receivedAt : Moment
deriving DecidableEq

def eventNumber? (text : String) : Option Int64 := Numeral.readSigned? (trim text.toList)

/-- The transactions behind a notification, given the table's answers. -/
def transactionsOf [Monad m] (row : Int64 → m (Except String (Option String)))
    (eventId : String) : m (Except Error (List String)) := do
  match eventNumber? eventId with
  | none => return .error (.invalidEventId eventId)
  | some n =>
    match ← row n with
    | .error cause => return .error (.database cause)
    | .ok none => return .error (.eventNotFound n)
    | .ok (some value) => return .ok (transactionIds value)

end TokenWatch.Bitmark
