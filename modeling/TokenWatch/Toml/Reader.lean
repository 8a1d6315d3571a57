import TokenWatch.Toml.Value
import TokenWatch.Url.Parser

/-!
Reading TOML values at a type.
-/
namespace TokenWatch.Toml

abbrev Reader (α : Type) := Value → Option α

namespace Reader

def text : Reader String
  | .text s => some s
  | _ => none

def natBelow (bound : Nat) : Reader Nat
  | .integer n => if 0 ≤ n ∧ n < bound then some n.toNat else none
  | _ => none

/-- TOML's whole numbers end at `2 ^ 63`. -/
def uint64 : Reader UInt64 := fun v => (natBelow UInt64.size v).map UInt64.ofNat

def uint32 : Reader UInt32 := fun v => (natBelow UInt32.size v).map UInt32.ofNat

def url : Reader Url
  | .text s => (Url.parse s).toOption
  | _ => none

structure Fields where
  given : List (String × Value)

/-- A record is a table, in which unknown members are passed over, or an array of the fields in
declared order, of which items in excess are passed over. A date has no field that is known. -/
def fields (names : List String) : Reader Fields
  | .table _ members => some ⟨members⟩
  | .array items => some ⟨names.zip items⟩
  | .tables elements => some ⟨names.zip (elements.map (.table .header))⟩
  | .date _ => some ⟨[]⟩
  | _ => none

namespace Fields

def required (f : Fields) (name : String) (r : Reader α) : Option α :=
  f.given.lookup name >>= r

def withDefault (f : Fields) (name : String) (default : α) (r : Reader α) : Option α :=
  match f.given.lookup name with
  | some v => r v
  | none => some default

def optional (f : Fields) (name : String) (r : Reader α) : Option (Option α) :=
  f.withDefault name none fun v => (r v).map some

end Fields
end Reader
end TokenWatch.Toml
