import TokenWatch.Text.Numeral

/-!
Token identifiers: natural numbers of any size in canonical decimal form.
-/
namespace TokenWatch
open Text

inductive TokenId.Error where
  | empty
  | notDecimal (value : String)
deriving DecidableEq

def TokenId.Error.message : TokenId.Error → String
  | empty => "token id is empty"
  | notDecimal value => "token id is not a decimal number: " ++ value

structure TokenId where
  text : String
  canonical : Numeral.IsCanonical text.toList
deriving DecidableEq

namespace TokenId

def toNat (t : TokenId) : Nat := Numeral.value t.text.toList

def ofDigits (cs : List Char) (h : Numeral.IsNumeral cs) : TokenId :=
  ⟨String.ofList (Numeral.dropZeros cs), by
    simpa only [String.toList_ofList] using Numeral.isCanonical_dropZeros h⟩

/-- Reads ASCII digits; leading zeros are dropped. -/
def ofDecimal (value : String) : Except TokenId.Error TokenId :=
  if value.toList = [] then .error .empty
  else if h : Numeral.IsNumeral value.toList then .ok (ofDigits value.toList h)
  else .error (.notDecimal value)

def ofDecimal? (value : String) : Option TokenId := (ofDecimal value).toOption

def ofNat (n : Nat) : TokenId :=
  ofDigits (Nat.toDigits 10 n) (Numeral.isNumeral_toDigits n)

end TokenId
end TokenWatch
