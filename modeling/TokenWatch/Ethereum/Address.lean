import TokenWatch.Ethereum.Keccak
import TokenWatch.Text.Numeral

/-!
Words and addresses, and the text of an address with its checksum.
-/
namespace TokenWatch.Ethereum
open Text

abbrev Word := BitVec 256

abbrev Address := BitVec 160

namespace Word

/-- The address in the low twenty bytes. -/
def toAddress (w : Word) : Address := w.setWidth 160

def ofAddress (a : Address) : Word := a.setWidth 256

/-- The number that bytes spell, highest byte first. -/
def natOfBytes (bytes : List UInt8) : Nat :=
  bytes.foldl (fun n b => 256 * n + b.toNat) 0

def ofBytes (bytes : List UInt8) : Word := BitVec.ofNat 256 (natOfBytes bytes)

end Word

namespace Address

def hexDigits (a : Address) : List Char := Hex.digits 40 a.toNat

/-- The four-bit halves of bytes, the high one first. -/
def halves (bytes : List UInt8) : List Nat :=
  bytes.flatMap fun b => [b.toNat / 16, b.toNat % 16]

/-- A digit is written large where the hash of the lower-case digits has a high bit. -/
def checkCase (digit : Char) (half : Nat) : Char :=
  if 8 ≤ half then digit.toUpper else digit

/-- `0x` and forty digits whose case is a checksum. -/
def toText (a : Address) : String :=
  let digits := a.hexDigits
  let hash := Keccak.hash (digits.map fun c => c.toNat.toUInt8)
  String.ofList ('0' :: 'x' :: List.zipWith checkCase digits (halves hash))

end Address
end TokenWatch.Ethereum
