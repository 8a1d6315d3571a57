/-!
The chains that are watched and the addresses that stand for nobody.
-/
namespace TokenWatch

inductive Chain where
  | ethereum
  | tezos
  | bitmark
deriving DecidableEq, Inhabited

namespace Chain

def name : Chain → String
  | ethereum => "ethereum"
  | tezos => "tezos"
  | bitmark => "bitmark"

def all : List Chain := [ethereum, tezos, bitmark]

def table : List (String × Chain) := all.map fun c => (c.name, c)

/-- Addresses that a token comes from when it is created and goes to when it is destroyed. Tezos
and Bitmark report a creation as a transfer without a source, and no destruction at all. -/
def zeroAddresses : Chain → List String
  | ethereum => ["0x0000000000000000000000000000000000000000"]
  | tezos => []
  | bitmark => []

/-- Equality of texts up to the case of ASCII letters. -/
def sameAddress (a b : String) : Bool :=
  a.toList.map Char.toLower == b.toList.map Char.toLower

def isZeroAddress (c : Chain) (address : String) : Bool :=
  c.zeroAddresses.any (sameAddress address)

end Chain
end TokenWatch
