import TokenWatch.Decimal.Binary64

/-!
The shortest decimal digits that read back as a given floating-point number, and its text.
-/
namespace TokenWatch.Decimal

structure Scientific where
  digits : Nat
  exponent : Int
deriving DecidableEq

namespace Scientific

def toRatio (d : Scientific) : Nat × Nat :=
  (d.digits * Nat.pow 10 d.exponent.toNat, Nat.pow 10 (-d.exponent).toNat)

end Scientific

namespace Binary64

/-- The number of decimal digits in front of the point, negative for small numbers: the magnitude
is below `10 ^ magnitudeDigits` and not below a tenth of that. -/
def magnitudeDigits (num den : Nat) : Int :=
  if den ≤ num then (Nat.toDigits 10 (num / den)).length
  else 1 - (Nat.toDigits 10 ((den - 1) / num)).length

/-- The decimal with `count` digits next to `num / den` that reads back as `x`, the nearer one
where both neighbours do. -/
def withDigits? (x : Binary64) (num den : Nat) (place : Int) (count : Nat) : Option Scientific :=
  let e := place - count
  let n := num * Nat.pow 10 (-e).toNat
  let d := den * Nat.pow 10 e.toNat
  let below : Scientific := ⟨n / d, e⟩
  let above : Scientific := ⟨n / d + 1, e⟩
  let readsBack (s : Scientific) : Bool :=
    let (a, b) := s.toRatio
    ofRatio x.negative a b == some x
  let twice := 2 * (n % d)
  let nearer :=
    if twice < d ∨ (twice = d ∧ (n / d) % 2 = 0) then [below, above] else [above, below]
  nearer.find? readsBack

/-- The fewest digits that read back. -/
def shortest (x : Binary64) : Scientific :=
  let (num, den) := x.toRatio
  let place := magnitudeDigits num den
  ((List.range 18).findSome? fun k => withDigits? x num den place (k + 1)).getD ⟨0, 0⟩

structure FixedRange where
  lowest : Int
  highest : Int

/-- Small and large numbers are written with an exponent, which has a sign and no padding. -/
def fixedRange : FixedRange := ⟨-5, 16⟩

def pointed (digits : List Char) (place : Int) : List Char :=
  if place ≤ 0 then '0' :: '.' :: (List.replicate (-place).toNat '0' ++ digits)
  else if place < digits.length then
    digits.take place.toNat ++ '.' :: digits.drop place.toNat
  else digits ++ List.replicate (place.toNat - digits.length) '0' ++ ['.', '0']

def exponential (digits : List Char) (exponent : Int) : List Char :=
  let mantissa := match digits with
    | first :: second :: rest => first :: '.' :: second :: rest
    | short => short
  let sign := if exponent < 0 then '-' else '+'
  mantissa ++ 'e' :: sign :: Nat.toDigits 10 exponent.natAbs

def magnitudeText (x : Binary64) : List Char :=
  if x.isZero then ['0', '.', '0']
  else
    let s := x.shortest
    let digits := (Nat.toDigits 10 s.digits).reverse.dropWhile (· == '0') |>.reverse
    let place := s.exponent + (Nat.toDigits 10 s.digits).length
    if fixedRange.lowest < place ∧ place ≤ fixedRange.highest then pointed digits place
    else exponential digits (place - 1)

def toText (x : Binary64) : List Char :=
  if x.negative then '-' :: x.magnitudeText else x.magnitudeText

end Binary64
end TokenWatch.Decimal
