/-!
Finite binary floating-point numbers of 53 significant bits, and the ways a decimal numeral is
turned into one.
-/
namespace TokenWatch.Decimal

/-- A finite number `significand * 2 ^ exponent`. The significand is below `2 ^ 53`, and at
least `2 ^ 52` unless the exponent is the smallest one. -/
structure Binary64 where
  negative : Bool
  significand : Nat
  exponent : Int
deriving DecidableEq, Inhabited

namespace Binary64

def minExponent : Int := -1074

def maxExponent : Int := 971

def zero (negative : Bool) : Binary64 := ⟨negative, 0, minExponent⟩

def isZero (x : Binary64) : Bool := x.significand == 0

def powerOfTwo (e : Int) : Nat × Nat :=
  (Nat.pow 2 e.toNat, Nat.pow 2 (-e).toNat)

def toRatio (x : Binary64) : Nat × Nat :=
  let (up, down) := powerOfTwo x.exponent
  (x.significand * up, down)

def roundHalfEven (num den : Nat) : Nat :=
  let q := num / den
  let twice := 2 * (num % den)
  if twice < den then q
  else if den < twice then q + 1
  else q + q % 2

/-- The nearest number to `num / den`, ties to the even significand; `none` from the point on
where that would exceed every finite number. -/
def ofRatio (negative : Bool) (num den : Nat) : Option Binary64 :=
  if num = 0 then some (zero negative)
  else
    let guess : Int := (num.log2 : Int) - den.log2 - 53
    let (up, down) := powerOfTwo (guess + 53)
    let e := max minExponent (if den * up ≤ num * down then guess + 1 else guess)
    let (up, down) := powerOfTwo e
    let m := roundHalfEven (num * down) (den * up)
    let (m, e) := if m = 0x20000000000000 then (0x10000000000000, e + 1) else (m, e)
    if maxExponent < e then none else some ⟨negative, m, e⟩

def maxPower : Nat := 308

def powerOfTen (k : Nat) : Binary64 :=
  (ofRatio false (Nat.pow 10 k) 1).getD (zero false)

def mul? (x y : Binary64) : Option Binary64 :=
  let (a, b) := x.toRatio
  let (c, d) := y.toRatio
  ofRatio (x.negative != y.negative) (a * c) (b * d)

def div? (x y : Binary64) : Option Binary64 :=
  let (a, b) := x.toRatio
  let (c, d) := y.toRatio
  ofRatio (x.negative != y.negative) (a * d) (b * c)

def divide (y x : Binary64) : Binary64 := (x.div? y).getD x

/-- A whole number scaled by a power of ten: the number is rounded, then multiplied or divided
once by the rounded power. Exponents below `-308` take their excess in steps of 308. -/
def scaled (negative : Bool) (significand : Nat) (exponent : Int) : Option Binary64 :=
  match ofRatio negative significand 1 with
  | none => none
  | some x =>
    if x.isZero then some x
    else if 0 ≤ exponent then
      if exponent.toNat ≤ maxPower then x.mul? (powerOfTen exponent.toNat) else none
    else
      let e := (-exponent).toNat
      let steps := (e - 1) / maxPower
      let reduced := Nat.repeat (divide (powerOfTen maxPower)) (min steps 3) x
      some (divide (powerOfTen (e - maxPower * steps)) reduced)

end Binary64
end TokenWatch.Decimal
