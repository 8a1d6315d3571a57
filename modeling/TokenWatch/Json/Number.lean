import TokenWatch.Decimal.Shortest
import TokenWatch.Text.Numeral

/-!
Numbers of JSON texts: whole numbers that fit 64 bits, signed or not, and floating-point numbers.
-/
namespace TokenWatch.Json
open Decimal Text

structure Integer where
  value : Int
  low : -0x8000000000000000 ≤ value
  high : value < 0x10000000000000000
deriving DecidableEq

instance : Inhabited Integer := ⟨⟨0, by decide, by decide⟩⟩

namespace Integer

def ofInt? (n : Int) : Option Integer :=
  if h : -0x8000000000000000 ≤ n ∧ n < 0x10000000000000000 then some ⟨n, h.1, h.2⟩ else none

def ofUInt64 (n : UInt64) : Integer :=
  ⟨n.toNat, by omega, by have := n.toNat_lt; omega⟩

def toUInt64? (n : Integer) : Option UInt64 :=
  if 0 ≤ n.value then some (UInt64.ofNat n.value.toNat) else none

def toText (n : Integer) : List Char :=
  if n.value < 0 then '-' :: Nat.toDigits 10 n.value.natAbs else Nat.toDigits 10 n.value.natAbs

end Integer

inductive Number where
  | whole (n : Integer)
  | real (x : Binary64)
deriving DecidableEq, Inhabited

namespace Number

def toText : Number → List Char
  | whole n => n.toText
  | real x => x.toText

structure Written where
  negative : Bool
  whole : List Char
  fraction : Option (List Char)
  exponent : Option (Bool × List Char)
deriving DecidableEq

namespace Written

def readExponent? (cs : List Char) : Option (Option (Bool × List Char)) :=
  match cs with
  | [] => some none
  | mark :: rest =>
    if mark = 'e' ∨ mark = 'E' then
      let (negative, digits) := match rest with
        | '-' :: digits => (true, digits)
        | '+' :: digits => (false, digits)
        | digits => (false, digits)
      if Numeral.IsNumeral digits then some (some (negative, digits)) else none
    else none

def readFraction? (cs : List Char) : Option (Option (List Char) × List Char) :=
  match cs with
  | '.' :: rest =>
    let digits := rest.takeWhile Char.isDigit
    if digits = [] then none else some (some digits, rest.dropWhile Char.isDigit)
  | _ => some (none, cs)

/-- Reads a number by the grammar: no plus sign, no leading zero, a digit on each side of the
point. -/
def read? (cs : List Char) : Option Written :=
  let (negative, rest) := match cs with
    | '-' :: rest => (true, rest)
    | _ => (false, cs)
  let whole := rest.takeWhile Char.isDigit
  if Numeral.IsCanonical whole then
    match readFraction? (rest.dropWhile Char.isDigit) with
    | some (fraction, tail) => (readExponent? tail).map fun e => ⟨negative, whole, fraction, e⟩
    | none => none
  else none

/-- Appends digits as long as the number stays below `bound`; the digits left over come second. -/
def accumulate (bound acc : Nat) : List Char → Nat × List Char
  | [] => (acc, [])
  | c :: cs =>
    let next := acc * 10 + (c.toNat - '0'.toNat)
    if next < bound then accumulate bound next cs else (acc, c :: cs)

def significandBound : Nat := UInt64.size

/-- The digits kept exactly, and the power of ten that stands for the others. Whole digits that
no longer fit raise the exponent; fraction digits that do not fit are dropped. -/
def significand (w : Written) : Nat × Int :=
  let (acc, excess) := accumulate significandBound 0 w.whole
  match w.fraction with
  | none => (acc, excess.length)
  | some digits =>
    let (acc, dropped) := accumulate significandBound acc digits
    (acc, (excess.length : Int) - (digits.length - dropped.length : Nat))

def exponentBound : Nat := 0x80000000

def toReal? (w : Written) : Option Binary64 :=
  let (acc, shift) := w.significand
  match w.exponent with
  | none => Binary64.scaled w.negative acc shift
  | some (negative, digits) =>
    let (e, excess) := accumulate exponentBound 0 digits
    if excess ≠ [] then
      if acc ≠ 0 ∧ ¬negative then none else some (Binary64.zero w.negative)
    else Binary64.scaled w.negative acc (if negative then shift - e else shift + e)

/-- A number without point and exponent that fits is whole, except negative zero; every other one
is rounded. -/
def toNumber? (w : Written) : Option Number :=
  let fits := match w.fraction, w.exponent with
    | none, none =>
      let n := Numeral.value w.whole
      if w.negative then (if n = 0 then none else Integer.ofInt? (-n)) else Integer.ofInt? n
    | _, _ => none
  match fits with
  | some n => some (.whole n)
  | none => w.toReal?.map .real

end Written
end Number
end TokenWatch.Json
