import TokenWatch.Text.Numeral
import TokenWatch.Time.Moment

/-!
Moments as RFC 3339 texts.
-/
namespace TokenWatch.Time.Rfc3339
open Text

def readDigits? (width : Nat) (cs : List Char) : Option (Nat × List Char) :=
  let digits := cs.take width
  if digits.length = width ∧ digits.all Char.isDigit then
    some (Numeral.value digits, cs.drop width)
  else none

def readMark? (mark : Char) : List Char → Option (List Char)
  | c :: rest => if c = mark then some rest else none
  | [] => none

def readSeparator? : List Char → Option (List Char)
  | c :: rest => if c.toNat < 0x80 then some rest else none
  | [] => none

/-- Nanoseconds of an optional fraction; digits after the ninth are cut off. -/
def readFraction? : List Char → Option (Nat × List Char)
  | '.' :: rest =>
    let digits := rest.takeWhile Char.isDigit
    if digits = [] then none
    else
      let kept := digits.take 9
      some (Numeral.value (kept ++ List.replicate (9 - kept.length) '0'),
        rest.dropWhile Char.isDigit)
  | cs => some (0, cs)

/-- `Z` or a sign, hours and minutes; nothing may follow. -/
def readOffset? (cs : List Char) : Option Int :=
  match cs with
  | ['Z'] => some 0
  | ['z'] => some 0
  | sign :: rest =>
    if sign = '+' ∨ sign = '-' then do
      let (hours, rest) ← readDigits? 2 rest
      let rest ← readMark? ':' rest
      let (minutes, rest) ← readDigits? 2 rest
      if rest = [] ∧ hours < 24 ∧ minutes < 60 then
        let total : Int := 60 * hours + minutes
        some (if sign = '-' then -total else total)
      else none
    else none
  | [] => none

def endsMonth (d : Date) (hour minute : Nat) (offset : Int) : Bool :=
  let universal : Int := 60 * hour + minute - offset
  if universal = 1439 then d.day == monthLength d.year d.month
  else if universal = -1 then d.day == 1
  else if universal = 2879 then d.day + 1 == monthLength d.year d.month
  else false

/-- A sixtieth second is read as the last nanosecond of the minute that it lengthens, and only at
the end of a month. -/
def build? (year month day hour minute second nanosecond : Nat) (offset : Int) : Option Moment :=
  if hd : IsDate year month day then
    let date : Date := ⟨year, month, day, hd⟩
    if ho : offset.natAbs < 1440 then
      if second = 60 then
        if hc : hour < 24 ∧ minute < 60 then
          if endsMonth date hour minute offset then
            some ⟨date, ⟨hour, minute, 59, 999999999, hc.1, hc.2, by decide, by decide⟩, offset, ho⟩
          else none
        else none
      else if hc : hour < 24 ∧ minute < 60 ∧ second < 60 ∧ nanosecond < 1000000000 then
        some ⟨date, ⟨hour, minute, second, nanosecond, hc⟩, offset, ho⟩
      else none
    else none
  else none

def parse? (cs : List Char) : Option Moment := do
  let (year, cs) ← readDigits? 4 cs
  let cs ← readMark? '-' cs
  let (month, cs) ← readDigits? 2 cs
  let cs ← readMark? '-' cs
  let (day, cs) ← readDigits? 2 cs
  let cs ← readSeparator? cs
  let (hour, cs) ← readDigits? 2 cs
  let cs ← readMark? ':' cs
  let (minute, cs) ← readDigits? 2 cs
  let cs ← readMark? ':' cs
  let (second, cs) ← readDigits? 2 cs
  let (nanosecond, cs) ← readFraction? cs
  let offset ← readOffset? cs
  build? year month day hour minute second nanosecond offset

def digits : Nat → Nat → List Char
  | 0, _ => []
  | width + 1, n => digits width (n / 10) ++ [Nat.digitChar (n % 10)]

/-- No fraction for whole seconds, else up to nine digits without zeros at the end. -/
def fraction (nanosecond : Nat) : List Char :=
  if nanosecond = 0 then []
  else '.' :: ((digits 9 nanosecond).reverse.dropWhile (· == '0')).reverse

def zone (offset : Int) : List Char :=
  if offset = 0 then ['Z']
  else
    (if offset < 0 then '-' else '+') ::
      (digits 2 (offset.natAbs / 60) ++ ':' :: digits 2 (offset.natAbs % 60))

def format (m : Moment) : List Char :=
  digits 4 m.date.year ++ '-' :: digits 2 m.date.month ++ '-' :: digits 2 m.date.day ++
    'T' :: digits 2 m.clock.hour ++ ':' :: digits 2 m.clock.minute ++
    ':' :: digits 2 m.clock.second ++ fraction m.clock.nanosecond ++ zone m.offset

end Rfc3339

namespace Moment

def toText (m : Moment) : String := String.ofList (Rfc3339.format m)

def ofText? (s : String) : Option Moment := Rfc3339.parse? s.toList

end Moment
end TokenWatch.Time
