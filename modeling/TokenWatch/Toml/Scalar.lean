import TokenWatch.Decimal.Binary64
import TokenWatch.Text.Numeral
import TokenWatch.Text.Pieces
import TokenWatch.Time.Rfc3339
import TokenWatch.Toml.Value

/-!
Numbers, truth values and dates of TOML, each read from a whole word.
-/
namespace TokenWatch.Toml
open Text

/-- Digits with single underscores between them; the underscores are dropped. -/
def joinDigits? (isDigit : Char → Bool) (cs : List Char) : Option (List Char) :=
  let groups := pieces '_' cs
  if groups.all fun g => g ≠ [] && g.all isDigit then some groups.flatten else none

def cutSign : List Char → Bool × List Char
  | '-' :: rest => (true, rest)
  | '+' :: rest => (false, rest)
  | cs => (false, cs)

/-! Whole numbers -/

def readWhole? (cs : List Char) : Option (List Char) :=
  (joinDigits? Char.isDigit cs).filter fun digits => Numeral.IsCanonical digits

def isDigitBelow (base : Nat) (c : Char) : Bool := (Hex.digitValue? c).any (· < base)

def readBase? (base : Nat) (cs : List Char) : Option Int :=
  (joinDigits? (isDigitBelow base) cs).map fun digits =>
    digits.foldl (fun n c => base * n + ((Hex.digitValue? c).getD 0)) 0

/-- Bases other than ten are marked and take no sign. -/
def readInteger? (cs : List Char) : Option Int :=
  let number := match cs with
    | '0' :: 'x' :: rest => readBase? 16 rest
    | '0' :: 'o' :: rest => readBase? 8 rest
    | '0' :: 'b' :: rest => readBase? 2 rest
    | cs =>
      let (negative, digits) := cutSign cs
      (readWhole? digits).map fun digits =>
        if negative then -Int.ofNat (Numeral.value digits) else Numeral.value digits
  number.filter fun n => -0x8000000000000000 ≤ n ∧ n < 0x8000000000000000

/-! Numbers with a fraction or an exponent -/

def isFinite (digits : Nat) (exponent : Int) : Bool :=
  let top : Int := (Nat.toDigits 10 digits).length + exponent
  if digits = 0 ∨ top < 308 then true
  else if 310 < top then false
  else
    let (num, den) := if 0 ≤ exponent then (digits * Nat.pow 10 exponent.toNat, 1)
      else (digits, Nat.pow 10 (-exponent).toNat)
    (Decimal.Binary64.ofRatio false num den).isSome

def cutAtAny (marks : List Char) (cs : List Char) : List Char × Option (List Char) :=
  match cs.dropWhile fun c => !marks.contains c with
  | [] => (cs, none)
  | _ :: rest => (cs.takeWhile fun c => !marks.contains c, some rest)

def readExponent? (cs : List Char) : Option Int :=
  let (negative, digits) := cutSign cs
  (joinDigits? Char.isDigit digits).map fun digits =>
    if negative then -Int.ofNat (Numeral.value digits) else Numeral.value digits

/-- A fraction, an exponent or both have to be there. A positive number may not exceed every
finite one. -/
def isFloat (cs : List Char) : Bool :=
  let (negative, unsigned) := cutSign cs
  if unsigned = "inf".toList ∨ unsigned = "nan".toList then true
  else
    let (mantissa, exponentText) := cutAtAny ['e', 'E'] unsigned
    let (wholeText, fractionText) := cutAtAny ['.'] mantissa
    let exponent := exponentText.elim (some 0) readExponent?
    let fraction := fractionText.elim (some []) (joinDigits? Char.isDigit)
    match readWhole? wholeText, fraction, exponent with
    | some whole, some fraction, some exponent =>
      (exponentText.isSome || fractionText.isSome) &&
        (negative || isFinite (Numeral.value (whole ++ fraction)) (exponent - fraction.length))
    | _, _, _ => false

/-! Dates and times -/

open Time.Rfc3339 (readDigits? readMark? readFraction?)

def readDay? (cs : List Char) : Option (List Char) := do
  let (year, cs) ← readDigits? 4 cs
  let cs ← readMark? '-' cs
  let (month, cs) ← readDigits? 2 cs
  let cs ← readMark? '-' cs
  let (day, cs) ← readDigits? 2 cs
  if Time.IsDate year month day then some cs else none

def readHourMinute? (cs : List Char) : Option (List Char) := do
  let (hour, cs) ← readDigits? 2 cs
  let cs ← readMark? ':' cs
  let (minute, cs) ← readDigits? 2 cs
  if hour < 24 ∧ minute < 60 then some cs else none

/-- Reads a time of day; any minute may have a sixtieth second. -/
def readClock? (cs : List Char) : Option (List Char) := do
  let cs ← readHourMinute? cs
  let cs ← readMark? ':' cs
  let (second, cs) ← readDigits? 2 cs
  let (_, cs) ← readFraction? cs
  if second ≤ 60 then some cs else none

def isOffset : List Char → Bool
  | [] => true
  | [c] => c == 'Z' || c == 'z'
  | sign :: rest => (sign == '+' || sign == '-') && readHourMinute? rest == some []

def isDate (cs : List Char) : Bool :=
  match readDay? cs with
  | some [] => true
  | some (mark :: rest) =>
    (mark == 'T' || mark == 't' || mark == ' ') && (readClock? rest).any isOffset
  | none => readClock? cs == some []

/-! Words -/

def isWordPart (c : Char) : Bool :=
  c.isAlphanum || c == '+' || c == '-' || c == '.' || c == '_' || c == ':'

def ofWord? (cs : List Char) : Option Value :=
  if cs = "true".toList then some (.bool true)
  else if cs = "false".toList then some (.bool false)
  else
    match readInteger? cs with
    | some n => some (.integer n)
    | none =>
      if isFloat cs then some (.float (String.ofList cs))
      else if isDate cs then some (.date (String.ofList cs))
      else none

/-- Reads the word at the start of a text. A day may be followed by a space and a time. -/
def readWord? (cs : List Char) : Option (Value × List Char) :=
  let word := cs.takeWhile isWordPart
  match readDay? word, cs.dropWhile isWordPart with
  | some [], ' ' :: rest =>
    let second := rest.takeWhile isWordPart
    if second = [] then (ofWord? word).map (·, ' ' :: rest)
    else (ofWord? (word ++ ' ' :: second)).map (·, rest.dropWhile isWordPart)
  | _, rest => (ofWord? word).map (·, rest)

end TokenWatch.Toml
