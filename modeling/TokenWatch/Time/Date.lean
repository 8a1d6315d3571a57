/-!
Days of the Gregorian calendar in the years 0 to 9999, and their numbers counted from the first
day of year 0.
-/
namespace TokenWatch.Time

def isLeap (year : Nat) : Bool :=
  year % 4 == 0 && (year % 100 != 0 || year % 400 == 0)

def monthLengths (year : Nat) : List Nat :=
  [31, if isLeap year then 29 else 28, 31, 30, 31, 30, 31, 31, 30, 31, 30, 31]

def monthLength (year month : Nat) : Nat :=
  (monthLengths year).getD (month - 1) 0

def IsDate (year month day : Nat) : Prop :=
  year ≤ 9999 ∧ 1 ≤ month ∧ month ≤ 12 ∧ 1 ≤ day ∧ day ≤ monthLength year month

instance (year month day : Nat) : Decidable (IsDate year month day) :=
  inferInstanceAs (Decidable (_ ∧ _ ∧ _ ∧ _ ∧ _))

structure Date where
  year : Nat
  month : Nat
  day : Nat
  isDate : IsDate year month day
deriving DecidableEq

namespace Date

def daysBeforeYear (year : Nat) : Nat :=
  365 * year + (year + 3) / 4 - (year + 99) / 100 + (year + 399) / 400

def daysBeforeMonth (year month : Nat) : Nat :=
  ((monthLengths year).take (month - 1)).foldl (· + ·) 0

/-- Zero for the first of January of year 0. -/
def number (d : Date) : Nat :=
  daysBeforeYear d.year + daysBeforeMonth d.year d.month + (d.day - 1)

def cycle : Nat := 146097

/-- The year of a day within four centuries. The guess is at most one year short. -/
def yearInCycle (day : Nat) : Nat :=
  let guess := day / 366
  if daysBeforeYear (guess + 1) ≤ day then guess + 1 else guess

def yearOf (number : Nat) : Nat :=
  400 * (number / cycle) + yearInCycle (number % cycle)

/-- How many whole months fit into `day` days, and the days that remain. -/
def splitMonths : List Nat → Nat → Nat × Nat
  | [], day => (0, day)
  | length :: rest, day =>
    if day < length then (0, day)
    else
      let (months, left) := splitMonths rest (day - length)
      (months + 1, left)

def ofNumber? (number : Nat) : Option Date :=
  let year := yearOf number
  let (months, left) := splitMonths (monthLengths year) (number - daysBeforeYear year)
  if h : IsDate year (months + 1) (left + 1) then some ⟨year, months + 1, left + 1, h⟩ else none

def epoch : Nat := 719528

end Date
end TokenWatch.Time
