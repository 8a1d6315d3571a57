import TokenWatch.Time.Date

/-!
Moments: a date and a time of day to the nanosecond, at an offset from universal time of whole
minutes.
-/
namespace TokenWatch.Time

structure Clock where
  hour : Nat
  minute : Nat
  second : Nat
  nanosecond : Nat
  isClock : hour < 24 ∧ minute < 60 ∧ second < 60 ∧ nanosecond < 1000000000
deriving DecidableEq

/-- A local date and time, and the minutes by which it is ahead of universal time. -/
structure Moment where
  date : Date
  clock : Clock
  offset : Int
  offset_lt : offset.natAbs < 1440
deriving DecidableEq

namespace Clock

def seconds (c : Clock) : Nat :=
  3600 * c.hour + 60 * c.minute + c.second

def ofSeconds (n : Nat) : Clock :=
  ⟨n / 3600 % 24, n / 60 % 60, n % 60, 0, by omega, by omega, by omega, by decide⟩

end Clock

namespace Moment

def unixSeconds (m : Moment) : Int :=
  86400 * ((m.date.number : Int) - Date.epoch) + m.clock.seconds - 60 * m.offset

/-- The moment of a count of seconds since the start of 1970, unless its year has five digits. -/
def ofUnixSeconds? (n : Nat) : Option Moment :=
  (Date.ofNumber? (n / 86400 + Date.epoch)).map fun date =>
    ⟨date, .ofSeconds (n % 86400), 0, by decide⟩

end Moment
end TokenWatch.Time
