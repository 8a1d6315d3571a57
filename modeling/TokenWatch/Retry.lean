import TokenWatch.Json.Reader

/-!
The delays between attempts to connect again.
-/
namespace TokenWatch

/-- The delay grows from `initialMillis` by a factor for each attempt and stays within
`maxMillis`. -/
structure RetrySchedule where
  initialMillis : UInt64
  maxMillis : UInt64
  multiplier : UInt32
deriving DecidableEq

namespace RetrySchedule

def fixed : RetrySchedule := ⟨1000, 1000, 1⟩

def doubling (initialMillis maxMillis : UInt64) : RetrySchedule :=
  ⟨initialMillis, maxMillis, 2⟩

def factorLimit : Nat := UInt32.size - 1

/-- `base ^ n` up to the limit. From a base of two on the limit is passed at the latest at
`n = 32`, so greater powers are not computed. -/
def factor (base n : Nat) : Nat :=
  if base ≤ 1 then 1
  else if 32 ≤ n then factorLimit
  else min (Nat.pow base n) factorLimit

def base (p : RetrySchedule) : Nat := max p.multiplier.toNat 1

/-- The longest delay of all; a maximum below the initial delay is not heeded. -/
def cap (p : RetrySchedule) : Nat := max p.maxMillis.toNat p.initialMillis.toNat

/-- Milliseconds to wait after attempt `n`, counted from zero. -/
def delay (p : RetrySchedule) (n : UInt32) : Nat :=
  min (p.initialMillis.toNat * factor p.base n.toNat) p.cap

end RetrySchedule

namespace Json.Reader

def uint32 : Reader UInt32 := (natBelow UInt32.size).map UInt32.ofNat

def retrySchedule : Reader RetrySchedule := fun levels node => do
  let p ← parts ["initial_delay", "max_delay", "multiplier"] levels node
  let initial ← p.withDefault "initial_delay" RetrySchedule.fixed.initialMillis uint64
  let max ← p.withDefault "max_delay" RetrySchedule.fixed.maxMillis uint64
  let multiplier ← p.withDefault "multiplier" RetrySchedule.fixed.multiplier uint32
  return ⟨initial, max, multiplier⟩

end Json.Reader
end TokenWatch
