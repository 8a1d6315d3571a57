import Mathlib.Algebra.Ring.Nat
import TokenWatch.Retry

/-!
The delays of a schedule grow with each attempt, between the initial delay and the longest one, and
are exact as far as no limit of the arithmetic lies below the longest delay.
-/
namespace TokenWatch.RetrySchedule

variable {p : RetrySchedule} {base m n : Nat}

section Factor

/-- A power from a base of two on passes the limit at the thirty-second. -/
theorem two_pow_le (hbase : 2 ≤ base) (hn : 32 ≤ n) : 2 ^ 32 ≤ base ^ n :=
  calc 2 ^ 32 ≤ 2 ^ n := Nat.pow_le_pow_right (by decide) hn
    _ ≤ base ^ n := Nat.pow_le_pow_left hbase n

/-- Powers are cut at the limit, the shortcut for great ones included. -/
theorem factor_eq (h : 0 < base) (n : Nat) : factor base n = min (base ^ n) (2 ^ 32 - 1) := by
  unfold factor
  split
  · have hone : base = 1 := by omega
    rw [hone, Nat.one_pow]
    rfl
  · split
    · rename_i hbase hn
      have hpow : 2 ^ 32 ≤ base ^ n := two_pow_le (by omega) hn
      exact (Nat.min_eq_right (Nat.le_trans (by decide) hpow)).symm
    · rfl

theorem factor_of_lt (h : 0 < base) (whole : base ^ n < 2 ^ 32) : factor base n = base ^ n := by
  rw [factor_eq h]
  omega

theorem factor_of_le (h : 0 < base) (cut : 2 ^ 32 ≤ base ^ n) : factor base n = 2 ^ 32 - 1 := by
  rw [factor_eq h]
  omega

theorem factor_mono (h : 0 < base) (hmn : m ≤ n) : factor base m ≤ factor base n := by
  have hpow : base ^ m ≤ base ^ n := Nat.pow_le_pow_right h hmn
  rw [factor_eq h, factor_eq h]
  omega

theorem one_le_factor (h : 0 < base) (n : Nat) : 1 ≤ factor base n := by
  have hpow : 0 < base ^ n := Nat.pow_pos h
  rw [factor_eq h]
  omega

end Factor

theorem base_pos (p : RetrySchedule) : 0 < p.base := by
  unfold RetrySchedule.base
  omega

theorem initial_le_cap (p : RetrySchedule) : p.initialMillis.toNat ≤ p.cap :=
  Nat.le_max_right _ _

theorem cap_lt (p : RetrySchedule) : p.cap < 2 ^ 64 :=
  Nat.max_lt.mpr ⟨p.maxMillis.toNat_lt, p.initialMillis.toNat_lt⟩

/-- The longest time that can be written as whole seconds of 64 bits and nanoseconds. -/
def longestNanos : Nat := 1000000000 * (2 ^ 64 - 1) + 999999999

/-- The delay in exact arithmetic, with no limit but the longest delay. -/
def exactDelay (p : RetrySchedule) (n : UInt32) : Nat :=
  min (p.initialMillis.toNat * p.base ^ n.toNat) p.cap

/-- The limit of times does not show in a delay. -/
theorem delay_nanos (p : RetrySchedule) (n : UInt32) :
    1000000 * p.delay n =
      min (min (1000000 * p.initialMillis.toNat * min (p.base ^ n.toNat) (2 ^ 32 - 1)) longestNanos)
        (1000000 * p.cap) := by
  have hcap := p.cap_lt
  have hlongest : 1000000 * p.cap ≤ longestNanos := by
    unfold longestNanos
    omega
  rw [delay, factor_eq p.base_pos, Nat.mul_assoc]
  omega

theorem delay_mono {m n : UInt32} (h : m ≤ n) : p.delay m ≤ p.delay n := by
  have hfactor := factor_mono p.base_pos (UInt32.le_iff_toNat_le.mp h)
  have hproduct := Nat.mul_le_mul_left p.initialMillis.toNat hfactor
  unfold delay
  omega

theorem initial_le_delay (p : RetrySchedule) (n : UInt32) : p.initialMillis.toNat ≤ p.delay n := by
  have hproduct : p.initialMillis.toNat * 1 ≤ p.initialMillis.toNat * factor p.base n.toNat :=
    Nat.mul_le_mul_left _ (one_le_factor p.base_pos n.toNat)
  have hcap := p.initial_le_cap
  unfold delay
  omega

/-- Where a power is cut, the initial delay times the limit counts. -/
theorem delay_of_cut {n : UInt32} (cut : 2 ^ 32 ≤ p.base ^ n.toNat) :
    p.delay n = min (p.initialMillis.toNat * (2 ^ 32 - 1)) p.cap := by
  rw [delay, factor_of_le p.base_pos cut]

/-- A delay is exact if the power is not cut, or if the longest delay is reached even so. -/
theorem delay_eq_exactDelay_iff (p : RetrySchedule) (n : UInt32) :
    p.delay n = p.exactDelay n ↔ p.initialMillis.toNat = 0 ∨ p.base ^ n.toNat < 2 ^ 32 ∨
      p.cap ≤ p.initialMillis.toNat * (2 ^ 32 - 1) := by
  rcases Nat.eq_zero_or_pos p.initialMillis.toNat with hzero | hpos
  · rw [delay, exactDelay, hzero, Nat.zero_mul, Nat.zero_mul]
    exact iff_of_true rfl (.inl rfl)
  by_cases whole : p.base ^ n.toNat < 2 ^ 32
  · rw [delay, exactDelay, factor_of_lt p.base_pos whole]
    exact iff_of_true rfl (.inr (.inl whole))
  · have cut : 2 ^ 32 ≤ p.base ^ n.toNat := Nat.le_of_not_lt whole
    have hproduct : p.initialMillis.toNat * 2 ^ 32 ≤ p.initialMillis.toNat * p.base ^ n.toNat :=
      Nat.mul_le_mul_left _ cut
    have hlimit : 2 ^ 32 - 1 = 4294967295 := rfl
    rw [delay_of_cut cut, exactDelay, hlimit]
    omega

/-- From the thirty-second attempt on the longest delay is reached, if it can be at all. -/
theorem delay_eq_cap {n : UInt32} (grows : 2 ≤ p.base)
    (within : p.cap ≤ p.initialMillis.toNat * (2 ^ 32 - 1)) (late : 32 ≤ n) :
    p.delay n = p.cap := by
  have hn : 32 ≤ n.toNat := UInt32.le_iff_toNat_le.mp late
  rw [delay_of_cut (two_pow_le grows hn)]
  exact Nat.min_eq_right within

/-- The delays of any schedule, at any two attempts. They lie between the initial delay and the
longest one and do not fall; they are what multiplication and powers that are cut at the limits of
their types yield. A delay is the exact one if and only if the initial delay is zero, the power is
below the limit, or the initial delay times the largest factor reaches the longest delay; a schedule
that grows comes to that one after thirty-two attempts. -/
theorem delays_exact_bounded_rising (p : RetrySchedule) (m n : UInt32) :
    (p.initialMillis.toNat ≤ p.delay n ∧ p.delay n ≤ p.cap) ∧
    (m ≤ n → p.delay m ≤ p.delay n) ∧
    1000000 * p.delay n =
      min (min (1000000 * p.initialMillis.toNat * min (p.base ^ n.toNat) (2 ^ 32 - 1)) longestNanos)
        (1000000 * p.cap) ∧
    (p.delay n = p.exactDelay n ↔
      p.initialMillis.toNat = 0 ∨ p.base ^ n.toNat < 2 ^ 32 ∨
        p.cap ≤ p.initialMillis.toNat * (2 ^ 32 - 1)) ∧
    (2 ≤ p.base → p.cap ≤ p.initialMillis.toNat * (2 ^ 32 - 1) → 32 ≤ n → p.delay n = p.cap) :=
  ⟨⟨p.initial_le_delay n, Nat.min_le_right _ _⟩, delay_mono, p.delay_nanos n,
    p.delay_eq_exactDelay_iff n, delay_eq_cap⟩

/-- Half a second doubles up to eight seconds. With no such maximum in reach the factor stays at its
limit, and the delay is not the exact one. -/
theorem delays_exact_bounded_rising_doubling :
    (doubling 500 8000).delay 3 = 4000 ∧ (doubling 500 8000).delay 40 = 8000 ∧
    (doubling 1 9000000000).delay 40 ≠ (doubling 1 9000000000).exactDelay 40 := by
  obtain ⟨-, -, -, exact, -⟩ := delays_exact_bounded_rising (doubling 500 8000) 0 3
  obtain ⟨-, -, -, -, late⟩ := delays_exact_bounded_rising (doubling 500 8000) 0 40
  obtain ⟨-, -, -, cut, -⟩ := delays_exact_bounded_rising (doubling 1 9000000000) 0 40
  have hcut : ¬(1 = 0 ∨ 2 ^ 40 < 2 ^ 32 ∨ 9000000000 ≤ 1 * (2 ^ 32 - 1)) := by decide
  have hexact : (doubling 500 8000).exactDelay 3 = 4000 := rfl
  exact ⟨(exact.mpr (.inr (.inl (by decide)))).trans hexact,
    late (by decide) (by decide) (by decide), fun h => hcut (cut.mp h)⟩

end TokenWatch.RetrySchedule
