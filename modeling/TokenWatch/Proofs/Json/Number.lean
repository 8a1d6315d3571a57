import Mathlib.Data.List.TakeWhile
import TokenWatch.Json.Node
import TokenWatch.Proofs.Text.Numeral

/-!
Whole numbers are read back from the digits that they are written with.
-/
namespace TokenWatch.Json
open Text

namespace Integer

variable {n : Integer}

theorem toText_of_neg (h : n.value < 0) : n.toText = '-' :: Nat.toDigits 10 n.value.natAbs :=
  if_pos h

theorem toText_of_nonneg (h : ¬n.value < 0) : n.toText = Nat.toDigits 10 n.value.natAbs :=
  if_neg h

theorem toText_ofUInt64 (n : UInt64) : (ofUInt64 n).toText = Nat.toDigits 10 n.toNat :=
  toText_of_nonneg (Int.not_lt.mpr (Int.natCast_nonneg n.toNat))

theorem ofInt?_value (n : Integer) : ofInt? n.value = some n := by
  rw [ofInt?, dif_pos ⟨n.low, n.high⟩]

end Integer

namespace Number.Written

theorem takeWhile_toDigits (n : Nat) :
    (Nat.toDigits 10 n).takeWhile Char.isDigit = Nat.toDigits 10 n := by
  apply List.takeWhile_eq_self_iff.mpr
  exact List.all_eq_true.mp (Numeral.isNumeral_toDigits n).2

theorem dropWhile_toDigits (n : Nat) : (Nat.toDigits 10 n).dropWhile Char.isDigit = [] := by
  apply List.dropWhile_eq_nil_iff.mpr
  exact List.all_eq_true.mp (Numeral.isNumeral_toDigits n).2

theorem toDigits_ne_cons (n : Nat) (rest : List Char) : Nat.toDigits 10 n ≠ '-' :: rest := by
  intro h
  have hdigits := (Numeral.isNumeral_toDigits n).2
  rw [h] at hdigits
  cases hdigits

/-- A sign and digits are a number without point and exponent. -/
theorem read?_toText (n : Integer) :
    read? n.toText =
      some ⟨decide (n.value < 0), Nat.toDigits 10 n.value.natAbs, none, none⟩ := by
  have hcanonical := Numeral.isCanonical_toDigits n.value.natAbs
  by_cases hsign : n.value < 0
  · rw [Integer.toText_of_neg hsign, decide_eq_true hsign]
    simp only [read?, takeWhile_toDigits, dropWhile_toDigits, if_pos hcanonical, readFraction?,
      readExponent?, Option.map_some]
  · rw [Integer.toText_of_nonneg hsign, decide_eq_false hsign]
    unfold read?
    split
    rename_i negative rest heq
    split at heq
    · rename_i digits hdigits
      exact absurd hdigits (toDigits_ne_cons _ _)
    · cases heq
      simp only [takeWhile_toDigits, dropWhile_toDigits, if_pos hcanonical, readFraction?,
        readExponent?, Option.map_some]

/-- The number of a whole number is itself; none is negative zero. -/
theorem toNumber?_digits (n : Integer) :
    toNumber? ⟨decide (n.value < 0), Nat.toDigits 10 n.value.natAbs, none, none⟩ =
      some (.whole n) := by
  by_cases hsign : n.value < 0
  · have hne : n.value.natAbs ≠ 0 := by omega
    have habs : -(n.value.natAbs : Int) = n.value := by omega
    simp only [toNumber?, hsign, decide_true, if_true, Numeral.value_toDigits, if_neg hne, habs,
      Integer.ofInt?_value]
  · have habs : (n.value.natAbs : Int) = n.value := by omega
    simp only [toNumber?, hsign, decide_false, Bool.false_eq_true, if_false,
      Numeral.value_toDigits, habs, Integer.ofInt?_value]

end Number.Written

/-- The first character of a number tells it from the literal names. -/
theorem Node.ofWord?_toText (n : Integer) :
    Node.ofWord? n.toText = some (.number (some (.whole n))) := by
  have hhead : ∀ c cs, n.toText = c :: cs → c = '-' ∨ c.isDigit = true := by
    intro c cs h
    by_cases hsign : n.value < 0
    · rw [Integer.toText_of_neg hsign] at h
      exact .inl (List.cons.inj h).1.symm
    · rw [Integer.toText_of_nonneg hsign] at h
      have hdigits := (Numeral.isNumeral_toDigits n.value.natAbs).2
      rw [h, List.all_cons, Bool.and_eq_true] at hdigits
      exact .inr hdigits.1
  have hname : ∀ c cs, c.isDigit = false → c ≠ '-' → n.toText ≠ c :: cs := by
    intro c cs hdigit hminus h
    rcases hhead c cs h with rfl | hc
    · exact hminus rfl
    · rw [hc] at hdigit
      cases hdigit
  have hnull : n.toText ≠ "null".toList := hname 'n' _ (by decide) (by decide)
  have htrue : n.toText ≠ "true".toList := hname 't' _ (by decide) (by decide)
  have hfalse : n.toText ≠ "false".toList := hname 'f' _ (by decide) (by decide)
  rw [Node.ofWord?, if_neg hnull, if_neg htrue, if_neg hfalse, Number.Written.read?_toText,
    Option.map_some, Number.Written.toNumber?_digits]

/-- A number is written in one piece. -/
theorem Integer.isWord_toText (n : Integer) :
    n.toText ≠ [] ∧ n.toText.all Token.isWordPart = true := by
  have hdigits : (Nat.toDigits 10 n.value.natAbs).all Token.isWordPart = true := by
    apply List.all_eq_true.mpr
    intro c hc
    have hdigit := List.all_eq_true.mp (Numeral.isNumeral_toDigits n.value.natAbs).2 c hc
    simp [Token.isWordPart, Char.isAlphanum, hdigit]
  by_cases hsign : n.value < 0
  · rw [toText_of_neg hsign, List.all_cons, hdigits]
    exact ⟨List.cons_ne_nil _ _, rfl⟩
  · rw [toText_of_nonneg hsign]
    exact ⟨(Numeral.isNumeral_toDigits _).1, hdigits⟩

end TokenWatch.Json
