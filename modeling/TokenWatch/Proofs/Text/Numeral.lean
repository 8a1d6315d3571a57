import TokenWatch.Text.Numeral

/-!
Decimal numerals and the numbers that they denote: leading zeros do not count, and each number has
one canonical numeral.
-/
namespace TokenWatch.Text.Numeral

variable {cs : List Char} {n : Nat}

theorem value_toDigits (n : Nat) : value (Nat.toDigits 10 n) = n :=
  Nat.ofDigitChars_ten_toDigits

theorem ofDigitChars_dropWhile (cs : List Char) :
    Nat.ofDigitChars 10 (cs.dropWhile (· == '0')) 0 = Nat.ofDigitChars 10 cs 0 := by
  induction cs with
  | nil => rfl
  | cons c cs ih =>
    by_cases hc : c = '0'
    · subst hc
      rw [List.dropWhile_cons_of_pos (by decide), ih, Nat.ofDigitChars_cons]
      rfl
    · rw [List.dropWhile_cons_of_neg (by simpa using hc)]

theorem value_dropZeros (cs : List Char) : value (dropZeros cs) = value cs := by
  have hdrop := ofDigitChars_dropWhile cs
  unfold dropZeros
  split
  · rename_i hnil
    rw [hnil] at hdrop
    exact hdrop
  · exact hdrop

/-- A digit is the one that its value is written with. -/
theorem digitChar_toNat (h : c.isDigit = true) :
    c.toNat - '0'.toNat < 10 ∧ Nat.digitChar (c.toNat - '0'.toNat) = c := by
  have hrange : 48 ≤ c.toNat ∧ c.toNat ≤ 57 := by
    simpa [Char.isDigit, UInt32.le_iff_toNat_le] using h
  have hzero : '0'.toNat = 48 := rfl
  have hlt : c.toNat - '0'.toNat < 10 := by omega
  refine ⟨hlt, ?_⟩
  apply Char.toNat_inj.mp
  rw [Nat.toNat_digitChar_of_lt_ten hlt]
  omega

/-- Digits after those of a positive number are the digits of a number. -/
theorem toDigits_append (hn : 0 < n) (hcs : cs.all Char.isDigit = true) :
    Nat.toDigits 10 n ++ cs = Nat.toDigits 10 (Nat.ofDigitChars 10 cs n) := by
  induction cs generalizing n with
  | nil => exact List.append_nil _
  | cons c cs ih =>
    rw [List.all_cons, Bool.and_eq_true] at hcs
    obtain ⟨hlt, hdigit⟩ := digitChar_toNat hcs.1
    have hone : Nat.toDigits 10 (c.toNat - '0'.toNat) = [c] := by
      rw [Nat.toDigits_of_lt_base hlt, hdigit]
    have hjoin := Nat.toDigits_append_toDigits (b := 10) (by decide) hn hlt
    rw [hone] at hjoin
    rw [Nat.ofDigitChars_cons, ← ih (by omega) hcs.2, ← hjoin, List.append_assoc]
    rfl

/-- A canonical numeral is the decimal form of its number. -/
theorem IsCanonical.eq_toDigits (h : IsCanonical cs) : cs = Nat.toDigits 10 (value cs) := by
  obtain ⟨⟨hne, hdigits⟩, rfl | hhead⟩ := h
  · rfl
  · cases cs with
    | nil => exact absurd rfl hne
    | cons c cs =>
      rw [List.all_cons, Bool.and_eq_true] at hdigits
      obtain ⟨hlt, hdigit⟩ := digitChar_toNat hdigits.1
      have hpos : 0 < c.toNat - '0'.toNat := by
        rcases Nat.eq_zero_or_pos (c.toNat - '0'.toNat) with hzero | hpos
        · rw [hzero] at hdigit
          exact absurd (congrArg some hdigit.symm) hhead
        · exact hpos
      have hone : Nat.toDigits 10 (c.toNat - '0'.toNat) = [c] := by
        rw [Nat.toDigits_of_lt_base hlt, hdigit]
      have hall := toDigits_append hpos hdigits.2
      rw [hone] at hall
      rw [value, Nat.ofDigitChars_cons, Nat.mul_zero, Nat.zero_add]
      exact hall

theorem isCanonical_toDigits (n : Nat) : IsCanonical (Nat.toDigits 10 n) := by
  have hcanonical := isCanonical_dropZeros (isNumeral_toDigits n)
  have hvalue : value (dropZeros (Nat.toDigits 10 n)) = n := by
    rw [value_dropZeros, value_toDigits]
  have hdrop := hcanonical.eq_toDigits
  rw [hvalue] at hdrop
  rwa [hdrop] at hcanonical

end TokenWatch.Text.Numeral
