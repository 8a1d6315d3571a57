import TokenWatch.Event.TokenId
import TokenWatch.Proofs.Text.Numeral

/-!
Token identifiers are numbers: each number has one identifier, and reading a decimal text gives the
identifier of the number that it denotes.
-/
namespace TokenWatch.TokenId
open Text

variable {s : String} {t u : TokenId} {n : Nat} {cs : List Char}

/-- The text of an identifier is the decimal form of its number. -/
theorem toList_text (t : TokenId) : t.text.toList = Nat.toDigits 10 t.toNat :=
  t.canonical.eq_toDigits

/-- Identifiers are equal exactly if their numbers are. -/
theorem eq_iff_toNat_eq : t = u ↔ t.toNat = u.toNat := by
  constructor
  · intro h
    rw [h]
  · intro h
    have hdigits : t.text.toList = u.text.toList := by rw [toList_text, toList_text, h]
    have htext : t.text = u.text := String.toList_injective hdigits
    cases t
    cases u
    cases htext
    rfl

theorem toNat_ofDigits (h : Numeral.IsNumeral cs) : (ofDigits cs h).toNat = Numeral.value cs := by
  rw [toNat, ofDigits, String.toList_ofList, Numeral.value_dropZeros]

@[simp] theorem toNat_ofNat (n : Nat) : (ofNat n).toNat = n := by
  rw [ofNat, toNat_ofDigits, Numeral.value_toDigits]

@[simp] theorem ofNat_toNat (t : TokenId) : ofNat t.toNat = t :=
  eq_iff_toNat_eq.mpr (toNat_ofNat t.toNat)

theorem ofDigits_eq_ofNat (h : Numeral.IsNumeral cs) :
    ofDigits cs h = ofNat (Numeral.value cs) := by
  apply eq_iff_toNat_eq.mpr
  rw [toNat_ofDigits, toNat_ofNat]

theorem ofDecimal_of_isNumeral (h : Numeral.IsNumeral s.toList) :
    ofDecimal s = .ok (ofNat (Numeral.value s.toList)) := by
  rw [ofDecimal, if_neg h.1, dif_pos h, ofDigits_eq_ofNat]

/-- Exactly the numerals are read, each as the identifier of its number. -/
theorem ofDecimal_eq_ok_iff :
    ofDecimal s = .ok t ↔ Numeral.IsNumeral s.toList ∧ t = ofNat (Numeral.value s.toList) := by
  constructor
  · intro h
    by_cases hs : Numeral.IsNumeral s.toList
    · rw [ofDecimal_of_isNumeral hs] at h
      exact ⟨hs, (Except.ok.inj h).symm⟩
    · unfold ofDecimal at h
      split at h <;> cases h
  · rintro ⟨hs, rfl⟩
    exact ofDecimal_of_isNumeral hs

/-- An identifier is read as itself. -/
theorem ofDecimal_text (t : TokenId) : ofDecimal t.text = .ok t := by
  rw [ofDecimal_of_isNumeral t.canonical.1]
  exact congrArg Except.ok (ofNat_toNat t)

/-- The decimal form of a number is read as its identifier. -/
theorem ofDecimal_digits (n : Nat) :
    ofDecimal (String.ofList (Nat.toDigits 10 n)) = .ok (ofNat n) := by
  rw [ofDecimal_of_isNumeral, String.toList_ofList, Numeral.value_toDigits]
  rw [String.toList_ofList]
  exact Numeral.isNumeral_toDigits n

end TokenWatch.TokenId
