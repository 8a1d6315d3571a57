import TokenWatch.Checkpoint
import TokenWatch.Proofs.Text.Blank

/-!
The watermark as a maximum, and levels written to the store and read back.
-/
namespace TokenWatch

/-- A level below another one has a next level. -/
theorem toNat_level_add_one {level head : UInt64} (h : level < head) :
    (level + 1).toNat = level.toNat + 1 := by
  have hlt := UInt64.lt_iff_toNat_lt.mp h
  have hhead := head.toNat_lt
  rw [UInt64.toNat_add, UInt64.toNat_one]
  omega

namespace Watermark

variable {w : Watermark} {level : UInt64}

theorem seed_of_lt (h : w.current < level) : w.seed level = ⟨level⟩ := by
  have hle : w.current ≤ level := UInt64.le_of_lt h
  exact congrArg Watermark.mk (if_pos hle)

theorem seed_of_not_lt (h : ¬w.current < level) : w.seed level = w := by
  have hle : level ≤ w.current := UInt64.not_lt.mp h
  by_cases heq : w.current ≤ level
  · have : level = w.current := UInt64.le_antisymm hle heq
    exact congrArg Watermark.mk ((if_pos heq).trans this)
  · exact congrArg Watermark.mk (if_neg heq)

theorem toNat_seed (w : Watermark) (level : UInt64) :
    (w.seed level).current.toNat = max w.current.toNat level.toNat := by
  by_cases h : w.current < level
  · rw [seed_of_lt h, Nat.max_eq_right (Nat.le_of_lt (UInt64.lt_iff_toNat_lt.mp h))]
  · rw [seed_of_not_lt h, Nat.max_eq_left (UInt64.le_iff_toNat_le.mp (UInt64.not_lt.mp h))]

theorem le_seed (w : Watermark) (level : UInt64) : w.current ≤ (w.seed level).current := by
  rw [UInt64.le_iff_toNat_le, toNat_seed]
  exact Nat.le_max_left _ _

theorem self_le_seed (w : Watermark) (level : UInt64) : level ≤ (w.seed level).current := by
  rw [UInt64.le_iff_toNat_le, toNat_seed]
  exact Nat.le_max_right _ _

theorem raise_of_lt (h : w.current < level) : w.raise level = (⟨level⟩, true) := by
  simp [raise, seed_of_lt h, h]

theorem raise_of_not_lt (h : ¬w.current < level) : w.raise level = (w, false) := by
  simp [raise, seed_of_not_lt h, h]

theorem seed_fresh (level : UInt64) : fresh.seed level = ⟨level⟩ :=
  congrArg Watermark.mk (if_pos (UInt64.le_iff_toNat_le.mpr (Nat.zero_le _)))

/-- A fresh watermark takes up exactly the level that the store answers with. -/
theorem load_fresh {text : String} (h : Checkpoint.ofText? text = some level) :
    fresh.load (some (some text)) = (⟨level⟩, some level) := by
  simp [load, h, seed_fresh]

end Watermark

namespace Text

theorem isBlank_of_isDigit {c : Char} (h : c.isDigit = true) : isBlank c = false := by
  simp only [Char.isDigit, Bool.and_eq_true, decide_eq_true_eq, ge_iff_le] at h
  have hn : 48 ≤ c.toNat ∧ c.toNat ≤ 57 := h
  simp only [isBlank, Bool.or_eq_false_iff, Bool.and_eq_false_iff, decide_eq_false_iff_not,
    beq_eq_false_iff_ne]
  omega

/-- A numeral has no sign, so all of it is read. -/
theorem Numeral.not_isNumeral_plus (cs : List Char) : ¬IsNumeral ('+' :: cs) := by
  intro h
  have hplus := List.all_eq_true.mp h.2 '+' (by simp)
  exact absurd hplus (by decide)

theorem Numeral.readUnsigned?_of_isNumeral {cs : List Char} (h : IsNumeral cs) :
    readUnsigned? cs = if value cs < UInt64.size then some (.ofNat (value cs)) else none := by
  have hread : read? cs = some (value cs) := if_pos h
  unfold readUnsigned?
  split
  · exact absurd h (not_isNumeral_plus _)
  · simp [hread]

namespace Numeral

variable {cs : List Char}

/-- ASCII digits, with or without a plus sign, of a number below `2 ^ 64`. -/
def IsUnsigned (cs : List Char) : Prop :=
  ∃ digits, (cs = digits ∨ cs = '+' :: digits) ∧ IsNumeral digits ∧ value digits < UInt64.size

theorem readUnsigned?_plus (cs : List Char) :
    readUnsigned? ('+' :: cs) = if IsNumeral cs then
      if value cs < UInt64.size then some (.ofNat (value cs)) else none else none := by
  by_cases h : IsNumeral cs <;> simp [readUnsigned?, read?, h]

theorem readUnsigned?_of_not_isNumeral (h : ¬IsNumeral cs) (hplus : ∀ rest, cs ≠ '+' :: rest) :
    readUnsigned? cs = none := by
  unfold readUnsigned?
  split
  · exact absurd rfl (hplus _)
  · simp [read?, h]

theorem readUnsigned?_eq_none_iff : readUnsigned? cs = none ↔ ¬IsUnsigned cs := by
  constructor
  · rintro h ⟨digits, rfl | rfl, hdigits, hvalue⟩
    · rw [readUnsigned?_of_isNumeral hdigits, if_pos hvalue] at h
      cases h
    · rw [readUnsigned?_plus, if_pos hdigits, if_pos hvalue] at h
      cases h
  · intro h
    by_cases hplus : ∃ rest, cs = '+' :: rest
    · obtain ⟨rest, rfl⟩ := hplus
      rw [readUnsigned?_plus]
      split
      · rename_i hrest
        exact if_neg fun hvalue => h ⟨rest, .inr rfl, hrest, hvalue⟩
      · rfl
    · by_cases hdigits : IsNumeral cs
      · rw [readUnsigned?_of_isNumeral hdigits]
        exact if_neg fun hvalue => h ⟨cs, .inl rfl, hdigits, hvalue⟩
      · exact readUnsigned?_of_not_isNumeral hdigits fun rest heq => hplus ⟨rest, heq⟩

end Numeral
end Text

namespace Checkpoint
open Text

/-- A level that was written is read back. -/
theorem ofText?_toText (level : UInt64) : ofText? (toText level) = some level := by
  have hnumeral := Numeral.isNumeral_toDigits level.toNat
  have htrim : trim (Nat.toDigits 10 level.toNat) = Nat.toDigits 10 level.toNat :=
    trim_of_isTrimmed (isTrimmed_of_forall fun c hc =>
      isBlank_of_isDigit (List.all_eq_true.mp hnumeral.2 c hc))
  have hvalue : Numeral.value (Nat.toDigits 10 level.toNat) = level.toNat := by
    simp [Numeral.value]
  unfold ofText? toText
  rw [String.toList_ofList, htrim, Numeral.readUnsigned?_of_isNumeral hnumeral, hvalue,
    if_pos level.toNat_lt, UInt64.ofNat_toNat]

end Checkpoint
end TokenWatch
