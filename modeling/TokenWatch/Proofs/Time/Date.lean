import Mathlib.Algebra.Ring.Nat
import TokenWatch.Time.Moment

/-!
Days and their numbers. A year has the days that the rule for leap years gives it, and the date of a
number is the one that has this number.
-/
namespace TokenWatch.Time

theorem sum_monthLengths (year : Nat) :
    (monthLengths year).sum = if isLeap year then 366 else 365 := by
  unfold monthLengths
  split <;> rfl

namespace Date

variable {lengths : List Nat} {year day number guess : Nat} {d : Date}

section Years

/-- One more year is counted where its number is a multiple. -/
theorem div_succ {k : Nat} (hk : 0 < k) (year : Nat) :
    (year + k) / k = (year + (k - 1)) / k + if year % k = 0 then 1 else 0 := by
  have hsucc : year + k = year + (k - 1) + 1 := by omega
  have hdvd : k ∣ year + (k - 1) + 1 ↔ year % k = 0 := by
    rw [← hsucc, Nat.dvd_iff_mod_eq_zero, Nat.add_mod_right]
  simp only [hsucc, Nat.succ_div, hdvd]

theorem daysBeforeYear_succ (year : Nat) :
    daysBeforeYear (year + 1) = daysBeforeYear year + (monthLengths year).sum := by
  have hfour := div_succ (k := 4) (by decide) year
  have hcentury := div_succ (k := 100) (by decide) year
  have hcycle := div_succ (k := 400) (by decide) year
  have hle : (year + 99) / 100 ≤ (year + 3) / 4 := by omega
  have hleap : isLeap year = true ↔ year % 4 = 0 ∧ (year % 100 ≠ 0 ∨ year % 400 = 0) := by
    simp [isLeap]
  have hcases : (year % 4 ≠ 0 ∧ year % 100 ≠ 0 ∧ year % 400 ≠ 0) ∨
      (year % 4 = 0 ∧ year % 100 ≠ 0 ∧ year % 400 ≠ 0) ∨
      (year % 4 = 0 ∧ year % 100 = 0 ∧ year % 400 ≠ 0) ∨
      (year % 4 = 0 ∧ year % 100 = 0 ∧ year % 400 = 0) := by omega
  rw [sum_monthLengths]
  unfold daysBeforeYear
  rw [Nat.add_assoc year 1 3, Nat.add_assoc year 1 99, Nat.add_assoc year 1 399, hfour, hcentury,
    hcycle]
  simp only [hleap]
  generalize (year + 3) / 4 = fours at *
  generalize (year + 99) / 100 = centuries at *
  generalize (year + 399) / 400 = cycles at *
  rcases hcases with ⟨h, h', h''⟩ | ⟨h, h', h''⟩ | ⟨h, h', h''⟩ | ⟨h, h', h''⟩
  all_goals
    simp only [h, h', h'', ne_eq, not_true, not_false_iff, true_and, false_and, or_true, or_false,
      if_true, if_false]
    omega

theorem daysBeforeYear_mono {earlier : Nat} (h : earlier ≤ year) :
    daysBeforeYear earlier ≤ daysBeforeYear year := by
  induction h with
  | refl => exact Nat.le_refl _
  | step _ ih =>
    rw [daysBeforeYear_succ]
    exact Nat.le_add_right_of_le ih

/-- The calendar repeats itself after four centuries. -/
theorem daysBeforeYear_cycles (cycles year : Nat) :
    daysBeforeYear (400 * cycles + year) = cycle * cycles + daysBeforeYear year := by
  unfold daysBeforeYear cycle
  omega

/-- A year has 366 days at most. -/
theorem daysBeforeYear_le (year : Nat) : daysBeforeYear year ≤ 366 * year := by
  unfold daysBeforeYear
  omega

/-- Within four centuries fewer days are missing to 366 a year than a year has. -/
theorem le_daysBeforeYear (h : guess < 400) :
    366 * (guess + 1) ≤ daysBeforeYear (guess + 1 + 1) := by
  unfold daysBeforeYear
  omega

/-- The days of a year in the calendar. -/
def YearOf (day year : Nat) : Prop := daysBeforeYear year ≤ day ∧ day < daysBeforeYear (year + 1)

theorem YearOf.unique {other : Nat} (h : YearOf day year) (h' : YearOf day other) :
    year = other := by
  have hle : ¬year + 1 ≤ other := fun hlt =>
    absurd (Nat.lt_of_lt_of_le h.2 (daysBeforeYear_mono hlt)) (Nat.not_lt.mpr h'.1)
  have hge : ¬other + 1 ≤ year := fun hlt =>
    absurd (Nat.lt_of_lt_of_le h'.2 (daysBeforeYear_mono hlt)) (Nat.not_lt.mpr h.1)
  omega

theorem yearOf_yearInCycle (h : day < cycle) : YearOf day (yearInCycle day) := by
  have hguess : day / 366 < 400 :=
    (Nat.div_lt_iff_lt_mul (by decide)).mpr (Nat.lt_trans h (by decide))
  have hlow := daysBeforeYear_le (day / 366)
  have hhigh := le_daysBeforeYear hguess
  unfold yearInCycle YearOf
  dsimp only
  split
  · rename_i hnext
    exact ⟨hnext, by omega⟩
  · rename_i hnext
    exact ⟨by omega, Nat.lt_of_not_le hnext⟩

theorem yearOf_yearOf (number : Nat) : YearOf number (yearOf number) := by
  have hday : number % cycle < cycle := Nat.mod_lt _ (by decide)
  obtain ⟨hlow, hhigh⟩ := yearOf_yearInCycle hday
  have hnumber := Nat.div_add_mod number cycle
  unfold YearOf yearOf
  rw [Nat.add_assoc, daysBeforeYear_cycles, daysBeforeYear_cycles]
  omega

end Years

section Months

/-- The months that fit are counted, and the days that remain lie in the month after them. -/
theorem splitMonths_spec (h : day < lengths.sum) :
    ∃ length, lengths[(splitMonths lengths day).1]? = some length ∧
      (splitMonths lengths day).2 < length ∧
      (lengths.take (splitMonths lengths day).1).sum + (splitMonths lengths day).2 = day := by
  induction lengths generalizing day with
  | nil => cases h
  | cons first rest ih =>
    unfold splitMonths
    split
    · rename_i hday
      exact ⟨first, rfl, hday, Nat.zero_add day⟩
    · rename_i hday
      rw [List.sum_cons] at h
      obtain ⟨length, hlength, hleft, hsum⟩ := ih (show day - first < rest.sum by omega)
      refine ⟨length, hlength, hleft, ?_⟩
      dsimp only
      rw [List.take_succ_cons, List.sum_cons]
      omega

/-- Whole months and the days after them are split again as they were put together. -/
theorem splitMonths_sum {months left length : Nat} (h : lengths[months]? = some length)
    (hleft : left < length) :
    splitMonths lengths ((lengths.take months).sum + left) = (months, left) := by
  induction lengths generalizing months with
  | nil => simp at h
  | cons first rest ih =>
    unfold splitMonths
    cases months with
    | zero =>
      obtain rfl : first = length := by simpa using h
      rw [List.take_zero, List.sum_nil, Nat.zero_add, if_pos hleft]
    | succ months =>
      have hlater : ¬first + (rest.take months).sum + left < first := by omega
      have hrest : first + (rest.take months).sum + left - first =
          (rest.take months).sum + left := by omega
      rw [List.take_succ_cons, List.sum_cons, if_neg hlater, hrest, ih h]

/-- Whole months and days of the month after them are less than all months. -/
theorem sum_take_add_lt {months left length : Nat} (h : lengths[months]? = some length)
    (hleft : left < length) : (lengths.take months).sum + left < lengths.sum := by
  obtain ⟨hlt, rfl⟩ := List.getElem?_eq_some_iff.mp h
  have hsum : lengths.sum = (lengths.take months).sum + (lengths.drop months).sum := by
    rw [← List.sum_append_nat, List.take_append_drop]
  rw [hsum, List.drop_eq_getElem_cons hlt, List.sum_cons]
  omega

theorem daysBeforeMonth_eq (year month : Nat) :
    daysBeforeMonth year month = ((monthLengths year).take (month - 1)).sum :=
  List.sum_eq_foldl_nat.symm

theorem getElem?_monthLengths (year month : Nat) (h : month - 1 < 12) :
    (monthLengths year)[month - 1]? = some (monthLength year month) := by
  have hlt : month - 1 < (monthLengths year).length := h
  rw [monthLength, List.getD_eq_getElem?_getD, List.getElem?_eq_getElem hlt, Option.getD_some]

end Months

section Numbers

theorem number_eq (d : Date) :
    d.number = daysBeforeYear d.year +
      (((monthLengths d.year).take (d.month - 1)).sum + (d.day - 1)) := by
  rw [number, daysBeforeMonth_eq, Nat.add_assoc]

/-- A day lies within its year. -/
theorem yearOf_number (d : Date) : YearOf d.number d.year := by
  obtain ⟨-, hfirst, hmonth, hday, hlast⟩ := d.isDate
  have hlength := getElem?_monthLengths d.year d.month (by omega)
  have hwithin := sum_take_add_lt hlength (show d.day - 1 < _ by omega)
  rw [YearOf, daysBeforeYear_succ, number_eq]
  omega

theorem ofNumber?_number (d : Date) : ofNumber? d.number = some d := by
  obtain ⟨-, hfirst, hmonth, hday, hlast⟩ := d.isDate
  have hyear : yearOf d.number = d.year := (yearOf_yearOf _).unique d.yearOf_number
  have hlength := getElem?_monthLengths d.year d.month (by omega)
  have hsplit := splitMonths_sum hlength (show d.day - 1 < _ by omega)
  have hleft : d.number - daysBeforeYear d.year =
      ((monthLengths d.year).take (d.month - 1)).sum + (d.day - 1) := by
    rw [number_eq, Nat.add_sub_cancel_left]
  simp only [ofNumber?, hyear, hleft, hsplit, Nat.sub_add_cancel hfirst, Nat.sub_add_cancel hday]
  exact dif_pos d.isDate

/-- The days of the years with four digits. -/
theorem exists_number_eq (h : number < daysBeforeYear 10000) : ∃ d : Date, d.number = number := by
  obtain ⟨hlow, hhigh⟩ := yearOf_yearOf number
  rw [daysBeforeYear_succ] at hhigh
  obtain ⟨length, hlength, hleft, hsum⟩ := splitMonths_spec
    (show number - daysBeforeYear (yearOf number) < (monthLengths (yearOf number)).sum by omega)
  generalize splitMonths (monthLengths (yearOf number))
    (number - daysBeforeYear (yearOf number)) = m at *
  have hmonth : m.1 < 12 := (List.getElem?_eq_some_iff.mp hlength).1
  have hdate : IsDate (yearOf number) (m.1 + 1) (m.2 + 1) := by
    refine ⟨?_, Nat.le_add_left 1 _, hmonth, Nat.le_add_left 1 _, ?_⟩
    · refine Nat.le_of_lt_succ (Nat.lt_of_not_le fun hlate => ?_)
      have hdays : daysBeforeYear 10000 ≤ daysBeforeYear (yearOf number) :=
        daysBeforeYear_mono hlate
      omega
    · have hmonthLength := getElem?_monthLengths (yearOf number) (m.1 + 1) hmonth
      rw [Nat.add_sub_cancel, hlength] at hmonthLength
      exact Option.some.inj hmonthLength ▸ hleft
  refine ⟨⟨yearOf number, m.1 + 1, m.2 + 1, hdate⟩, ?_⟩
  rw [number_eq]
  simp only [Nat.add_sub_cancel]
  omega

theorem number_lt (d : Date) : d.number < daysBeforeYear 10000 :=
  Nat.lt_of_lt_of_le d.yearOf_number.2 (daysBeforeYear_mono (Nat.succ_le_succ d.isDate.1))

/-- The date of a number is the one that has it. -/
theorem ofNumber?_eq_some_iff : ofNumber? number = some d ↔ d.number = number := by
  constructor
  · intro h
    have hyear : yearOf number ≤ 9999 := by
      simp only [ofNumber?] at h
      split at h
      · rename_i hdate
        exact hdate.1
      · cases h
    have hlt : number < daysBeforeYear 10000 :=
      Nat.lt_of_lt_of_le (yearOf_yearOf number).2 (daysBeforeYear_mono (Nat.succ_le_succ hyear))
    obtain ⟨e, rfl⟩ := exists_number_eq hlt
    rw [ofNumber?_number] at h
    exact congrArg Date.number (Option.some.inj h).symm
  · rintro rfl
    exact ofNumber?_number d

end Numbers

end Date
end TokenWatch.Time
