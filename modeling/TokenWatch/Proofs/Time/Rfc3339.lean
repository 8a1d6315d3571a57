import Mathlib.Algebra.Group.Nat.Defs
import TokenWatch.Time.Rfc3339

/-!
A moment that was written in RFC 3339 form is read back as the same moment, with the same offset.
-/
namespace TokenWatch.Time

theorem monthLength_le (year month : Nat) : monthLength year month ≤ 31 := by
  have hall : ∀ length ∈ monthLengths year, length ≤ 31 := by
    unfold monthLengths
    split <;> decide
  unfold monthLength
  rw [List.getD_eq_getElem?_getD]
  cases h : (monthLengths year)[month - 1]? with
  | none => exact Nat.zero_le _
  | some length => exact hall length (List.mem_of_getElem? h)

namespace Rfc3339
open Text

variable {n width : Nat} {offset : Int} {rest : List Char}

section Digits

@[simp] theorem length_digits (width n : Nat) : (digits width n).length = width := by
  induction width generalizing n with
  | zero => rfl
  | succ width ih => simp [digits, ih]

theorem isDigit_of_mem_digits {c : Char} (h : c ∈ digits width n) : c.isDigit = true := by
  induction width generalizing n with
  | zero => cases h
  | succ width ih =>
    rcases List.mem_append.mp h with h | h
    · exact ih h
    · rw [List.mem_singleton.mp h, Nat.isDigit_digitChar]
      exact decide_eq_true (Nat.mod_lt n (by decide))

theorem toNat_digitChar {d : Nat} (h : d < 10) : (Nat.digitChar d).toNat - '0'.toNat = d := by
  have hall : ∀ d < 10, (Nat.digitChar d).toNat - '0'.toNat = d := by decide
  exact hall d h

theorem value_digits (width n : Nat) : Numeral.value (digits width n) = n % 10 ^ width := by
  induction width generalizing n with
  | zero => exact (Nat.mod_one n).symm
  | succ width ih =>
    have hdigits : Nat.ofDigitChars 10 (digits width (n / 10)) 0 = n / 10 % 10 ^ width :=
      ih (n / 10)
    rw [Numeral.value, digits, Nat.ofDigitChars_append, hdigits, Nat.ofDigitChars_cons,
      toNat_digitChar (Nat.mod_lt n (by decide)), Nat.pow_succ', Nat.mod_mul]
    exact Nat.add_comm _ _

theorem readDigits?_digits (h : n < 10 ^ width) (rest : List Char) :
    readDigits? width (digits width n ++ rest) = some (n, rest) := by
  have htake : (digits width n ++ rest).take width = digits width n :=
    List.take_left' (length_digits width n)
  have hdrop : (digits width n ++ rest).drop width = rest :=
    List.drop_left' (length_digits width n)
  have hdigit : (digits width n).all Char.isDigit = true :=
    List.all_eq_true.mpr fun c hc => isDigit_of_mem_digits hc
  simp [readDigits?, htake, hdrop, hdigit, value_digits, Nat.mod_eq_of_lt h]

end Digits

section Fraction

/-- The digits of a fraction are those of its nanoseconds without the zeros at the end. -/
theorem digits_eq_append_replicate (width n : Nat) :
    ∃ zeros, digits width n =
      ((digits width n).reverse.dropWhile (· == '0')).reverse ++ List.replicate zeros '0' := by
  refine ⟨((digits width n).reverse.takeWhile (· == '0')).length, ?_⟩
  have hzeros : (digits width n).reverse.takeWhile (· == '0') =
      List.replicate ((digits width n).reverse.takeWhile (· == '0')).length '0' := by
    apply List.eq_replicate_of_mem
    intro c hc
    simpa using List.all_eq_true.mp List.all_takeWhile c hc
  rw [← List.reverse_replicate, ← hzeros, ← List.reverse_append, List.takeWhile_append_dropWhile,
    List.reverse_reverse]

/-- What follows a fraction neither goes on with it nor starts one. -/
def Ends (rest : List Char) : Prop := ∀ c ∈ rest.head?, c.isDigit = false ∧ c ≠ '.'

theorem ends_cons {c : Char} (hdigit : c.isDigit = false) (hdot : c ≠ '.') : Ends (c :: rest) := by
  intro d hd
  cases hd
  exact ⟨hdigit, hdot⟩

theorem Ends.takeWhile_eq_nil (h : Ends rest) : rest.takeWhile Char.isDigit = [] := by
  cases rest with
  | nil => rfl
  | cons c rest => simp [(h c rfl).1]

theorem Ends.dropWhile_eq_self (h : Ends rest) : rest.dropWhile Char.isDigit = rest := by
  cases rest with
  | nil => rfl
  | cons c rest => simp [(h c rfl).1]

theorem readFraction?_of_ends (h : Ends rest) : readFraction? rest = some (0, rest) := by
  unfold readFraction?
  split
  · exact absurd rfl (h '.' rfl).2
  · rfl

theorem readFraction?_fraction (h : n < 10 ^ 9) (ends : Ends rest) :
    readFraction? (fraction n ++ rest) = some (n, rest) := by
  by_cases hn : n = 0
  · subst hn
    exact readFraction?_of_ends ends
  · obtain ⟨zeros, hdigits⟩ := digits_eq_append_replicate 9 n
    generalize hkept : ((digits 9 n).reverse.dropWhile (· == '0')).reverse = kept at hdigits
    have hvalue : Numeral.value (kept ++ List.replicate zeros '0') = n := by
      rw [← hdigits, value_digits, Nat.mod_eq_of_lt h]
    have hlength : kept.length + zeros = 9 := by
      have := congrArg List.length hdigits
      simpa using this.symm
    have hkeptDigit : ∀ c ∈ kept, c.isDigit = true := by
      intro c hc
      have hmem : c ∈ digits 9 n := hdigits ▸ List.mem_append_left _ hc
      exact isDigit_of_mem_digits hmem
    have hkeptNe : kept ≠ [] := by
      rintro rfl
      have hzeros : zeros = 9 := by simpa using hlength
      subst hzeros
      exact hn (hvalue.symm.trans rfl)
    have htake : (kept ++ rest).takeWhile Char.isDigit = kept := by
      rw [List.takeWhile_append_of_pos hkeptDigit, ends.takeWhile_eq_nil, List.append_nil]
    have hdrop : (kept ++ rest).dropWhile Char.isDigit = rest := by
      rw [List.dropWhile_append_of_pos hkeptDigit, ends.dropWhile_eq_self]
    have hfraction : fraction n = '.' :: kept := by
      rw [fraction, if_neg hn, hkept]
    have hzeros : 9 - kept.length = zeros := by omega
    rw [hfraction, List.cons_append]
    simp only [readFraction?, htake, hdrop, if_neg hkeptNe]
    rw [List.take_of_length_le (by omega), hzeros, hvalue]

end Fraction

section Zone

/-- Hours and minutes after a sign. -/
theorem readOffset?_digits {hours minutes : Nat} {sign : Char} (hsign : sign = '+' ∨ sign = '-')
    (hhours : hours < 24) (hminutes : minutes < 60) :
    readOffset? (sign :: (digits 2 hours ++ ':' :: digits 2 minutes)) =
      some (if sign = '-' then -(60 * hours + minutes : Int) else 60 * hours + minutes) := by
  have hread : readDigits? 2 (digits 2 minutes) = some (minutes, []) := by
    have := readDigits?_digits (show minutes < 10 ^ 2 by omega) []
    rwa [List.append_nil] at this
  have hread' := readDigits?_digits (show hours < 10 ^ 2 by omega) (':' :: digits 2 minutes)
  unfold readOffset?
  split
  · rcases hsign with hsign | hsign <;> simp_all
  · rcases hsign with hsign | hsign <;> simp_all
  · rename_i heq
    obtain ⟨rfl, rfl⟩ := List.cons.inj heq
    simp [hsign, hread, hread', readMark?, hhours, hminutes]
  · rename_i heq
    cases heq

theorem readOffset?_zone (h : offset.natAbs < 1440) : readOffset? (zone offset) = some offset := by
  by_cases hzero : offset = 0
  · subst hzero
    rfl
  · have hhours : offset.natAbs / 60 < 24 := by omega
    have hminutes : offset.natAbs % 60 < 60 := Nat.mod_lt _ (by decide)
    rw [zone, if_neg hzero]
    by_cases hneg : offset < 0
    · rw [if_pos hneg, readOffset?_digits (.inr rfl) hhours hminutes, if_pos rfl]
      congr 1
      omega
    · rw [if_neg hneg, readOffset?_digits (.inl rfl) hhours hminutes, if_neg (by decide)]
      congr 1
      omega

theorem ends_zone (offset : Int) : Ends (zone offset) := by
  unfold zone
  split
  · exact ends_cons rfl (by decide)
  · split
    · exact ends_cons rfl (by decide)
    · exact ends_cons rfl (by decide)

end Zone

theorem build?_fields (m : Moment) :
    build? m.date.year m.date.month m.date.day m.clock.hour m.clock.minute m.clock.second
      m.clock.nanosecond m.offset = some m := by
  have hsecond : m.clock.second ≠ 60 := Nat.ne_of_lt m.clock.isClock.2.2.1
  rw [build?, dif_pos m.date.isDate, dif_pos m.offset_lt, if_neg hsecond, dif_pos m.clock.isClock]

theorem parse?_format (m : Moment) : parse? (format m) = some m := by
  obtain ⟨hyear, -, hmonth, -, hday⟩ := m.date.isDate
  obtain ⟨hhour, hminute, hsecond, hnanosecond⟩ := m.clock.isClock
  have hlength := monthLength_le m.date.year m.date.month
  have year := readDigits?_digits (show m.date.year < 10 ^ 4 by omega)
  have month := readDigits?_digits (show m.date.month < 10 ^ 2 by omega)
  have day := readDigits?_digits (show m.date.day < 10 ^ 2 by omega)
  have hour := readDigits?_digits (show m.clock.hour < 10 ^ 2 by omega)
  have minute := readDigits?_digits (show m.clock.minute < 10 ^ 2 by omega)
  have second := readDigits?_digits (show m.clock.second < 10 ^ 2 by omega)
  have fraction := readFraction?_fraction (show m.clock.nanosecond < 10 ^ 9 by omega)
    (ends_zone m.offset)
  have separator : ('T' : Char).toNat < 0x80 := by decide
  simp only [parse?, format, List.append_assoc, List.cons_append, year, month, day, hour, minute,
    second, fraction, readOffset?_zone m.offset_lt, readMark?, readSeparator?, separator, if_true,
    Option.bind_eq_bind, Option.bind_some, build?_fields]

section Characters

def IsStampPart (c : Char) : Prop := c.isDigit = true ∨ c ∈ ['-', 'T', ':', '.', 'Z', '+']

theorem stampParts_digits (width n : Nat) : ∀ c ∈ digits width n, IsStampPart c := fun _ hc =>
  .inl (isDigit_of_mem_digits hc)

theorem stampParts_fraction (n : Nat) : ∀ c ∈ fraction n, IsStampPart c := by
  intro c hc
  unfold fraction at hc
  split at hc
  · cases hc
  · rcases List.mem_cons.mp hc with rfl | hc
    · exact .inr (by decide)
    · have hmem := (List.dropWhile_sublist _).subset (List.mem_reverse.mp hc)
      exact stampParts_digits 9 n c (List.mem_reverse.mp hmem)

theorem stampParts_zone (offset : Int) : ∀ c ∈ zone offset, IsStampPart c := by
  unfold zone
  split
  · exact List.forall_mem_singleton.mpr (.inr (by decide))
  · simp only [List.forall_mem_append, List.forall_mem_cons]
    refine ⟨.inr ?_, stampParts_digits 2 _, .inr (by decide), stampParts_digits 2 _⟩
    split <;> decide

theorem stampParts_format (m : Moment) : ∀ c ∈ format m, IsStampPart c := by
  have hmarks : IsStampPart '-' ∧ IsStampPart 'T' ∧ IsStampPart ':' :=
    ⟨.inr (by decide), .inr (by decide), .inr (by decide)⟩
  simp only [format, List.forall_mem_append, List.forall_mem_cons, hmarks, true_and, and_assoc]
  exact ⟨stampParts_digits 4 _, stampParts_digits 2 _, stampParts_digits 2 _,
    stampParts_digits 2 _, stampParts_digits 2 _, stampParts_digits 2 _, stampParts_fraction _,
    stampParts_zone _⟩

/-- The text of a moment starts with the first digit of its year. -/
theorem exists_format_eq_cons (m : Moment) :
    ∃ c rest, format m = c :: rest ∧ c.isDigit = true := by
  obtain ⟨c, rest, hyear⟩ := List.exists_cons_of_length_eq_add_one (length_digits 4 m.date.year)
  have hmem : c ∈ digits 4 m.date.year := hyear ▸ List.mem_cons_self
  rw [format, hyear]
  exact ⟨c, _, rfl, isDigit_of_mem_digits hmem⟩

end Characters
end Rfc3339

namespace Moment

/-- A moment that was written is read back. -/
theorem ofText?_toText (m : Moment) : ofText? m.toText = some m := by
  rw [ofText?, toText, String.toList_ofList, Rfc3339.parse?_format]

end Moment
end TokenWatch.Time
