import Mathlib.Data.Nat.Digits.Defs
import TokenWatch.Text.Numeral

/-!
Hexadecimal numerals: digits of either case, the number that they spell, and the digits of a number
of fixed width.
-/
namespace TokenWatch.Text.Hex

variable {cs : List Char} {c : Char} {n count : Nat}

def alphabet : List Char := "0123456789abcdef".toList

def IsNumeral (cs : List Char) : Prop := ∀ c ∈ cs, c.toLower ∈ alphabet

def number (cs : List Char) : Nat :=
  Nat.ofDigits 16 (cs.reverse.map fun c => alphabet.idxOf c.toLower)

theorem number_cons (c : Char) (cs : List Char) :
    number (c :: cs) = number cs + 16 ^ cs.length * alphabet.idxOf c.toLower := by
  simp [number, Nat.ofDigits_append]

theorem toLower_of_not_ascii (h : 128 ≤ c.toNat) : c.toLower = c := by
  unfold Char.toLower
  rw [dif_neg]
  intro hupper
  have hle : c.toNat ≤ 90 := UInt32.le_iff_toNat_le.mp hupper.2
  omega

theorem digitValue?_eq (c : Char) :
    digitValue? c = if c.toLower ∈ alphabet then some (alphabet.idxOf c.toLower) else none := by
  by_cases hascii : c.toNat < 128
  · have hall : ∀ n < 128, digitValue? (Char.ofNat n) =
        if (Char.ofNat n).toLower ∈ alphabet then some (alphabet.idxOf (Char.ofNat n).toLower)
        else none := by decide +kernel
    simpa only [Char.ofNat_toNat] using hall c.toNat hascii
  · have hle : ∀ d : Char, d.toNat < 128 → ¬c ≤ d := by
      intro d hd hcd
      have : c.toNat ≤ d.toNat := UInt32.le_iff_toNat_le.mp hcd
      omega
    have hmem : c ∉ alphabet := by
      intro hc
      have hsmall : alphabet.all (fun d => d.toNat < 128) = true := by decide
      exact hascii (of_decide_eq_true (List.all_eq_true.mp hsmall c hc))
    rw [toLower_of_not_ascii (Nat.not_lt.mp hascii), if_neg hmem]
    simp [digitValue?, hle '9' (by decide), hle 'f' (by decide), hle 'F' (by decide)]

/-- Digits add to a number that was read before them. -/
theorem foldlM_digits (acc : Nat) (h : IsNumeral cs) :
    cs.foldlM (fun n c => (digitValue? c).map (16 * n + ·)) acc =
      some (16 ^ cs.length * acc + number cs) := by
  induction cs generalizing acc with
  | nil => simp [number]
  | cons c cs ih =>
    obtain ⟨hc, hcs⟩ := List.forall_mem_cons.mp h
    rw [List.foldlM_cons, digitValue?_eq, if_pos hc, Option.map_some, Option.bind_eq_bind,
      Option.bind_some, ih _ hcs, number_cons, List.length_cons, Nat.pow_succ]
    congr 1
    ring

theorem isNumeral_of_foldlM {acc : Nat}
    (h : cs.foldlM (fun n c => (digitValue? c).map (16 * n + ·)) acc = some n) : IsNumeral cs := by
  induction cs generalizing acc with
  | nil => exact List.forall_mem_nil _
  | cons c cs ih =>
    rw [List.foldlM_cons] at h
    obtain ⟨next, hnext, hrest⟩ := Option.bind_eq_some_iff.mp h
    refine List.forall_mem_cons.mpr ⟨?_, ih hrest⟩
    by_contra hc
    rw [digitValue?_eq, if_neg hc] at hnext
    cases hnext

/-- A text has a value exactly if it is a numeral. -/
theorem value?_eq_some_iff : value? cs = some n ↔ IsNumeral cs ∧ number cs = n := by
  constructor
  · intro h
    have hcs : IsNumeral cs := isNumeral_of_foldlM h
    refine ⟨hcs, ?_⟩
    rw [value?, foldlM_digits 0 hcs, Nat.mul_zero, Nat.zero_add] at h
    exact Option.some.inj h
  · rintro ⟨hcs, rfl⟩
    rw [value?, foldlM_digits 0 hcs, Nat.mul_zero, Nat.zero_add]

section Digits

@[simp] theorem length_digits (count n : Nat) : (digits count n).length = count := by
  induction count generalizing n with
  | zero => rfl
  | succ count ih => rw [digits, List.length_append, ih, List.length_singleton]

theorem digit_spec (h : n < 16) :
    digit n ∈ alphabet ∧ (digit n).toLower = digit n ∧ alphabet.idxOf (digit n) = n := by
  have hall : ∀ n < 16, digit n ∈ alphabet ∧ (digit n).toLower = digit n ∧
      alphabet.idxOf (digit n) = n := by decide
  exact hall n h

/-- The digits of a number are small letters and ciphers. -/
theorem of_mem_digits (h : c ∈ digits count n) : c ∈ alphabet ∧ c.toLower = c := by
  induction count generalizing n with
  | zero => cases h
  | succ count ih =>
    rcases List.mem_append.mp h with h | h
    · exact ih h
    · obtain ⟨hmem, hlower, -⟩ := digit_spec (Nat.mod_lt n (by decide))
      rw [List.mem_singleton.mp h]
      exact ⟨hmem, hlower⟩

theorem number_digits (count n : Nat) : number (digits count n) = n % 16 ^ count := by
  induction count generalizing n with
  | zero => exact (Nat.mod_one n).symm
  | succ count ih =>
    obtain ⟨-, hlower, hindex⟩ := digit_spec (Nat.mod_lt n (by decide))
    have hfront := ih (n / 16)
    unfold number at hfront ⊢
    rw [digits, List.reverse_append, List.reverse_singleton, List.singleton_append, List.map_cons,
      Nat.ofDigits_cons, hfront, hlower, hindex, Nat.pow_succ', Nat.mod_mul]

theorem digits_injective {a b : Nat} (h : digits count a = digits count b) :
    a % 16 ^ count = b % 16 ^ count := by
  rw [← number_digits, h, number_digits]

/-- Numerals that differ only in case are numerals of one number. -/
theorem of_map_toLower {ds : List Char} (h : cs.map Char.toLower = ds.map Char.toLower) :
    (IsNumeral cs ↔ IsNumeral ds) ∧ number cs = number ds := by
  have hnumeral : ∀ cs, IsNumeral cs ↔ ∀ c ∈ cs.map Char.toLower, c ∈ alphabet := by
    intro cs
    rw [List.forall_mem_map]
    exact Iff.rfl
  have hnumber : ∀ cs, number cs =
      Nat.ofDigits 16 ((cs.map Char.toLower).reverse.map fun c => alphabet.idxOf c) := by
    intro cs
    rw [← List.map_reverse, List.map_map]
    rfl
  exact ⟨by rw [hnumeral, hnumeral, h], by rw [hnumber, hnumber, h]⟩

end Digits

end TokenWatch.Text.Hex
