import Mathlib.Algebra.Ring.Nat
import TokenWatch.Proofs.Text.Numeral
import TokenWatch.Proofs.Text.Pieces
import TokenWatch.Proofs.Traversal
import TokenWatch.Url.Host

/-!
Addresses of four bytes are read back from their text.
-/
namespace TokenWatch.Url.Host
open Text

variable {c : Char} {cs : List Char} {base n : Nat}

section Digits

theorem hexValue?_digitChar (h : n < 16) : hexValue? n.digitChar = some n := by
  have hall : ∀ n < 16, hexValue? n.digitChar = some n := by decide
  exact hall n h

theorem digitsValue?_concat (cs : List Char) {d : Nat} (hd : d < base) (hbase : base ≤ 16) :
    digitsValue? base (cs ++ [d.digitChar]) = (digitsValue? base cs).map (base * · + d) := by
  rw [digitsValue?, List.foldlM_append, ← digitsValue?]
  cases digitsValue? base cs with
  | none => rfl
  | some n =>
    simp only [Option.bind_eq_bind, Option.bind_some, List.foldlM_cons, List.foldlM_nil,
      hexValue?_digitChar (Nat.lt_of_lt_of_le hd hbase), Option.filter_some, decide_eq_true hd]
    rfl

theorem digitsValue?_toDigits (hpos : 1 < base) (hbase : base ≤ 16) (n : Nat) :
    digitsValue? base (Nat.toDigits base n) = some n := by
  induction n using Nat.strongRecOn with
  | ind n ih =>
    by_cases hlt : n < base
    · rw [Nat.toDigits_of_lt_base hlt]
      exact (digitsValue?_concat [] hlt hbase).trans (congrArg some (Nat.zero_add n))
    · have hle := Nat.le_of_not_lt hlt
      have hmod : n % base < base := Nat.mod_lt _ (by omega)
      rw [Nat.toDigits_of_base_le hpos hle, digitsValue?_concat _ hmod hbase,
        ih _ (Nat.div_lt_self (by omega) hpos)]
      exact congrArg some (Nat.div_add_mod n base)

theorem exists_of_mem_toDigits (hpos : 1 < base) (h : c ∈ Nat.toDigits base n) :
    ∃ d < base, c = d.digitChar := by
  induction n using Nat.strongRecOn with
  | ind n ih =>
    by_cases hlt : n < base
    · rw [Nat.toDigits_of_lt_base hlt, List.mem_singleton] at h
      exact ⟨n, hlt, h⟩
    · have hle := Nat.le_of_not_lt hlt
      rw [Nat.toDigits_of_base_le hpos hle, List.mem_append, List.mem_singleton] at h
      rcases h with h | rfl
      · exact ih _ (Nat.div_lt_self (by omega) hpos) h
      · exact ⟨_, Nat.mod_lt _ (by omega), rfl⟩

end Digits

section Parts

theorem ipv4Part?_toDigits (n : Nat) : ipv4Part? (Nat.toDigits 10 n) = some n := by
  have hvalue : digitsValue? 10 (Nat.toDigits 10 n) = some n :=
    digitsValue?_toDigits (by decide) (by decide) n
  obtain ⟨-, pow_zero | hhead⟩ := Numeral.isCanonical_toDigits n
  · rw [pow_zero] at hvalue ⊢
    exact hvalue
  · obtain ⟨c, cs, hcs⟩ := List.exists_cons_of_ne_nil (Nat.toDigits_ne_nil (b := 10) (n := n))
    rw [hcs] at hvalue hhead ⊢
    have hc : c ≠ '0' := fun heq => hhead (congrArg some heq)
    rw [ipv4Part?]
    · exact hvalue
    all_goals simp [hc]

theorem not_mem_toDigits (h : c.isDigit = false) (n : Nat) : c ∉ Nat.toDigits 10 n := by
  intro hc
  have hdigit := Nat.isDigit_of_mem_toDigits (by decide) (by decide) hc
  rw [h] at hdigit
  cases hdigit

/-- The bytes of an address, the highest first. -/
def ipv4Bytes (n : Nat) : List Nat := [3, 2, 1, 0].map fun i => n / Nat.pow 256 i % 256

def ipv4Labels (n : Nat) : List (List Char) := (ipv4Bytes n).map (Nat.toDigits 10)

theorem ipv4Text_eq (n : Nat) : ipv4Text n = ((ipv4Labels n).intersperse ['.']).flatten := by
  simp [ipv4Text, ipv4Labels, ipv4Bytes]

theorem mem_ipv4Labels (h : cs ∈ ipv4Labels n) : ∃ k, cs = Nat.toDigits 10 k := by
  obtain ⟨k, -, rfl⟩ := List.mem_map.mp h
  exact ⟨k, rfl⟩

theorem ipv4Parts_ipv4Text (n : Nat) : ipv4Parts (ipv4Text n) = ipv4Labels n := by
  have hpieces : pieces '.' (ipv4Text n) = ipv4Labels n := by
    rw [ipv4Text_eq]
    refine pieces_join nofun fun p hp => ?_
    obtain ⟨k, rfl⟩ := mem_ipv4Labels hp
    exact not_mem_toDigits rfl k
  simp only [ipv4Parts, hpieces]
  exact if_neg fun h => Nat.toDigits_ne_nil (Option.some.inj h.2)

theorem endsInNumber_ipv4Text (n : Nat) : endsInNumber (ipv4Text n) = true := by
  obtain ⟨hne, hdigits⟩ := Numeral.isNumeral_toDigits (n / Nat.pow 256 0 % 256)
  have hlast : (ipv4Labels n).getLast? = some (Nat.toDigits 10 (n / Nat.pow 256 0 % 256)) := rfl
  simp only [endsInNumber, ipv4Parts_ipv4Text, hlast, hdigits, Bool.and_true, Bool.or_eq_true]
  exact .inl (bne_iff_ne.mpr hne)

end Parts

section Addresses

def ipv4Number? (numbers : List Nat) : Option Nat := do
  let last ← numbers.getLast?
  let others := numbers.dropLast
  if others.any (255 < ·) then none
  else if Nat.pow 256 (4 - others.length) ≤ last then none
  else
    let weighted := others.mapIdx fun i n => n * Nat.pow 256 (3 - i)
    some (weighted.foldl (· + ·) last)

theorem ipv4?_eq (cs : List Char) :
    ipv4? cs = if 4 < (ipv4Parts cs).length then none
      else (ipv4Parts cs).mapM ipv4Part? >>= ipv4Number? := rfl

theorem ipv4Number?_concat (others : List Nat) (last : Nat) :
    ipv4Number? (others ++ [last]) =
      if others.any (255 < ·) then none
      else if Nat.pow 256 (4 - others.length) ≤ last then none
      else some ((others.mapIdx fun i n => n * Nat.pow 256 (3 - i)).foldl (· + ·) last) := by
  simp only [ipv4Number?, List.getLast?_concat, List.dropLast_concat, Option.bind_eq_bind,
    Option.bind_some]

/-- The numbers before the last one are bytes, and the last one fills what they leave. -/
theorem ipv4Number?_cases {numbers : List Nat} (h : ipv4Number? numbers = some n) :
    ∃ others last, numbers = others ++ [last] ∧ (∀ k ∈ others, k ≤ 255) ∧
      last < Nat.pow 256 (4 - others.length) ∧
      n = (others.mapIdx fun i n => n * Nat.pow 256 (3 - i)).foldl (· + ·) last := by
  rcases List.eq_nil_or_concat numbers with rfl | ⟨others, last, rfl⟩
  · cases h
  · rw [List.concat_eq_append, ipv4Number?_concat] at h
    split at h
    · cases h
    · rename_i hsmall
      split at h
      · cases h
      · rename_i hlast
        exact ⟨others, last, List.concat_eq_append, by simpa using hsmall,
          Nat.lt_of_not_le hlast, (Option.some.inj h).symm⟩

theorem ipv4?_ipv4Text (h : n < 2 ^ 32) : ipv4? (ipv4Text n) = some n := by
  have hnumbers : (ipv4Labels n).mapM ipv4Part? = some (ipv4Bytes n) :=
    mapM_map_some _ fun k _ => ipv4Part?_toDigits k
  have hbytes : ipv4Bytes n =
      [n / 16777216 % 256, n / 65536 % 256, n / 256 % 256] ++ [n % 256] := by
    simp only [ipv4Bytes, List.map_cons, List.map_nil, Nat.pow_eq, Nat.reducePow, Nat.div_one,
      List.cons_append, List.nil_append]
  have hsmall : ¬[n / 16777216 % 256, n / 65536 % 256, n / 256 % 256].any (255 < ·) = true := by
    simp only [List.any_cons, List.any_nil, Bool.or_false, Bool.or_eq_true, decide_eq_true_eq]
    omega
  have hlast : ¬Nat.pow 256 (4 - 3) ≤ n % 256 :=
    Nat.not_le.mpr (Nat.mod_lt n (show 256 > 0 by decide))
  rw [ipv4?_eq, ipv4Parts_ipv4Text, hnumbers, hbytes]
  refine (if_neg (Nat.lt_irrefl 4)).trans ?_
  rw [Option.bind_eq_bind, Option.bind_some, ipv4Number?_concat, if_neg hsmall]
  refine (if_neg hlast).trans (congrArg some ?_)
  simp only [List.mapIdx_cons, List.mapIdx_nil, List.foldl_cons, List.foldl_nil, Nat.reduceAdd,
    Nat.reduceSub, Nat.pow_eq, Nat.reducePow]
  omega

/-- Bytes in front of a number that fills what they leave are less than the next power. -/
theorem foldl_weighted_le {others : List Nat} {m : Nat} (few : others.length ≤ m + 1)
    (small : ∀ k ∈ others, k ≤ 255) (last : Nat) :
    (others.mapIdx fun i n => n * Nat.pow 256 (m - i)).foldl (· + ·) last +
      Nat.pow 256 (m + 1 - others.length) ≤ Nat.pow 256 (m + 1) + last := by
  induction others generalizing m last with
  | nil => exact Nat.le_of_eq (Nat.add_comm _ _)
  | cons a others ih =>
    obtain ⟨ha, hothers⟩ := List.forall_mem_cons.mp small
    have hpower : Nat.pow 256 (m + 1) = Nat.pow 256 m * 256 := rfl
    have hproduct : a * Nat.pow 256 m ≤ 255 * Nat.pow 256 m := Nat.mul_le_mul_right _ ha
    rw [List.mapIdx_cons, List.foldl_cons, List.length_cons, Nat.add_sub_add_right, Nat.sub_zero]
    cases m with
    | zero =>
      obtain rfl : others = [] := List.length_eq_zero_iff.mp (by simpa using few)
      simp only [List.mapIdx_nil, List.foldl_nil, List.length_nil, Nat.sub_zero]
      omega
    | succ m =>
      have hrest := ih (Nat.le_of_succ_le_succ few) hothers (last + a * Nat.pow 256 (m + 1))
      simp only [Nat.add_sub_add_right]
      omega

theorem lt_of_ipv4Number? {numbers : List Nat} (few : numbers.length ≤ 4)
    (h : ipv4Number? numbers = some n) : n < 2 ^ 32 := by
  obtain ⟨others, last, rfl, small, hlast, rfl⟩ := ipv4Number?_cases h
  rw [List.length_append, List.length_singleton] at few
  have hle : _ + Nat.pow 256 (4 - others.length) ≤ Nat.pow 256 4 + last :=
    foldl_weighted_le (by omega) small last
  have hpower : Nat.pow 256 4 = 2 ^ 32 := rfl
  omega

theorem lt_of_ipv4? (h : ipv4? cs = some n) : n < 2 ^ 32 := by
  rw [ipv4?_eq] at h
  split at h
  · cases h
  · rename_i hfew
    obtain ⟨numbers, hnumbers, hn⟩ := Option.bind_eq_some_iff.mp h
    refine lt_of_ipv4Number? ?_ hn
    rw [length_of_mapM hnumbers]
    exact Nat.le_of_not_lt hfew

end Addresses
end TokenWatch.Url.Host
