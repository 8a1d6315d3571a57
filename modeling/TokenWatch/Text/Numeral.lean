/-!
Numerals: decimal ones with an optional sign and the range of the number meant, and hexadecimal
digits.
-/
namespace TokenWatch.Text.Numeral

def IsNumeral (cs : List Char) : Prop :=
  cs ≠ [] ∧ cs.all Char.isDigit = true

instance (cs : List Char) : Decidable (IsNumeral cs) :=
  inferInstanceAs (Decidable (_ ∧ _))

def value (cs : List Char) : Nat :=
  Nat.ofDigitChars 10 cs 0

def read? (cs : List Char) : Option Nat :=
  if IsNumeral cs then some (value cs) else none

def readUnsigned? (cs : List Char) : Option UInt64 :=
  let digits := match cs with
    | '+' :: rest => rest
    | _ => cs
  match read? digits with
  | some n => if n < UInt64.size then some (UInt64.ofNat n) else none
  | none => none

def readSigned? (cs : List Char) : Option Int64 :=
  let number := match cs with
    | '+' :: rest => (read? rest).map Int.ofNat
    | '-' :: rest => (read? rest).map fun n => -Int.ofNat n
    | _ => (read? cs).map Int.ofNat
  match number with
  | some n =>
    if -0x8000000000000000 ≤ n ∧ n < 0x8000000000000000 then some (Int64.ofInt n) else none
  | none => none

/-- No leading zero, unless zero is all there is. -/
def IsCanonical (cs : List Char) : Prop :=
  IsNumeral cs ∧ (cs = ['0'] ∨ cs.head? ≠ some '0')

instance (cs : List Char) : Decidable (IsCanonical cs) :=
  inferInstanceAs (Decidable (_ ∧ _))

def dropZeros (cs : List Char) : List Char :=
  match cs.dropWhile (· == '0') with
  | [] => ['0']
  | rest => rest

theorem head?_dropWhile_ne (c : Char) (cs : List Char) :
    (cs.dropWhile (· == c)).head? ≠ some c := by
  induction cs with
  | nil => simp
  | cons a rest ih =>
    by_cases h : a = c <;> simp_all

theorem isCanonical_dropZeros {cs : List Char} (h : IsNumeral cs) :
    IsCanonical (dropZeros cs) := by
  unfold dropZeros
  have hhead := head?_dropWhile_ne '0' cs
  have hsub := List.dropWhile_sublist (l := cs) (· == '0')
  split
  · exact ⟨⟨by simp, by decide⟩, .inl rfl⟩
  · rename_i rest hne
    refine ⟨⟨hne, ?_⟩, .inr hhead⟩
    rw [List.all_eq_true]
    exact fun c hc => List.all_eq_true.1 h.2 c (hsub.subset hc)

theorem isNumeral_toDigits (n : Nat) : IsNumeral (Nat.toDigits 10 n) :=
  ⟨Nat.toDigits_ne_nil, List.all_eq_true.2 fun _ hc =>
    Nat.isDigit_of_mem_toDigits (by decide) (by decide) hc⟩

end TokenWatch.Text.Numeral

namespace TokenWatch.Text.Hex

def digit (n : Nat) : Char :=
  if n < 10 then Char.ofNat ('0'.toNat + n) else Char.ofNat ('a'.toNat + (n - 10))

def digitValue? (c : Char) : Option Nat :=
  if '0' ≤ c ∧ c ≤ '9' then some (c.toNat - '0'.toNat)
  else if 'a' ≤ c ∧ c ≤ 'f' then some (c.toNat - 'a'.toNat + 10)
  else if 'A' ≤ c ∧ c ≤ 'F' then some (c.toNat - 'A'.toNat + 10)
  else none

/-- The last `count` digits of a number. -/
def digits : Nat → Nat → List Char
  | 0, _ => []
  | count + 1, n => digits count (n / 16) ++ [digit (n % 16)]

/-- The number that hexadecimal digits of either case denote; zero for no digits. -/
def value? (cs : List Char) : Option Nat :=
  cs.foldlM (fun n c => (digitValue? c).map (16 * n + ·)) 0

end TokenWatch.Text.Hex
