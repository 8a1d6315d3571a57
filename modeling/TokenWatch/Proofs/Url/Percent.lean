import Mathlib.Data.Bool.AllAny
import TokenWatch.Url.Percent

/-!
Percent encoding leaves what is encoded already as it is, and it changes nothing for one who
decodes.
-/
namespace TokenWatch.Url

variable {inSet : Char → Bool} {c : Char} {cs rest : List Char}

section Codes

def codeChars : List Char := '%' :: "0123456789ABCDEF".toList

theorem upperHex_spec {n : Nat} (h : n < 16) :
    upperHex n ∈ codeChars ∧ hexValue? (upperHex n) = some n := by
  have hall : ∀ n < 16, upperHex n ∈ codeChars ∧ hexValue? (upperHex n) = some n := by decide
  exact hall n h

/-- The digits of a value: one below ten, and else one of either case. -/
theorem hexValue?_cases {n : Nat} (h : hexValue? c = some n) :
    n < 10 ∧ c.toNat = 48 + n ∨ 10 ≤ n ∧ n < 16 ∧ (c.toNat = 87 + n ∨ c.toNat = 55 + n) := by
  have hle : ∀ a b : Char, a ≤ b ↔ a.toNat ≤ b.toNat := fun a b => UInt32.le_iff_toNat_le
  unfold hexValue? at h
  split at h
  · rename_i hdigit
    have hrange : 48 ≤ c.toNat ∧ c.toNat ≤ 57 := by
      simpa [Char.isDigit, UInt32.le_iff_toNat_le] using hdigit
    have hn : c.toNat - 48 = n := Option.some.inj h
    omega
  · split at h
    · rename_i hrange
      have hrange : 97 ≤ c.toNat ∧ c.toNat ≤ 102 := by
        rwa [hle, hle] at hrange
      have hn : c.toNat - 97 + 10 = n := Option.some.inj h
      omega
    · split at h
      · rename_i hrange
        have hrange : 65 ≤ c.toNat ∧ c.toNat ≤ 70 := by
          rwa [hle, hle] at hrange
        have hn : c.toNat - 65 + 10 = n := Option.some.inj h
        omega
      · cases h

theorem high_lt (b : UInt8) : b.toNat / 16 < 16 :=
  Nat.div_lt_of_lt_mul b.toNat_lt

theorem low_lt (b : UInt8) : b.toNat % 16 < 16 := Nat.mod_lt _ (by decide)

theorem mem_codeChars_of_mem_percentByte {b : UInt8} (h : c ∈ percentByte b) : c ∈ codeChars := by
  simp only [percentByte, List.mem_cons, List.not_mem_nil, or_false] at h
  rcases h with rfl | rfl | rfl
  · decide
  · exact (upperHex_spec (high_lt b)).1
  · exact (upperHex_spec (low_lt b)).1

theorem mem_codeChars_of_mem_codes {bytes : List UInt8} (h : c ∈ bytes.flatMap percentByte) :
    c ∈ codeChars := by
  obtain ⟨b, -, hc⟩ := List.mem_flatMap.mp h
  exact mem_codeChars_of_mem_percentByte hc

end Codes

section Encoding

theorem percentEncode_cons (inSet : Char → Bool) (c : Char) (cs : List Char) :
    percentEncode inSet (c :: cs) =
      (if inSet c then (String.utf8EncodeChar c).flatMap percentByte else [c]) ++
        percentEncode inSet cs :=
  List.flatMap_cons

theorem percentEncode_of_plain (h : ∀ c ∈ cs, inSet c = false) : percentEncode inSet cs = cs := by
  induction cs with
  | nil => rfl
  | cons c cs ih =>
    obtain ⟨hc, hcs⟩ := List.forall_mem_cons.mp h
    rw [percentEncode_cons, ih hcs, hc]
    rfl

/-- An encoded text holds characters of the text and those of codes. -/
theorem mem_percentEncode (h : c ∈ percentEncode inSet cs) :
    c ∈ cs ∧ inSet c = false ∨ c ∈ codeChars := by
  obtain ⟨d, hd, hc⟩ := List.mem_flatMap.mp h
  split at hc
  · exact .inr (mem_codeChars_of_mem_codes hc)
  · rename_i hplain
    obtain rfl : c = d := List.mem_singleton.mp hc
    exact .inl ⟨hd, Bool.not_eq_true _ ▸ hplain⟩

/-- What is encoded holds nothing that has to be encoded. -/
theorem plain_of_mem_percentEncode (spared : ∀ c ∈ codeChars, inSet c = false)
    (h : c ∈ percentEncode inSet cs) : inSet c = false :=
  (mem_percentEncode h).elim And.right (spared c)

end Encoding

section Sets

theorem visible_of_querySet (h : querySet c = false) : 0x20 < c.toNat := by
  simp only [querySet, controlSet, Bool.or_eq_false_iff, decide_eq_false_iff_not,
    beq_eq_false_iff_ne] at h
  have hspace : c ≠ ' ' := by grind
  exact Nat.lt_of_le_of_ne (by omega) fun heq => hspace (Char.toNat_inj.mp heq.symm)

theorem querySet_of_pathSet (h : pathSet c = false) : querySet c = false := by
  simp only [pathSet, Bool.or_eq_false_iff] at h
  exact h.1.1.1.1.1

/-- A path holds none of the marks that end it. -/
theorem unmarked_of_pathSet (h : pathSet c = false) : 0x20 < c.toNat ∧ c ≠ '?' ∧ c ≠ '#' := by
  refine ⟨visible_of_querySet (querySet_of_pathSet h), ?_, ?_⟩ <;> rintro rfl <;>
    exact absurd h (by decide)

theorem querySet_of_specialQuerySet (h : specialQuerySet c = false) : querySet c = false :=
  (Bool.or_eq_false_iff.mp h).1

theorem visible_of_fragmentSet (h : fragmentSet c = false) : 0x20 < c.toNat := by
  simp only [fragmentSet, controlSet, Bool.or_eq_false_iff, decide_eq_false_iff_not,
    beq_eq_false_iff_ne] at h
  have hspace : c ≠ ' ' := by grind
  exact Nat.lt_of_le_of_ne (by omega) fun heq => hspace (Char.toNat_inj.mp heq.symm)

end Sets

section Decoding

inductive StartsWithDigits : List Char → Prop where
  | intro {a b : Char} {x y : Nat} {rest : List Char} (ha : hexValue? a = some x)
      (hb : hexValue? b = some y) : StartsWithDigits (a :: b :: rest)

theorem percentDecode_code {a b : Char} {x y : Nat} (ha : hexValue? a = some x)
    (hb : hexValue? b = some y) (rest : List Char) :
    percentDecode ('%' :: a :: b :: rest) = UInt8.ofNat (16 * x + y) :: percentDecode rest := by
  rw [percentDecode, ha, hb]

theorem percentDecode_plain (h : c ≠ '%') (rest : List Char) :
    percentDecode (c :: rest) = String.utf8EncodeChar c ++ percentDecode rest := by
  rw [percentDecode]
  rintro a b tail rfl -
  exact h rfl

theorem percentDecode_of_plain (h : '%' ∉ cs) :
    percentDecode cs = cs.flatMap String.utf8EncodeChar := by
  induction cs with
  | nil => rw [percentDecode, List.flatMap_nil]
  | cons c cs ih =>
    obtain ⟨hc, hcs⟩ := List.ne_and_not_mem_of_not_mem_cons h
    rw [percentDecode_plain (Ne.symm hc), ih hcs, List.flatMap_cons]

/-- A percent sign without a code stands for itself. -/
theorem percentDecode_percent (h : ¬StartsWithDigits rest) :
    percentDecode ('%' :: rest) = 0x25 :: percentDecode rest := by
  match rest with
  | [] => simp [percentDecode, String.utf8EncodeChar]
  | [a] => simp [percentDecode, String.utf8EncodeChar]
  | a :: b :: rest =>
    rw [percentDecode]
    split
    · rename_i ha hb
      exact absurd (.intro ha hb) h
    · rfl

theorem percentDecode_codes (bytes : List UInt8) (rest : List Char) :
    percentDecode (bytes.flatMap percentByte ++ rest) = bytes ++ percentDecode rest := by
  induction bytes with
  | nil => rfl
  | cons b bytes ih =>
    have hcode : UInt8.ofNat (16 * (b.toNat / 16) + b.toNat % 16) = b := by
      rw [Nat.div_add_mod]
      exact UInt8.ofNat_toNat
    rw [List.flatMap_cons, List.append_assoc]
    calc percentDecode (percentByte b ++ (bytes.flatMap percentByte ++ rest))
        = UInt8.ofNat (16 * (b.toNat / 16) + b.toNat % 16) ::
            percentDecode (bytes.flatMap percentByte ++ rest) :=
          percentDecode_code (upperHex_spec (high_lt b)).2 (upperHex_spec (low_lt b)).2 _
      _ = b :: bytes ++ percentDecode rest := by rw [hcode, ih]; rfl

/-- A set that leaves codes alone, those in lower case too. -/
def SparesDigits (inSet : Char → Bool) : Prop :=
  inSet '%' = false ∧ ∀ c x, hexValue? c = some x → inSet c = false

theorem startsWithDigits_of_percentEncode (h : StartsWithDigits (percentEncode inSet rest)) :
    StartsWithDigits rest := by
  -- a code that was written starts with a percent sign, which is no digit
  have hplain : ∀ {c a cs ds} {x : Nat}, hexValue? a = some x →
      percentEncode inSet (c :: cs) = a :: ds → c = a ∧ percentEncode inSet cs = ds := by
    intro c a cs ds x ha hcons
    rw [percentEncode_cons] at hcons
    split at hcons
    · obtain ⟨b, bs, hbytes⟩ := List.exists_cons_of_ne_nil (@String.utf8EncodeChar_ne_nil c)
      rw [hbytes] at hcons
      obtain ⟨rfl, -⟩ := List.cons.inj hcons
      cases ha
    · exact List.cons.inj hcons
  generalize hds : percentEncode inSet rest = ds at h
  cases h with
  | @intro a b x y tail ha hb =>
    cases rest with
    | nil => cases hds
    | cons c cs =>
      obtain ⟨rfl, htail⟩ := hplain ha hds
      cases cs with
      | nil => cases htail
      | cons d cs =>
        obtain ⟨rfl, -⟩ := hplain hb htail
        exact .intro ha hb

/-- Encoding changes nothing for one who decodes. -/
theorem percentDecode_percentEncode (spared : SparesDigits inSet) (cs : List Char) :
    percentDecode (percentEncode inSet cs) = percentDecode cs := by
  induction hn : cs.length using Nat.strongRecOn generalizing cs with
  | ind n ih =>
    match cs with
    | [] => rfl
    | c :: rest =>
      have hrest : percentDecode (percentEncode inSet rest) = percentDecode rest :=
        ih _ (by rw [← hn]; exact Nat.lt_succ_self _) rest rfl
      rw [percentEncode_cons]
      by_cases hc : c = '%'
      · subst hc
        rw [spared.1]
        by_cases hdigits : StartsWithDigits rest
        · cases hdigits with
          | @intro a b x y tail ha hb =>
            have htail : percentDecode (percentEncode inSet tail) = percentDecode tail :=
              ih _ (by simp only [← hn, List.length_cons]; omega) tail rfl
            rw [percentEncode_cons, percentEncode_cons, spared.2 a x ha, spared.2 b y hb,
              percentDecode_code ha hb, ← htail]
            exact percentDecode_code ha hb _
        · have hdigits' : ¬StartsWithDigits (percentEncode inSet rest) :=
            fun h => hdigits (startsWithDigits_of_percentEncode h)
          rw [percentDecode_percent hdigits, ← hrest]
          exact percentDecode_percent hdigits'
      · rw [percentDecode_plain hc, ← hrest]
        split
        · exact percentDecode_codes _ _
        · exact percentDecode_plain hc _

end Decoding
end TokenWatch.Url
