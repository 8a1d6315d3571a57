import TokenWatch.Text.Utf8

/-!
Text that was written as UTF-8 is read back as it was.
-/
namespace TokenWatch.Text.Utf8

variable {b : UInt8} {out : List Char} {low high left bits : Nat} {c : Char}

section Leads

theorem lead?_of_one (h : b.toNat < 0x80) : lead? b = some ⟨0x80, 0xBF, 0, b.toNat⟩ := by
  simp only [lead?]
  rw [if_pos h]

theorem lead?_of_two (h : 0xC2 ≤ b.toNat) (h' : b.toNat < 0xE0) :
    lead? b = some ⟨0x80, 0xBF, 1, b.toNat % 0x20⟩ := by
  simp only [lead?]
  rw [if_neg (by omega), if_neg (by omega), if_pos h']

theorem lead?_of_three (h : 0xE0 ≤ b.toNat) (h' : b.toNat < 0xF0) :
    lead? b = some ⟨if b.toNat = 0xE0 then 0xA0 else 0x80, if b.toNat = 0xED then 0x9F else 0xBF, 2,
      b.toNat % 0x10⟩ := by
  simp only [lead?]
  rw [if_neg (by omega), if_neg (by omega), if_neg (by omega)]
  split
  · rename_i heq
    simp [heq]
  · split
    · rename_i heq
      simp [heq]
    · rfl

theorem lead?_of_four (h : 0xF0 ≤ b.toNat) (h' : b.toNat < 0xF5) :
    lead? b = some ⟨if b.toNat = 0xF0 then 0x90 else 0x80, if b.toNat = 0xF4 then 0x8F else 0xBF, 3,
      b.toNat % 8⟩ := by
  simp only [lead?]
  rw [if_neg (by omega), if_neg (by omega), if_neg (by omega), if_neg (by omega),
    if_neg (by omega), if_neg (by omega)]
  split
  · rename_i heq
    simp [heq]
  · split
    · rw [if_neg (by omega)]
    · rw [if_pos (by omega), if_pos (by omega)]
      simp [show b.toNat = 0xF4 by omega]

end Leads

section Steps

theorem step_lead (h : lead? b = some ⟨low, high, left + 1, bits⟩) :
    step (out, .between) b = (out, .inside low high (left + 1) bits) := by
  simp only [step, begin, h]

theorem step_more (hlow : low ≤ b.toNat) (hhigh : b.toNat ≤ high) :
    step (out, .inside low high (left + 2) bits) b =
      (out, .inside 0x80 0xBF (left + 1) (bits * 0x40 + b.toNat % 0x40)) := by
  simp only [step]
  rw [if_pos ⟨hlow, hhigh⟩, if_neg (by omega)]
  rfl

theorem step_last (hlow : low ≤ b.toNat) (hhigh : b.toNat ≤ high) :
    step (out, .inside low high 1 bits) b =
      (Char.ofNat (bits * 0x40 + b.toNat % 0x40) :: out, .between) := by
  simp only [step]
  rw [if_pos ⟨hlow, hhigh⟩, if_pos (Nat.le_refl 1)]

end Steps

theorem foldl_step_utf8EncodeChar (out : List Char) (c : Char) :
    (String.utf8EncodeChar c).foldl step (out, .between) = (c :: out, .between) := by
  have hbyte : ∀ n < 256, (UInt8.ofNat n).toNat = n := fun n h => UInt8.toNat_ofNat_of_lt' h
  have hchar : Char.ofNat c.val.toNat = c := Char.ofNat_toNat c
  have hvalid : c.val.toNat < 0xD800 ∨ 0xDFFF < c.val.toNat ∧ c.val.toNat < 0x110000 := c.valid
  simp only [String.utf8EncodeChar]
  generalize c.val.toNat = v at *
  split
  · have h := hbyte v (by omega)
    have hlead : lead? (UInt8.ofNat v) = some ⟨0x80, 0xBF, 0, (UInt8.ofNat v).toNat⟩ :=
      lead?_of_one (by omega)
    simp only [List.foldl_cons, List.foldl_nil, step, begin, hlead]
    rw [h, hchar]
  · split
    · have h := hbyte (v / 64 % 32 + 192) (by omega)
      have h' := hbyte (v % 64 + 128) (by omega)
      rw [List.foldl_cons, step_lead (lead?_of_two (by omega) (by omega)), List.foldl_cons,
        step_last (by omega) (by omega), List.foldl_nil, h, h']
      rw [show (v / 64 % 32 + 192) % 0x20 * 0x40 + (v % 64 + 128) % 0x40 = v by omega, hchar]
    · split
      · have h := hbyte (v / 4096 % 16 + 224) (by omega)
        have h' := hbyte (v / 64 % 64 + 128) (by omega)
        have h'' := hbyte (v % 64 + 128) (by omega)
        rw [List.foldl_cons, step_lead (lead?_of_three (by omega) (by omega)), List.foldl_cons,
          step_more (by grind) (by grind), List.foldl_cons, step_last (by omega) (by omega),
          List.foldl_nil, h, h', h'']
        rw [show ((v / 4096 % 16 + 224) % 0x10 * 0x40 + (v / 64 % 64 + 128) % 0x40) * 0x40 +
          (v % 64 + 128) % 0x40 = v by omega, hchar]
      · have h := hbyte (v / 262144 % 8 + 240) (by omega)
        have h' := hbyte (v / 4096 % 64 + 128) (by omega)
        have h'' := hbyte (v / 64 % 64 + 128) (by omega)
        have h''' := hbyte (v % 64 + 128) (by omega)
        rw [List.foldl_cons, step_lead (lead?_of_four (by omega) (by omega)), List.foldl_cons,
          step_more (by grind) (by grind), List.foldl_cons, step_more (by omega) (by omega),
          List.foldl_cons, step_last (by omega) (by omega), List.foldl_nil, h, h', h'', h''']
        rw [show (((v / 262144 % 8 + 240) % 8 * 0x40 + (v / 4096 % 64 + 128) % 0x40) * 0x40 +
          (v / 64 % 64 + 128) % 0x40) * 0x40 + (v % 64 + 128) % 0x40 = v by omega, hchar]

theorem foldl_step_flatMap (out cs : List Char) :
    (cs.flatMap String.utf8EncodeChar).foldl step (out, .between) =
      (cs.reverse ++ out, .between) := by
  induction cs generalizing out with
  | nil => rfl
  | cons c cs ih =>
    rw [List.flatMap_cons, List.foldl_append, foldl_step_utf8EncodeChar, ih, List.reverse_cons,
      List.append_assoc]
    rfl

theorem decodeLossy_encoded (cs : List Char) :
    decodeLossy (cs.flatMap String.utf8EncodeChar) = cs := by
  rw [decodeLossy, foldl_step_flatMap, List.append_nil]
  exact List.reverse_reverse cs

theorem fromUTF8?_encoded (cs : List Char) :
    String.fromUTF8? (cs.flatMap String.utf8EncodeChar).toByteArray = some (String.ofList cs) :=
  dif_pos ⟨cs, rfl⟩

section Ascii

/-- No other character has a byte below 128. -/
theorem ascii_of_mem_utf8EncodeChar (hb : b ∈ String.utf8EncodeChar c) (h : b.toNat < 0x80) :
    c.toNat = b.toNat := by
  have hbyte : ∀ n < 256, (UInt8.ofNat n).toNat = n := fun n h => UInt8.toNat_ofNat_of_lt' h
  have hc : c.toNat = c.val.toNat := rfl
  simp only [String.utf8EncodeChar] at hb
  generalize c.val.toNat = v at *
  split at hb
  · rw [List.mem_singleton.mp hb, hbyte v (by omega), hc]
  · have hlarge : 0x80 ≤ b.toNat := by
      split at hb
      · simp only [List.mem_cons, List.not_mem_nil, or_false] at hb
        rcases hb with rfl | rfl <;> rw [hbyte _ (by omega)] <;> omega
      · split at hb
        · simp only [List.mem_cons, List.not_mem_nil, or_false] at hb
          rcases hb with rfl | rfl | rfl <;> rw [hbyte _ (by omega)] <;> omega
        · simp only [List.mem_cons, List.not_mem_nil, or_false] at hb
          rcases hb with rfl | rfl | rfl | rfl <;> rw [hbyte _ (by omega)] <;> omega
    omega

end Ascii

end TokenWatch.Text.Utf8
