import TokenWatch.Proofs.Url.Ipv6
import TokenWatch.Proofs.Url.Name
import TokenWatch.Proofs.Url.Percent

/-!
Hosts in normal form: those that are read from some text, and those that are read back from their
own.
-/
namespace TokenWatch.Url.Host
open Text

inductive IsNormal : Host → Prop where
  | name {cs : List Char} (form : IsAsciiForm cs)
      (allowed : ∀ c ∈ cs, isForbiddenInDomain c = false)
      (numberless : endsInNumber cs = false) : IsNormal (.name (String.ofList cs))
  | ipv4 {n : Nat} (small : n < 2 ^ 32) : IsNormal (.ipv4 n)
  | ipv6 {ns : List Nat} (length : ns.length = 8) (small : ∀ n ∈ ns, n < 65536) :
      IsNormal (.ipv6 ns)

variable {c : Char} {cs : List Char} {n : Nat} {host : Host}

section Reading

theorem isNormal_of_parseSpecial (h : parseSpecial cs = .ok host) : host.IsNormal := by
  unfold parseSpecial at h
  split at h
  · cases h
  · split at h
    · cases h
    · rename_i ascii hascii
      split at h
      · cases h
      · rename_i hallowed
        split at h
        · split at h
          · rename_i n hn
            obtain rfl := Except.ok.inj h
            exact .ipv4 (lt_of_ipv4? hn)
          · cases h
        · rename_i hnumberless
          obtain rfl := Except.ok.inj h
          refine .name (isAsciiForm_of_toAscii hascii) (fun c hc => ?_)
            (Bool.not_eq_true _ ▸ hnumberless)
          rw [List.any_eq_true] at hallowed
          exact Bool.not_eq_true _ ▸ fun hforbidden => hallowed ⟨c, hc, hforbidden⟩

theorem isNormal_of_parse (h : parse true cs = .ok host) : host.IsNormal := by
  unfold parse at h
  split at h
  · rename_i rest
    split at h
    · cases hns : ipv6? rest.dropLast with
      | none =>
        rw [hns] at h
        cases h
      | some ns =>
        rw [hns] at h
        obtain rfl := Except.ok.inj h
        obtain ⟨hlength, hsmall⟩ := of_ipv6? hns
        exact .ipv6 hlength hsmall
    · cases h
  · exact isNormal_of_parseSpecial h

end Reading

section Writing

/-- A name that is its own form is read as it stands. -/
theorem parse_of_isAsciiForm (form : IsAsciiForm cs)
    (allowed : ∀ c ∈ cs, isForbiddenInDomain c = false) :
    parse true cs = if endsInNumber cs then
      match ipv4? cs with
      | some n => .ok (.ipv4 n)
      | none => .error .invalidIpv4
    else .ok (.name (String.ofList cs)) := by
  have hbracket : ∀ rest, cs ≠ '[' :: rest := by
    rintro rest rfl
    exact absurd (allowed '[' List.mem_cons_self) (by decide)
  have hpercent : '%' ∉ cs := fun hmem => absurd (allowed '%' hmem) (by decide)
  have hallowed : ¬cs.any isForbiddenInDomain = true := by
    rw [List.any_eq_true]
    rintro ⟨c, hc, hforbidden⟩
    rw [allowed c hc] at hforbidden
    cases hforbidden
  rw [parse, if_pos rfl, parseSpecial, percentDecode_of_plain hpercent, Utf8.fromUTF8?_encoded]
  · simp only [String.toList_ofList, form.fixed]
    exact if_neg hallowed
  · exact hbracket

theorem isLabel_toDigits (n : Nat) : IsLabel (Nat.toDigits 10 n) := by
  have hdigit : ∀ d < 10, IsSettled d.digitChar ∧ d.digitChar ≠ '.' ∧ d.digitChar ≠ 'x' := by decide
  have hall : ∀ c ∈ Nat.toDigits 10 n, IsSettled c ∧ c ≠ '.' ∧ c ≠ 'x' := fun c hc => by
    obtain ⟨d, hd, rfl⟩ := exists_of_mem_toDigits (by decide) hc
    exact hdigit d hd
  refine ⟨?_, fun c hc => (hall c hc).1, fun hdot => (hall _ hdot).2.1 rfl⟩
  have hmark : ¬Punycode.mark.isPrefixOf (Nat.toDigits 10 n) = true := fun hprefix => by
    have hmem : 'x' ∈ Nat.toDigits 10 n :=
      (List.isPrefixOf_iff_prefix.mp hprefix).subset List.mem_cons_self
    exact (hall _ hmem).2.2 rfl
  have hfolded : (Nat.toDigits 10 n).all isFolded = true :=
    List.all_eq_true.mpr fun c hc => (hall c hc).1.1
  rw [labelToAscii?, if_neg hmark, if_pos hfolded,
    Punycode.encodeLabel_of_ascii fun c hc => (hall c hc).1.2]

theorem isAsciiForm_ipv4Text (n : Nat) : IsAsciiForm (ipv4Text n) := by
  rw [ipv4Text_eq]
  refine isAsciiForm_of_labels nofun (fun l hl => ?_) ?_
  · obtain ⟨k, rfl⟩ := mem_ipv4Labels hl
    exact isLabel_toDigits k
  · rw [← ipv4Text_eq]
    simp [ipv4Text]

theorem mem_ipv4Text (h : c ∈ ipv4Text n) : c = '.' ∨ ∃ d < 10, c = d.digitChar := by
  rw [ipv4Text_eq] at h
  rcases mem_join h with hdot | ⟨l, hl, hc⟩
  · exact .inl hdot
  · obtain ⟨k, rfl⟩ := mem_ipv4Labels hl
    exact .inr (exists_of_mem_toDigits (by decide) hc)

theorem parse_toText (h : host.IsNormal) : parse true host.toText = .ok host := by
  cases h with
  | @name cs form allowed numberless =>
    rw [toText, String.toList_ofList, parse_of_isAsciiForm form allowed, numberless]
    rfl
  | @ipv4 n small =>
    have hallowed : ∀ c ∈ ipv4Text n, isForbiddenInDomain c = false := fun c hc => by
      have hdigit : ∀ d < 10, isForbiddenInDomain d.digitChar = false := by decide
      rcases mem_ipv4Text hc with rfl | ⟨d, hd, rfl⟩
      · decide
      · exact hdigit d hd
    rw [toText, parse_of_isAsciiForm (isAsciiForm_ipv4Text n) hallowed, endsInNumber_ipv4Text,
      ipv4?_ipv4Text small]
    rfl
  | @ipv6 ns length small =>
    rw [toText, parse, if_pos List.getLast?_concat, List.dropLast_concat,
      ipv6?_ipv6Text length small]

end Writing

section Texts

def IsOutside (c : Char) : Prop := c.toNat ≤ 0x20 ∨ c ∈ ['/', '\\', '?', '#', '@']

instance (c : Char) : Decidable (IsOutside c) := inferInstanceAs (Decidable (_ ∨ _))

theorem not_isOutside_of_allowed (h : isForbiddenInDomain c = false) :
    ¬IsOutside c ∧ c ≠ ':' ∧ c ≠ ']' := by
  simp only [isForbiddenInDomain, isForbidden, Bool.or_eq_false_iff, beq_eq_false_iff_ne,
    decide_eq_false_iff_not] at h
  have hspace : c.toNat = 0x20 → c = ' ' := fun heq => by
    rw [← Char.ofNat_toNat c, heq]
  refine ⟨?_, by grind, by grind⟩
  rintro (hsmall | hmem)
  · have heq : c.toNat = 0x20 := by omega
    have hne : c ≠ ' ' := by grind
    exact hne (hspace heq)
  · simp only [List.mem_cons, List.not_mem_nil, or_false] at hmem
    grind

theorem not_isOutside_of_mem_ipv4Text (h : c ∈ ipv4Text n) :
    ¬IsOutside c ∧ c ≠ ':' ∧ c ≠ ']' := by
  have hdigit : ∀ d < 10, ¬IsOutside d.digitChar ∧ d.digitChar ≠ ':' ∧ d.digitChar ≠ ']' := by
    decide
  rcases mem_ipv4Text h with rfl | ⟨d, hd, rfl⟩
  · decide
  · exact hdigit d hd

theorem not_isOutside_of_mem_toText (h : host.IsNormal) (hc : c ∈ host.toText) : ¬IsOutside c := by
  cases h with
  | name form allowed numberless =>
    rw [toText, String.toList_ofList] at hc
    exact (not_isOutside_of_allowed (allowed c hc)).1
  | ipv4 small => exact (not_isOutside_of_mem_ipv4Text hc).1
  | ipv6 length small =>
    have hdigit : ∀ c ∈ hexDigits, ¬IsOutside c := List.all_iff_forall_prop.mp (by decide)
    simp only [toText, List.mem_cons, List.mem_append, List.not_mem_nil, or_false] at hc
    rcases hc with rfl | hc | rfl
    · decide
    · rcases mem_ipv6Text hc with rfl | hc
      · decide
      · exact hdigit c hc
    · decide

theorem toText_ne_nil (h : host.IsNormal) : host.toText ≠ [] := by
  cases h with
  | name form allowed numberless =>
    rw [toText, String.toList_ofList]
    exact form.nonempty
  | ipv4 small => exact (isAsciiForm_ipv4Text _).nonempty
  | ipv6 length small => exact nofun

/-- A colon stands in a host's text only between brackets. -/
theorem colon_cases (h : host.IsNormal) :
    (∀ c ∈ host.toText, c ≠ ':' ∧ c ≠ ']') ∨ host.toText.getLast? = some ']' := by
  cases h with
  | name form allowed numberless =>
    rw [toText, String.toList_ofList]
    exact .inl fun c hc => (not_isOutside_of_allowed (allowed c hc)).2
  | ipv4 small => exact .inl fun c hc => (not_isOutside_of_mem_ipv4Text hc).2
  | ipv6 length small => exact .inr (List.getLast?_concat (l := '[' :: _))

end Texts
end TokenWatch.Url.Host
