import Mathlib.Data.Bool.AllAny
import TokenWatch.Proofs.Text.Pieces
import TokenWatch.Proofs.Text.Utf8
import TokenWatch.Proofs.Traversal
import TokenWatch.Proofs.Url.Punycode
import TokenWatch.Url.Host

/-!
The form of a host name that name servers know is the form of itself.
-/
namespace TokenWatch.Url.Host
open Text Punycode

variable {c : Char} {cs ds : List Char}

def IsSettled (c : Char) : Prop := isFolded c = true ∧ c.toNat < 0x80

instance (c : Char) : Decidable (IsSettled c) := inferInstanceAs (Decidable (_ ∧ _))

theorem foldName_of_folded (h : ∀ c ∈ cs, isFolded c = true) : foldName cs = cs := by
  have hfolded : ∀ c ∈ cs, foldChar c = c ∧ isIgnored c = false := fun c hc => by
    have hc := h c hc
    simp only [isFolded, Bool.and_eq_true, beq_iff_eq, Bool.not_eq_true'] at hc
    exact hc.1
  rw [foldName, List.filter_eq_self.mpr fun c hc => by rw [(hfolded c hc).2]; rfl]
  exact (List.map_congr_left fun c hc => (hfolded c hc).1).trans (List.map_id cs)

theorem settled_of_mem_mark : ∀ c ∈ mark, IsSettled c ∧ c ≠ '.' :=
  List.all_iff_forall_prop.mp (by decide)

theorem settled_of_mem_digits : ∀ c ∈ digits, IsSettled c ∧ c ≠ '.' :=
  List.all_iff_forall_prop.mp (by decide)

/-- The form of a label is made of its own characters and those that encoding writes. -/
theorem settled_of_mem_encodeLabel (folded : ∀ c ∈ cs, isFolded c = true)
    (h : c ∈ encodeLabel cs) : IsSettled c ∧ (c = '.' → c ∈ cs) := by
  by_cases outside : ∃ c ∈ cs, 0x80 ≤ c.toNat
  · obtain ⟨xs, hxs, hdigits, -⟩ := encodeLabel_spec outside
    rw [hxs, List.mem_append, List.mem_append] at h
    rcases h with hmark | hfront | hdigit
    · obtain ⟨hsettled, hne⟩ := settled_of_mem_mark c hmark
      exact ⟨hsettled, fun heq => absurd heq hne⟩
    · rcases mem_front hfront with ⟨hc, hascii⟩ | rfl
      · exact ⟨⟨folded c hc, hascii⟩, fun _ => hc⟩
      · exact ⟨by decide, nofun⟩
    · obtain ⟨hsettled, hne⟩ := settled_of_mem_digits c (hdigits c hdigit)
      exact ⟨hsettled, fun heq => absurd heq hne⟩
  · have hascii : ∀ c ∈ cs, c.toNat < 0x80 := fun c hc =>
      Nat.lt_of_not_le fun hle => outside ⟨c, hc, hle⟩
    rw [encodeLabel_of_ascii hascii] at h
    exact ⟨⟨folded c h, hascii c h⟩, fun _ => h⟩

structure IsLabel (cs : List Char) : Prop where
  fixed : labelToAscii? cs = some cs
  settled : ∀ c ∈ cs, IsSettled c
  undotted : '.' ∉ cs

theorem labelToAscii?_of_marked {label : List Char} (folded : ∀ c ∈ label, isFolded c = true)
    (outside : ∃ c ∈ label, 0x80 ≤ c.toNat) :
    labelToAscii? (encodeLabel label) = some (encodeLabel label) := by
  obtain ⟨xs, hxs, -, hread⟩ := encodeLabel_spec outside
  have hmark : mark.isPrefixOf (encodeLabel label) = true := by
    rw [hxs]
    exact List.isPrefixOf_iff_prefix.mpr (List.prefix_append _ _)
  have hdrop : decode? ((encodeLabel label).drop mark.length) = some label := by
    rw [hxs, List.drop_left]
    exact hread
  have houtside : label.any (0x80 ≤ ·.toNat) = true := by simpa using outside
  rw [labelToAscii?, if_pos hmark, hdrop]
  exact if_pos ⟨List.all_eq_true.mpr folded, houtside, rfl⟩

theorem isLabel_of_labelToAscii? (h : labelToAscii? cs = some ds) (undotted : '.' ∉ cs) :
    IsLabel ds := by
  have hfixed := h
  unfold labelToAscii? at h
  split at h
  · rename_i hmark
    split at h
    · rename_i label hread
      split at h
      · rename_i hlabel
        obtain ⟨hfolded, houtside, hencode⟩ := hlabel
        obtain rfl := Option.some.inj h
        rw [← hencode] at hfixed ⊢
        refine ⟨hfixed, fun c hc => ?_, hencode ▸ undotted⟩
        exact (settled_of_mem_encodeLabel (List.all_eq_true.mp hfolded) hc).1
      · cases h
    · cases h
  · rename_i hmark
    split at h
    · rename_i hfolded
      obtain rfl := Option.some.inj h
      have hfolded := List.all_eq_true.mp hfolded
      have hsettled : ∀ c ∈ encodeLabel cs, IsSettled c ∧ (c = '.' → c ∈ cs) :=
        fun c => settled_of_mem_encodeLabel hfolded
      refine ⟨?_, fun c hc => (hsettled c hc).1, fun hdot => undotted ((hsettled _ hdot).2 rfl)⟩
      by_cases outside : ∃ c ∈ cs, 0x80 ≤ c.toNat
      · exact labelToAscii?_of_marked hfolded outside
      · have hascii : ∀ c ∈ cs, c.toNat < 0x80 := fun c hc =>
          Nat.lt_of_not_le fun hle => outside ⟨c, hc, hle⟩
        rw [encodeLabel_of_ascii hascii] at hfixed ⊢
        exact hfixed
    · cases h

structure IsAsciiForm (cs : List Char) : Prop where
  fixed : toAscii cs = .ok cs
  settled : ∀ c ∈ cs, IsSettled c
  nonempty : cs ≠ []

theorem isAsciiForm_of_labels {labels : List (List Char)} (some : labels ≠ [])
    (h : ∀ l ∈ labels, IsLabel l) (nonempty : (labels.intersperse ['.']).flatten ≠ []) :
    IsAsciiForm (labels.intersperse ['.']).flatten := by
  have hsettled : ∀ c ∈ (labels.intersperse ['.']).flatten, IsSettled c := fun c hc => by
    rcases mem_join hc with rfl | ⟨l, hl, hc⟩
    · decide
    · exact (h l hl).settled c hc
  refine ⟨?_, hsettled, nonempty⟩
  have hmap : labels.mapM labelToAscii? = .some labels := by
    rw [← mapM_map_some id fun l hl => (h l hl).fixed, List.map_id]
  rw [toAscii, foldName_of_folded fun c hc => (hsettled c hc).1,
    pieces_join some fun l hl => (h l hl).undotted, hmap]
  exact if_neg nonempty

theorem isAsciiForm_of_toAscii (h : toAscii cs = .ok ds) : IsAsciiForm ds := by
  unfold toAscii at h
  split at h
  · cases h
  · rename_i labels hlabels
    have hsome : labels ≠ [] := by
      intro hnone
      have hlength := length_of_mapM hlabels
      rw [hnone] at hlength
      exact pieces_ne_nil _ _ (List.eq_nil_of_length_eq_zero hlength.symm)
    simp only at h
    split at h
    · cases h
    · rename_i nonempty
      obtain rfl := Except.ok.inj h
      refine isAsciiForm_of_labels hsome (fun l hl => ?_) nonempty
      obtain ⟨p, hp, hl⟩ := exists_of_mem_mapM hlabels hl
      exact isLabel_of_labelToAscii? hl (not_mem_of_mem_pieces hp)

end TokenWatch.Url.Host
