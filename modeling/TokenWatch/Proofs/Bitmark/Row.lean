import TokenWatch.Bitmark.Row
import TokenWatch.Proofs.Text.Blank
import TokenWatch.Proofs.Text.Pieces

/-!
Rows of the ledger: which identifiers a row lists, however it is laid out.
-/
namespace TokenWatch.Bitmark
open Text

variable {before after cs p : List Char} {id : String}

/-- A text that a row can list as an identifier. -/
structure IsId (s : String) : Prop where
  nonempty : s ≠ ""
  undivided : ',' ∉ s.toList
  trimmed : IsTrimmed s.toList

def listed (texts : List String) : String := String.intercalate "," texts

structure Padded where
  before : String
  piece : String
  after : String
  blank_before : IsBlank before
  blank_after : IsBlank after

def Padded.text (p : Padded) : String := p.before ++ p.piece ++ p.after

section Pieces

theorem splitIds_of_not_mem (h : ',' ∉ cs) : splitIds cs = [trim cs].filter (· ≠ []) := by
  rw [splitIds, pieces_of_not_mem h]
  rfl

theorem splitIds_append (cs ds : List Char) :
    splitIds (cs ++ ',' :: ds) = splitIds cs ++ splitIds ds := by
  simp [splitIds, pieces_append]

theorem comma_not_mem_of_blank (h : ∀ c ∈ before, isBlank c = true) : ',' ∉ before := by
  intro hmem
  exact absurd (h ',' hmem) (by decide)

/-- White space in front of a row belongs to its first piece. -/
theorem splitIds_append_left (h : ∀ c ∈ before, isBlank c = true) (cs : List Char) :
    splitIds (before ++ cs) = splitIds cs := by
  have hfirst : ∀ p, ',' ∉ p → splitIds (before ++ p) = splitIds p := by
    intro p hp
    have hwhole : ',' ∉ before ++ p := by
      simpa using ⟨comma_not_mem_of_blank h, hp⟩
    rw [splitIds_of_not_mem hwhole, splitIds_of_not_mem hp, trim_append_left h]
  by_cases hcomma : ',' ∈ cs
  · obtain ⟨p, rest, rfl, hp⟩ := List.eq_append_cons_of_mem hcomma
    rw [← List.append_assoc, splitIds_append, splitIds_append, hfirst p hp]
  · exact hfirst cs hcomma

/-- White space behind a row belongs to its last piece. -/
theorem splitIds_append_right (h : ∀ c ∈ after, isBlank c = true) (cs : List Char) :
    splitIds (cs ++ after) = splitIds cs := by
  have hlast : ∀ p, ',' ∉ p → splitIds (p ++ after) = splitIds p := by
    intro p hp
    have hwhole : ',' ∉ p ++ after := by
      simpa using ⟨hp, comma_not_mem_of_blank h⟩
    rw [splitIds_of_not_mem hwhole, splitIds_of_not_mem hp, trim_append_right h]
  by_cases hcomma : ',' ∈ cs
  · obtain ⟨back, front, hcs, hback⟩ := List.eq_append_cons_of_mem (List.mem_reverse.mpr hcomma)
    have hsplit : cs = front.reverse ++ ',' :: back.reverse := by
      simpa using congrArg List.reverse hcs
    have hpiece : ',' ∉ back.reverse := by simpa using hback
    rw [hsplit, List.append_assoc, List.cons_append, splitIds_append, splitIds_append,
      hlast _ hpiece]
  · exact hlast cs hcomma

end Pieces

section Rows

/-- A comma keeps what a row lists before it apart from what it lists after it. -/
theorem transactionIds_append (a b : String) :
    transactionIds (a ++ "," ++ b) = transactionIds a ++ transactionIds b := by
  have htext : (a ++ "," ++ b).toList = a.toList ++ ',' :: b.toList := by simp
  rw [transactionIds, htext, splitIds_append, List.map_append]
  rfl

theorem transactionIds_text (p : Padded) : transactionIds p.text = transactionIds p.piece := by
  have htext : p.text.toList = p.before.toList ++ p.piece.toList ++ p.after.toList := by
    simp [Padded.text]
  unfold transactionIds
  rw [htext, splitIds_append_right p.blank_after, splitIds_append_left p.blank_before]

theorem transactionIds_listed (texts : List String) :
    transactionIds (listed texts) = texts.flatMap transactionIds := by
  induction texts with
  | nil => rfl
  | cons t texts ih =>
    cases texts with
    | nil => simp [listed]
    | cons u texts =>
      have hlisted : listed (t :: u :: texts) = t ++ "," ++ listed (u :: texts) :=
        String.intercalate_cons_cons
      rw [hlisted, transactionIds_append, ih]
      rfl

theorem transactionIds_of_isId (h : IsId id) : transactionIds id = [id] := by
  have hsome : id.toList ≠ [] := mt String.toList_eq_nil_iff.mp h.nonempty
  simp [transactionIds, splitIds_of_not_mem h.undivided, trim_of_isTrimmed h.trimmed, hsome]

/-- The identifiers that stand in a row one by one are those that it lists. -/
theorem transactionIds_listed_of_isId {ids : List String} (h : ∀ id ∈ ids, IsId id) :
    transactionIds (listed ids) = ids := by
  rw [transactionIds_listed]
  induction ids with
  | nil => rfl
  | cons id ids ih =>
    obtain ⟨hid, hids⟩ := List.forall_mem_cons.mp h
    rw [List.flatMap_cons, transactionIds_of_isId hid, ih hids]
    rfl

theorem isId_of_trim (undivided : ',' ∉ p) (some : trim p ≠ []) :
    IsId (String.ofList (trim p)) := by
  refine ⟨?_, ?_, ?_⟩
  · intro hempty
    exact some (String.ofList_eq_empty_iff.mp hempty)
  · rw [String.toList_ofList]
    obtain ⟨front, back, -, -, hp⟩ := exists_eq_around_trim p
    intro hmem
    rw [hp] at undivided
    simp [hmem] at undivided
  · rw [String.toList_ofList]
    exact isTrimmed_trim p

theorem isId_of_mem {value : String} (h : id ∈ transactionIds value) : IsId id := by
  obtain ⟨cs, hcs, rfl⟩ := List.mem_map.mp h
  obtain ⟨hmem, hsome⟩ := List.mem_filter.mp hcs
  obtain ⟨p, hp, rfl⟩ := List.mem_map.mp hmem
  exact isId_of_trim (not_mem_of_mem_pieces hp) (of_decide_eq_true hsome)

/-- Pieces of a row as identifiers, or nothing, with white space around them. -/
theorem exists_padded {ps : List (List Char)} (undivided : ∀ p ∈ ps, ',' ∉ p) :
    ∃ padded : List Padded, padded.map Padded.text = ps.map String.ofList ∧
      padded.map Padded.piece = ps.map (String.ofList ∘ trim) ∧
      ∀ p ∈ padded, p.piece = "" ∨ IsId p.piece := by
  induction ps with
  | nil => exact ⟨[], rfl, rfl, List.forall_mem_nil _⟩
  | cons p ps ih =>
    obtain ⟨hp, hps⟩ := List.forall_mem_cons.mp undivided
    obtain ⟨padded, htexts, hpieces, hids⟩ := ih hps
    obtain ⟨front, back, hfront, hback, htext⟩ := exists_eq_around_trim p
    let first : Padded :=
      { before := String.ofList front
        piece := String.ofList (trim p)
        after := String.ofList back
        blank_before := by simpa [IsBlank] using hfront
        blank_after := by simpa [IsBlank] using hback }
    have hfirst : first.text = String.ofList p := by
      have happend : first.text = String.ofList (front ++ trim p ++ back) := by
        rw [String.ofList_append, String.ofList_append]
        rfl
      exact happend.trans (congrArg String.ofList htext.symm)
    refine ⟨first :: padded, ?_, ?_, List.forall_mem_cons.mpr ⟨?_, hids⟩⟩
    · rw [List.map_cons, List.map_cons, hfirst, htexts]
    · rw [List.map_cons, List.map_cons, hpieces]
      rfl
    · by_cases hblank : trim p = []
      · exact .inl (congrArg String.ofList hblank)
      · exact .inr (isId_of_trim hp hblank)

theorem listed_pieces (value : String) :
    listed ((pieces ',' value.toList).map String.ofList) = value := by
  have hpieces : ((pieces ',' value.toList).map String.ofList).map String.toList =
      pieces ',' value.toList := by simp
  apply String.toList_inj.mp
  rw [listed, String.toList_intercalate, hpieces]
  exact join_pieces ',' value.toList

/-- Every row is a list of identifiers, and of nothing, with white space around them; what it lists
are those identifiers in order. -/
theorem exists_layout (value : String) :
    ∃ padded : List Padded, value = listed (padded.map Padded.text) ∧
      (∀ p ∈ padded, p.piece = "" ∨ IsId p.piece) ∧
      transactionIds value = (padded.map Padded.piece).filter (· ≠ "") := by
  obtain ⟨padded, htexts, hpieces, hids⟩ :=
    @exists_padded (pieces ',' value.toList) fun p hp => not_mem_of_mem_pieces hp
  refine ⟨padded, ?_, hids, ?_⟩
  · rw [htexts, listed_pieces]
  · simp [hpieces, transactionIds, splitIds, List.filter_map, Function.comp_def]

end Rows

/-- No identifier of a row is lost, made up or moved. A row is a list of identifiers and empty
places in white space, and it lists these identifiers in order; each is a text that has neither
commas nor white space at its ends. Rows with a comma between them list what the one lists and then
what the other does, white space around pieces makes no difference, and identifiers that are written
in a row are those that it lists, so writing them anew changes a row only once. -/
theorem ids_kept_in_order (value a b : String) :
    (∃ padded : List Padded, value = listed (padded.map Padded.text) ∧
      (∀ p ∈ padded, p.piece = "" ∨ IsId p.piece) ∧
      transactionIds value = (padded.map Padded.piece).filter (· ≠ "")) ∧
    (∀ id ∈ transactionIds value, IsId id) ∧
    transactionIds (a ++ "," ++ b) = transactionIds a ++ transactionIds b ∧
    (∀ padded : List Padded, transactionIds (listed (padded.map Padded.text)) =
      transactionIds (listed (padded.map Padded.piece))) ∧
    (∀ ids : List String, (∀ id ∈ ids, IsId id) → transactionIds (listed ids) = ids) ∧
    listed (transactionIds (listed (transactionIds value))) = listed (transactionIds value) := by
  refine ⟨exists_layout value, fun id => isId_of_mem, transactionIds_append a b, fun padded => ?_,
    fun ids => transactionIds_listed_of_isId, ?_⟩
  · rw [transactionIds_listed, transactionIds_listed, List.flatMap_map, List.flatMap_map]
    simp only [transactionIds_text]
  · rw [transactionIds_listed_of_isId fun id => isId_of_mem]

/-- Blank places and edge commas of a row go, a space within an identifier stays. -/
theorem ids_kept_in_order_laid_out :
    transactionIds "\u3000tx 1\t,\u00a0,, tx2 ," = ["tx 1", "tx2"] ∧
      transactionIds (listed ["tx 1", "tx2"]) = ["tx 1", "tx2"] := by
  have hrow : transactionIds "\u3000tx 1\t,\u00a0,, tx2 ," = ["tx 1", "tx2"] := by decide +kernel
  obtain ⟨-, hids, -, -, hlisted, -⟩ :=
    ids_kept_in_order "\u3000tx 1\t,\u00a0,, tx2 ," "" ""
  rw [hrow] at hids
  exact ⟨hrow, hlisted _ hids⟩

end TokenWatch.Bitmark
