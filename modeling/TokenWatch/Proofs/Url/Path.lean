import TokenWatch.Proofs.Text.Pieces
import TokenWatch.Proofs.Text.Utf8
import TokenWatch.Proofs.Url.Percent
import TokenWatch.Url.Parser

/-!
Paths of URLs in normal form: no segment stands for going back or for staying, and a path that was
written is read as it stands.
-/
namespace TokenWatch.Url
open Text

variable {c : Char} {cs s : List Char} {bytes : List UInt8} {list path : List String}
  {scheme : String}

section Dots

theorem percentDecode_eq_nil (h : percentDecode cs = []) : cs = [] := by
  cases cs with
  | nil => rfl
  | cons c rest =>
    by_cases hc : c = '%'
    · subst hc
      by_cases hdigits : StartsWithDigits rest
      · cases hdigits with
        | intro ha hb =>
          rw [percentDecode_code ha hb] at h
          cases h
      · rw [percentDecode_percent hdigits] at h
        cases h
    · rw [percentDecode_plain hc] at h
      exact absurd (List.append_eq_nil_iff.mp h).1 String.utf8EncodeChar_ne_nil

/-- A dot can be given by its code. -/
theorem percentDecode_eq_dot_cons_iff :
    percentDecode cs = 0x2E :: bytes ↔
      ∃ d ∈ dotForms, ∃ rest, cs = d.toList ++ rest ∧ percentDecode rest = bytes := by
  constructor
  · intro h
    cases cs with
    | nil =>
      rw [percentDecode] at h
      cases h
    | cons c rest =>
      by_cases hc : c = '%'
      · subst hc
        by_cases hdigits : StartsWithDigits rest
        · cases hdigits with
          | @intro a b x y tail ha hb =>
            have hx := hexValue?_cases ha
            have hy := hexValue?_cases hb
            rw [percentDecode_code ha hb] at h
            obtain ⟨hbyte, hrest⟩ := List.cons.inj h
            have hsum : 16 * x + y = 46 := by
              have hnat := congrArg UInt8.toNat hbyte
              rwa [UInt8.toNat_ofNat_of_lt' (by omega : 16 * x + y < 2 ^ 8)] at hnat
            obtain rfl : x = 2 := by omega
            obtain rfl : y = 14 := by omega
            obtain rfl : a = '2' := Char.toNat_inj.mp (show a.toNat = 50 by omega)
            rcases (show b.toNat = 101 ∨ b.toNat = 69 by omega) with hlower | hupper
            · obtain rfl : b = 'e' := Char.toNat_inj.mp hlower
              exact ⟨"%2e", by decide, tail, rfl, hrest⟩
            · obtain rfl : b = 'E' := Char.toNat_inj.mp hupper
              exact ⟨"%2E", by decide, tail, rfl, hrest⟩
        · rw [percentDecode_percent hdigits] at h
          cases h
      · rw [percentDecode_plain hc] at h
        obtain ⟨b, bs, hbytes⟩ := List.exists_cons_of_ne_nil (@String.utf8EncodeChar_ne_nil c)
        rw [hbytes] at h
        obtain ⟨rfl, hrest⟩ := List.cons.inj h
        have hdot : c.toNat = 46 :=
          Utf8.ascii_of_mem_utf8EncodeChar (hbytes ▸ List.mem_cons_self) (by decide)
        obtain rfl : c = '.' := Char.toNat_inj.mp hdot
        obtain rfl : bs = [] := (List.cons.inj hbytes).2.symm
        exact ⟨".", by decide, rest, rfl, hrest⟩
  · rintro ⟨d, hd, rest, rfl, rfl⟩
    simp only [dotForms, List.mem_cons, List.not_mem_nil, or_false] at hd
    rcases hd with rfl | rfl | rfl
    · exact percentDecode_plain (c := '.') (by decide) rest
    · exact percentDecode_code (a := '2') (b := 'e') rfl rfl rest
    · exact percentDecode_code (a := '2') (b := 'E') rfl rfl rest

theorem isSingleDot_iff : isSingleDot s = true ↔ percentDecode s = [0x2E] := by
  rw [percentDecode_eq_dot_cons_iff, isSingleDot, List.contains_iff_mem]
  constructor
  · intro h
    exact ⟨_, h, [], by rw [String.toList_ofList, List.append_nil], by rw [percentDecode]⟩
  · rintro ⟨d, hd, rest, rfl, hrest⟩
    rw [percentDecode_eq_nil hrest, List.append_nil, String.ofList_toList]
    exact hd

theorem isDoubleDot_iff : isDoubleDot s = true ↔ percentDecode s = [0x2E, 0x2E] := by
  simp only [percentDecode_eq_dot_cons_iff, isDoubleDot, List.any_eq_true, beq_iff_eq]
  constructor
  · rintro ⟨a, ha, b, hb, h⟩
    refine ⟨a, ha, b.toList, ?_, b, hb, [], (List.append_nil _).symm, by rw [percentDecode]⟩
    rw [← String.toList_append, h, String.toList_ofList]
  · rintro ⟨a, ha, rest, rfl, b, hb, rest', rfl, hrest⟩
    refine ⟨a, ha, b, hb, ?_⟩
    rw [percentDecode_eq_nil hrest, List.append_nil, ← String.toList_append, String.ofList_toList]

/-- What starts with another character than a dot or the mark of a code stands for no way at all. -/
theorem no_dots_of_head (dot : c ≠ '.') (percent : c ≠ '%') (cs : List Char) :
    isSingleDot (c :: cs) = false ∧ isDoubleDot (c :: cs) = false := by
  have hnot : ∀ bytes, percentDecode (c :: cs) ≠ 0x2E :: bytes := by
    intro bytes h
    obtain ⟨d, hd, rest, hcs, -⟩ := percentDecode_eq_dot_cons_iff.mp h
    have hforms : d = "." ∨ d = "%2e" ∨ d = "%2E" := by simpa [dotForms] using hd
    rcases hforms with rfl | rfl | rfl
    · exact dot (List.cons.inj hcs).1
    · exact percent (List.cons.inj hcs).1
    · exact percent (List.cons.inj hcs).1
  constructor
  · rw [← Bool.not_eq_true, isSingleDot_iff]
    exact hnot []
  · rw [← Bool.not_eq_true, isDoubleDot_iff]
    exact hnot [0x2E]

end Dots

section Segments

structure IsSegment (s : String) : Prop where
  plain : ∀ c ∈ s.toList, pathSet c = false ∧ c ≠ '/' ∧ c ≠ '\\'
  here : isSingleDot s.toList = false
  back : isDoubleDot s.toList = false

instance (s : String) : Decidable (IsSegment s) :=
  decidable_of_iff
    ((s.toList.all fun c => pathSet c = false ∧ c ≠ '/' ∧ c ≠ '\\') = true ∧
      isSingleDot s.toList = false ∧ isDoubleDot s.toList = false)
    ⟨fun ⟨plain, here, back⟩ => ⟨List.all_iff_forall_prop.mp plain, here, back⟩,
      fun h => ⟨List.all_iff_forall_prop.mpr h.plain, h.here, h.back⟩⟩

theorem sparesDigits_pathSet : SparesDigits pathSet := by
  refine ⟨by decide, fun c x hc => ?_⟩
  have hall : ∀ n < 128, (hexValue? (Char.ofNat n)).isSome → pathSet (Char.ofNat n) = false := by
    decide +kernel
  have hascii : c.toNat < 128 := by
    have hcases := hexValue?_cases hc
    omega
  rw [← Char.ofNat_toNat c] at hc ⊢
  exact hall _ hascii (hc ▸ rfl)

theorem isSegment_empty : IsSegment "" := ⟨List.forall_mem_nil _, by decide, by decide⟩

theorem isSegment_encoded (plain : ∀ c ∈ s, c ≠ '/' ∧ c ≠ '\\') (here : isSingleDot s = false)
    (back : isDoubleDot s = false) : IsSegment (String.ofList (percentEncode pathSet s)) := by
  have hdecode := percentDecode_percentEncode sparesDigits_pathSet s
  refine ⟨fun c hc => ?_, ?_, ?_⟩
  · rw [String.toList_ofList] at hc
    have hcode : ∀ c ∈ codeChars, pathSet c = false ∧ c ≠ '/' ∧ c ≠ '\\' :=
      List.all_iff_forall_prop.mp (by decide)
    rcases mem_percentEncode hc with ⟨hmem, hset⟩ | hmem
    · exact ⟨hset, plain c hmem⟩
    · exact hcode c hmem
  · rw [← Bool.not_eq_true, isSingleDot_iff, String.toList_ofList, hdecode, ← isSingleDot_iff, here]
    exact Bool.false_ne_true
  · rw [← Bool.not_eq_true, isDoubleDot_iff, String.toList_ofList, hdecode, ← isDoubleDot_iff, back]
    exact Bool.false_ne_true

theorem encodeSegment_eq (path : List String) (s : List Char) :
    encodeSegment false path s = String.ofList (percentEncode pathSet s) := rfl

theorem shorten_eq (path : List String) : shorten false path = path.dropLast := by
  match path with
  | [] | [_] | _ :: _ :: _ => rfl

theorem isSegment_of_mem_walk {raw : List (List Char)} (hpath : ∀ s ∈ path, IsSegment s)
    (hraw : ∀ s ∈ raw, ∀ c ∈ s, c ≠ '/' ∧ c ≠ '\\') :
    ∀ s ∈ walk false path raw, IsSegment s := by
  have hends : ∀ {path : List String}, (∀ s ∈ path, IsSegment s) →
      ∀ s ∈ path ++ [""], IsSegment s := fun h =>
    List.forall_mem_append.mpr ⟨h, List.forall_mem_singleton.mpr isSegment_empty⟩
  induction raw generalizing path with
  | nil => exact hpath
  | cons s rest ih =>
    obtain ⟨hs, hrest⟩ := List.forall_mem_cons.mp hraw
    have hshorter : ∀ s ∈ shorten false path, IsSegment s := fun s hs => by
      rw [shorten_eq] at hs
      exact hpath s (List.dropLast_subset path hs)
    rw [walk]
    split
    · simp only
      split
      · exact hends hshorter
      · exact ih hshorter hrest
    · rename_i hback
      split
      · split
        · exact hends hpath
        · exact ih hpath hrest
      · rename_i hhere
        refine ih (List.forall_mem_append.mpr ⟨hpath, List.forall_mem_singleton.mpr ?_⟩) hrest
        exact isSegment_encoded hs (Bool.not_eq_true _ ▸ hhere) (Bool.not_eq_true _ ▸ hback)

theorem walk_ne_nil {raw : List (List Char)} (some : raw ≠ []) : walk false path raw ≠ [] := by
  induction raw generalizing path with
  | nil => exact absurd rfl some
  | cons s rest ih =>
    rw [walk]
    split
    · simp only
      split
      · exact List.concat_ne_nil _ _
      · rename_i hrest
        exact ih hrest
    · split
      · split
        · exact List.concat_ne_nil _ _
        · rename_i hrest
          exact ih hrest
      · by_cases hrest : rest = []
        · rw [hrest]
          exact List.concat_ne_nil _ _
        · exact ih hrest

/-- Segments in normal form are appended as they are. -/
theorem walk_segments (h : ∀ s ∈ list, IsSegment s) :
    walk false path (list.map String.toList) = path ++ list := by
  induction list generalizing path with
  | nil => exact (List.append_nil path).symm
  | cons s list ih =>
    obtain ⟨hs, hlist⟩ := List.forall_mem_cons.mp h
    rw [List.map_cons, walk, if_neg (by rw [hs.back]; exact Bool.false_ne_true),
      if_neg (by rw [hs.here]; exact Bool.false_ne_true), encodeSegment_eq,
      percentEncode_of_plain fun c hc => (hs.plain c hc).1, String.ofList_toList, ih hlist,
      List.append_assoc]
    rfl

end Segments

section Paths

def Path.IsNormal (p : Path) : Prop :=
  ∃ list, p = .segments list ∧ list ≠ [] ∧ ∀ s ∈ list, IsSegment s

theorem toText_segments (some : list ≠ []) :
    (Path.segments list).toText = '/' :: ((list.map String.toList).intersperse ['/']).flatten := by
  induction list with
  | nil => exact absurd rfl some
  | cons s list ih =>
    cases list with
    | nil => simp [Path.toText]
    | cons t list =>
      have hrest : (Path.segments (s :: t :: list)).toText =
          '/' :: s.toList ++ (Path.segments (t :: list)).toText := rfl
      rw [hrest, ih nofun]
      rfl

theorem readPath_isNormal (special : isSpecialScheme scheme = true) (web : scheme ≠ "file")
    (cs : List Char) : (readPath scheme [] cs).IsNormal := by
  rw [readPath, decide_eq_false web, special]
  refine ⟨_, rfl, walk_ne_nil (pieces_ne_nil _ _), ?_⟩
  refine isSegment_of_mem_walk (List.forall_mem_nil _) fun s hs c hc => ?_
  have hslash : c ≠ '/' := fun heq => not_mem_of_mem_pieces hs (heq ▸ hc)
  refine ⟨hslash, ?_⟩
  rintro rfl
  obtain ⟨d, -, hd⟩ := List.mem_map.mp (mem_of_mem_pieces hs hc)
  split at hd
  · cases hd
  · rename_i hplain
    rw [hd] at hplain
    exact hplain rfl

theorem readRootPath_isNormal (special : isSpecialScheme scheme = true) (web : scheme ≠ "file")
    (cs : List Char) : (readRootPath scheme cs).IsNormal := by
  cases cs with
  | nil =>
    rw [readRootPath, special]
    exact ⟨[""], rfl, nofun, List.forall_mem_singleton.mpr isSegment_empty⟩
  | cons c cs =>
    simp only [readRootPath]
    split <;> exact readPath_isNormal special web _

theorem readPath_segments (special : isSpecialScheme scheme = true) (web : scheme ≠ "file")
    (some : list ≠ []) (h : ∀ s ∈ list, IsSegment s) (path : List String) :
    readPath scheme path ((list.map String.toList).intersperse ['/']).flatten =
      .segments (path ++ list) := by
  have hplain : ∀ p ∈ list.map String.toList, ∀ c ∈ p, c ≠ '/' ∧ c ≠ '\\' := fun p hp c hc => by
    obtain ⟨s, hs, rfl⟩ := List.mem_map.mp hp
    exact ((h s hs).plain c hc).2
  have hslash : ((list.map String.toList).intersperse ['/']).flatten.map
      (fun c => if isSlash true c then '/' else c) =
        ((list.map String.toList).intersperse ['/']).flatten := by
    refine (List.map_congr_left fun c hc => ?_).trans (List.map_id _)
    rcases mem_join hc with rfl | ⟨p, hp, hc⟩
    · rfl
    · refine if_neg ?_
      obtain ⟨hslash, hback⟩ := hplain p hp c hc
      simp [isSlash, hslash, hback]
  rw [readPath, decide_eq_false web, special, rawSegments, hslash,
    pieces_join (by simpa using some) fun p hp hmem => (hplain p hp _ hmem).1 rfl, walk_segments h]

theorem readRootPath_toText {p : Path} (special : isSpecialScheme scheme = true)
    (web : scheme ≠ "file") (h : p.IsNormal) : readRootPath scheme p.toText = p := by
  obtain ⟨list, rfl, some, hlist⟩ := h
  rw [toText_segments some, readRootPath]
  exact readPath_segments special web some hlist []

end Paths
end TokenWatch.Url
