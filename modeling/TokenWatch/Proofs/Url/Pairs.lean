import TokenWatch.Proofs.Text.Pieces
import TokenWatch.Proofs.Text.Utf8
import TokenWatch.Proofs.Url.Authority
import TokenWatch.Proofs.Url.Percent
import TokenWatch.Url.Edit

/-!
The pairs of a query, and what becomes of them when one is appended.
-/
namespace TokenWatch.Url
open Text

variable {c : Char} {cs : List Char} {u : Url} {q : String}

section Reading

def plusToSpace (cs : List Char) : List Char := cs.map fun c => if c = '+' then ' ' else c

def formDecode (cs : List Char) : String :=
  String.ofList (Utf8.decodeLossy (percentDecode (plusToSpace cs)))

def readPair (cs : List Char) : String × String :=
  (formDecode (cutAt '=' cs).1, formDecode ((cutAt '=' cs).2.getD []))

def readPairs (cs : List Char) : List (String × String) :=
  ((pieces '&' cs).filter fun p => !p.isEmpty).map readPair

def pairs (u : Url) : List (String × String) := readPairs (u.query.getD "").toList

end Reading

section Encoding

theorem formEncode_cons (c : Char) (cs : List Char) :
    formEncode (c :: cs) =
      (if isFormPlain c then [c]
      else if c = ' ' then ['+']
      else (String.utf8EncodeChar c).flatMap percentByte) ++ formEncode cs :=
  List.flatMap_cons

/-- An encoded text holds plain characters, plus signs and codes. -/
theorem mem_formEncode (h : c ∈ formEncode cs) :
    isFormPlain c = true ∨ c = '+' ∨ c ∈ codeChars := by
  obtain ⟨d, -, hc⟩ := List.mem_flatMap.mp h
  split at hc
  · rename_i hplain
    exact .inl (List.mem_singleton.mp hc ▸ hplain)
  · split at hc
    · exact .inr (.inl (List.mem_singleton.mp hc))
    · exact .inr (.inr (mem_codeChars_of_mem_codes hc))

theorem not_mem_formEncode (plain : isFormPlain c = false) (plus : c ≠ '+')
    (spared : c ∉ codeChars) : c ∉ formEncode cs := fun h => by
  rcases mem_formEncode h with hplain | heq | hcode
  · exact Bool.false_ne_true (plain.symm.trans hplain)
  · exact plus heq
  · exact spared hcode

theorem plusToSpace_append (cs ds : List Char) :
    plusToSpace (cs ++ ds) = plusToSpace cs ++ plusToSpace ds := List.map_append

theorem plusToSpace_of_not_mem (h : '+' ∉ cs) : plusToSpace cs = cs :=
  (List.map_congr_left fun _ hc => if_neg (ne_of_mem_of_not_mem hc h)).trans (List.map_id _)

theorem percentDecode_formEncode (cs : List Char) :
    percentDecode (plusToSpace (formEncode cs)) = cs.flatMap String.utf8EncodeChar := by
  induction cs with
  | nil => exact percentDecode_of_plain List.not_mem_nil
  | cons c cs ih =>
    rw [formEncode_cons, plusToSpace_append, List.flatMap_cons, ← ih]
    split
    · rename_i hplain
      have hplus : '+' ∉ [c] := fun h => by
        rw [← List.mem_singleton.mp h] at hplain
        exact absurd hplain (by decide)
      rw [plusToSpace_of_not_mem hplus]
      refine percentDecode_plain ?_ _
      rintro rfl
      exact absurd hplain (by decide)
    · split
      · rename_i hspace
        rw [hspace]
        exact percentDecode_plain (by decide) _
      · have hplus : '+' ∉ (String.utf8EncodeChar c).flatMap percentByte := fun h =>
          absurd (mem_codeChars_of_mem_codes h) (by decide)
        rw [plusToSpace_of_not_mem hplus]
        exact percentDecode_codes _ _

/-- Every text is read back from its encoding. -/
theorem formDecode_formEncode (s : String) : formDecode (formEncode s.toList) = s := by
  rw [formDecode, percentDecode_formEncode, Utf8.decodeLossy_encoded, String.ofList_toList]

end Encoding

section Appending

theorem readPair_formPair (name value : String) :
    readPair (formPair name value) = (name, value) := by
  have hname : '=' ∉ formEncode name.toList :=
    not_mem_formEncode (by decide) (by decide) (by decide)
  rw [readPair, formPair, cutAt_append hname, Option.getD_some, formDecode_formEncode,
    formDecode_formEncode]

theorem readPairs_formPair (name value : String) :
    readPairs (formPair name value) = [(name, value)] := by
  have hplain : ∀ s : String, '&' ∉ formEncode s.toList := fun s =>
    not_mem_formEncode (by decide) (by decide) (by decide)
  have hpair : '&' ∉ formPair name value := by
    rw [formPair, List.mem_append, List.mem_cons, not_or, not_or]
    exact ⟨hplain name, by decide, hplain value⟩
  have hkept : [formPair name value].filter (fun p => !p.isEmpty) = [formPair name value] := by
    simp [formPair]
  rw [readPairs, pieces_of_not_mem hpair, hkept, List.map_singleton, readPair_formPair]

theorem readPairs_append (cs ds : List Char) :
    readPairs (cs ++ '&' :: ds) = readPairs cs ++ readPairs ds := by
  rw [readPairs, pieces_append, List.filter_append, List.map_append]
  rfl

theorem query_appendPair_of_blank (h : u.query.getD "" = "") (name value : String) :
    (u.appendPair name value).query = some (String.ofList (formPair name value)) := by
  cases hquery : u.query with
  | none => simp only [appendPair, hquery]
  | some q =>
    obtain rfl : q = "" := by simpa [hquery] using h
    simp only [appendPair, hquery]

theorem query_appendPair_of_some (hquery : u.query = some q) (nonempty : q ≠ "")
    (name value : String) :
    (u.appendPair name value).query = some (q ++ "&" ++ String.ofList (formPair name value)) := by
  simp only [appendPair, hquery]

/-- A pair is appended to those that are there. -/
theorem pairs_appendPair (u : Url) (name value : String) :
    (u.appendPair name value).pairs = u.pairs ++ [(name, value)] := by
  by_cases hblank : u.query.getD "" = ""
  · rw [pairs, query_appendPair_of_blank hblank, Option.getD_some, String.toList_ofList,
      readPairs_formPair, pairs, hblank]
    rfl
  · cases hquery : u.query with
    | none => exact absurd (hquery ▸ rfl) hblank
    | some q =>
      rw [hquery, Option.getD_some] at hblank
      rw [pairs, query_appendPair_of_some hquery hblank, pairs, hquery, Option.getD_some,
        Option.getD_some, String.toList_append, String.toList_append, String.toList_ofList,
        String.toList_ofList, List.append_assoc, ← readPairs_formPair, ← readPairs_append]
      rfl

end Appending
end TokenWatch.Url
