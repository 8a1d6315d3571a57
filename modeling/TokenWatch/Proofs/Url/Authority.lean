import Mathlib.Data.List.TakeWhile
import TokenWatch.Proofs.Text.Numeral
import TokenWatch.Proofs.Url.Host
import TokenWatch.Url.Parser

/-!
Authorities of URLs: the text of one is cut into its parts again.
-/
namespace TokenWatch.Url
open Text

variable {c mark : Char} {cs front rest digits : List Char} {scheme : String} {a : Authority}
  {host : Host} {u : Url}

section Cuts

/-- A text is cut where the first character stands that is not passed over. -/
theorem cut_append_cons {p : Char → Bool} (h : ∀ c ∈ front, p c = true) (mark : Char)
    (hmark : p mark = false) (rest : List Char) :
    (front ++ mark :: rest).takeWhile p = front ∧
      (front ++ mark :: rest).dropWhile p = mark :: rest := by
  have hstop : ¬p mark = true := Bool.not_eq_true _ ▸ hmark
  refine ⟨?_, ?_⟩
  · rw [List.takeWhile_append_of_pos h, List.takeWhile_cons_of_neg hstop, List.append_nil]
  · rw [List.dropWhile_append_of_pos h, List.dropWhile_cons_of_neg hstop]

theorem ne_of_not_mem (h : mark ∉ cs) : ∀ c ∈ cs, decide (c ≠ mark) = true := fun _ hc =>
  decide_eq_true (ne_of_mem_of_not_mem hc h)

theorem cutAt_of_not_mem (h : mark ∉ cs) : cutAt mark cs = (cs, none) := by
  rw [cutAt, List.dropWhile_eq_nil_iff.mpr (ne_of_not_mem h)]

theorem cutAt_append (h : mark ∉ front) (rest : List Char) :
    cutAt mark (front ++ mark :: rest) = (front, some rest) := by
  obtain ⟨htake, hdrop⟩ := cut_append_cons (ne_of_not_mem h) mark (by simp) rest
  rw [cutAt, hdrop, htake]

theorem cutUserinfo_of_not_mem (h : '@' ∉ cs) : cutUserinfo cs = (none, cs) := by
  have hreverse : '@' ∉ cs.reverse := mt List.mem_reverse.mp h
  simp only [cutUserinfo, List.dropWhile_eq_nil_iff.mpr (ne_of_not_mem hreverse)]

theorem cutUserinfo_append (h : '@' ∉ rest) (front : List Char) :
    cutUserinfo (front ++ '@' :: rest) = (some front, rest) := by
  have hreverse : '@' ∉ rest.reverse := mt List.mem_reverse.mp h
  obtain ⟨htake, hdrop⟩ := cut_append_cons (ne_of_not_mem hreverse) '@' (by simp) front.reverse
  have htext : (front ++ '@' :: rest).reverse = rest.reverse ++ '@' :: front.reverse := by simp
  simp only [cutUserinfo, htext, hdrop, htake, List.reverse_reverse]

theorem cutPort_of_no_port (h : (∀ c ∈ cs, c ≠ ':' ∧ c ≠ ']') ∨ cs.getLast? = some ']') :
    cutPort cs = (cs, none) := by
  rcases h with hplain | hlast
  · have hall : cs.reverse.takeWhile (fun c => c ≠ ':' ∧ c ≠ ']') = cs.reverse := by
      refine List.takeWhile_eq_self_iff.mpr fun c hc => ?_
      exact decide_eq_true (hplain c (List.mem_reverse.mp hc))
    simp only [cutPort, hall, List.drop_length]
  · obtain ⟨front, rfl⟩ := List.getLast?_eq_some_iff.mp hlast
    have hreverse : (front ++ [']']).reverse = ']' :: front.reverse := by simp
    simp only [cutPort, hreverse]
    rw [List.takeWhile_cons_of_neg (by simp)]
    rfl

theorem cutPort_append (h : ∀ c ∈ digits, c ≠ ':' ∧ c ≠ ']') (front : List Char) :
    cutPort (front ++ ':' :: digits) = (front, some digits) := by
  have hdigits : ∀ c ∈ digits.reverse, decide (c ≠ ':' ∧ c ≠ ']') = true :=
    fun c hc => decide_eq_true (h c (List.mem_reverse.mp hc))
  obtain ⟨htake, -⟩ := cut_append_cons hdigits ':' (by simp) front.reverse
  have htext : (front ++ ':' :: digits).reverse = digits.reverse ++ ':' :: front.reverse := by simp
  simp only [cutPort, htext, htake, List.drop_left, List.reverse_reverse]

end Cuts

section Ports

def IsOwnPort (scheme : String) (port : Option Nat) : Prop :=
  ∀ p, port = some p → p < 65536 ∧ defaultPort? scheme ≠ some p

theorem isOwnPort_of_readPort {port : Option Nat} (h : readPort scheme cs = .ok port) :
    IsOwnPort scheme port := by
  unfold readPort at h
  split at h
  · cases h
    exact nofun
  · split at h
    · simp only at h
      split at h
      · rename_i hlt
        obtain rfl := Except.ok.inj h
        intro p hp
        split at hp
        · cases hp
        · rename_i hown
          obtain rfl := Option.some.inj hp
          exact ⟨hlt, hown⟩
      · cases h
    · cases h

theorem readPort_toDigits {p : Nat} (h : IsOwnPort scheme (some p)) :
    readPort scheme (Nat.toDigits 10 p) = .ok (some p) := by
  obtain ⟨hlt, hown⟩ := h p rfl
  obtain ⟨hne, hdigits⟩ := Numeral.isNumeral_toDigits p
  have hvalue : Nat.ofDigitChars 10 (Nat.toDigits 10 p) 0 = p := Numeral.value_toDigits p
  rw [readPort, if_neg hne, if_pos hdigits]
  simp only [hvalue]
  rw [if_pos hlt, if_neg hown]

end Ports

section Whole

/-- The parts that an authority is read as. -/
structure Authority.IsNormal (scheme : String) (a : Authority) : Prop where
  username : ∀ c ∈ a.username.toList, userinfoSet c = false
  password : ∀ c ∈ a.password.toList, userinfoSet c = false
  host : a.host.IsNormal
  port : IsOwnPort scheme a.port

theorem isNormal_of_readAuthority (special : isSpecialScheme scheme = true)
    (h : readAuthority scheme cs = .ok a) : a.IsNormal scheme := by
  have hspared : ∀ c ∈ codeChars, userinfoSet c = false :=
    List.all_iff_forall_prop.mp (by decide)
  have hplain : ∀ cs, ∀ c ∈ (String.ofList (percentEncode userinfoSet cs)).toList,
      userinfoSet c = false := fun cs c hc => by
    rw [String.toList_ofList] at hc
    exact plain_of_mem_percentEncode hspared hc
  unfold readAuthority at h
  simp only [special] at h
  split at h
  · cases h
  · obtain ⟨host, hhost, h⟩ := exists_of_bind_ok h
    obtain ⟨port, hport, h⟩ := exists_of_bind_ok h
    obtain rfl := Except.ok.inj h
    exact ⟨hplain _, hplain _, Host.isNormal_of_parse hhost, isOwnPort_of_readPort hport⟩

theorem readAuthority_of_cuts {userinfo portText : Option (List Char)} {port : Option Nat}
    {hostText username : List Char} {password : Option (List Char)}
    (special : isSpecialScheme scheme = true) (hcut : cutUserinfo cs = (userinfo, rest))
    (hport : cutPort rest = (hostText, portText)) (some : hostText ≠ [])
    (hhost : Host.parse true hostText = .ok host)
    (hread : readPort scheme (portText.getD []) = .ok port)
    (hcolon : cutAt ':' (userinfo.getD []) = (username, password)) :
    readAuthority scheme cs = .ok
      { username := String.ofList (percentEncode userinfoSet username)
        password := String.ofList (percentEncode userinfoSet (password.getD []))
        host
        port } := by
  simp only [readAuthority, special, hcut, hport, hcolon]
  rw [if_neg fun h => some h.1, hhost, hread]
  rfl

/-- The text of a host with a port. -/
theorem cutPort_toText (normal : host.IsNormal) (own : IsOwnPort u.scheme u.port) :
    ∃ portText, cutPort (host.toText ++ u.portText) = (host.toText, portText) ∧
      readPort u.scheme (portText.getD []) = .ok u.port := by
  unfold portText
  cases hport : u.port with
  | none =>
    rw [List.append_nil]
    exact ⟨none, cutPort_of_no_port (Host.colon_cases normal), rfl⟩
  | some p =>
    have hplain : ∀ c ∈ Nat.toDigits 10 p, c ≠ ':' ∧ c ≠ ']' := fun c hc => by
      have hdigit := Nat.isDigit_of_mem_toDigits (by decide) (by decide) hc
      refine ⟨?_, ?_⟩ <;> rintro rfl <;> cases hdigit
    exact ⟨some _, cutPort_append hplain _, readPort_toDigits (hport ▸ own)⟩

def authority (u : Url) (host : Host) : List Char :=
  u.credentialsText ++ host.toText ++ u.portText

theorem not_isOutside_of_mem_portText (h : c ∈ u.portText) : ¬Host.IsOutside c := by
  unfold portText at h
  split at h
  · rename_i p _
    rcases List.mem_cons.mp h with rfl | h
    · decide
    · obtain ⟨d, hd, rfl⟩ := Host.exists_of_mem_toDigits (by decide) h
      have hdigit : ∀ d < 10, ¬Host.IsOutside d.digitChar := by decide
      exact hdigit d hd
  · cases h

/-- Credentials are cut off and apart again. -/
theorem cutUserinfo_credentialsText (hat : '@' ∉ rest) (hcolon : ':' ∉ u.username.toList) :
    ∃ userinfo password, cutUserinfo (u.credentialsText ++ rest) = (userinfo, rest) ∧
      cutAt ':' (userinfo.getD []) = (u.username.toList, password) ∧
      password.getD [] = u.password.toList := by
  unfold credentialsText
  split
  · rename_i hnone
    refine ⟨none, none, cutUserinfo_of_not_mem hat, ?_, ?_⟩
    · rw [hnone.1]
      rfl
    · rw [hnone.2]
      rfl
  · rw [List.append_assoc, List.singleton_append]
    split
    · rename_i hempty
      rw [List.append_nil]
      exact ⟨some u.username.toList, none, cutUserinfo_append hat _, cutAt_of_not_mem hcolon,
        by rw [hempty]; rfl⟩
    · exact ⟨some _, some u.password.toList, cutUserinfo_append hat _, cutAt_append hcolon _, rfl⟩

theorem readAuthority_authority (special : isSpecialScheme u.scheme = true)
    (h : Authority.IsNormal u.scheme ⟨u.username, u.password, host, u.port⟩) :
    readAuthority u.scheme (u.authority host) = .ok ⟨u.username, u.password, host, u.port⟩ := by
  have hat : '@' ∉ host.toText ++ u.portText := by
    rw [List.mem_append, not_or]
    exact ⟨fun hmem => Host.not_isOutside_of_mem_toText h.host hmem (by decide),
      fun hmem => not_isOutside_of_mem_portText hmem (by decide)⟩
  have hcolon : ':' ∉ u.username.toList := fun hmem =>
    absurd (h.username ':' hmem) (by decide)
  obtain ⟨portText, hport, hread⟩ := cutPort_toText h.host h.port
  obtain ⟨userinfo, password, hcut, hapart, hpassword⟩ := cutUserinfo_credentialsText hat hcolon
  rw [authority, List.append_assoc, readAuthority_of_cuts special hcut hport
    (Host.toText_ne_nil h.host) (Host.parse_toText h.host) hread hapart, hpassword]
  rw [percentEncode_of_plain h.username, percentEncode_of_plain h.password, String.ofList_toList,
    String.ofList_toList]

/-- An authority holds no slash, no mark and nothing that is not seen. -/
theorem mem_authority (h : Authority.IsNormal u.scheme ⟨u.username, u.password, host, u.port⟩)
    (hc : c ∈ u.authority host) : ¬Host.IsOutside c ∨ c = '@' := by
  have hplain : ∀ {c}, userinfoSet c = false → ¬Host.IsOutside c := by
    intro c hc
    simp only [userinfoSet, Bool.or_eq_false_iff, beq_eq_false_iff_ne] at hc
    have hpath : pathSet c = false := by grind
    have hvisible := visible_of_querySet (querySet_of_pathSet hpath)
    rintro (hsmall | hmem)
    · omega
    · simp only [List.mem_cons, List.not_mem_nil, or_false] at hmem
      rcases hmem with rfl | rfl | rfl | rfl | rfl
      · grind
      · grind
      · exact absurd hpath (by decide)
      · exact absurd hpath (by decide)
      · grind
  rw [authority, List.mem_append, List.mem_append] at hc
  rcases hc with (hc | hc) | hc
  · unfold credentialsText at hc
    split at hc
    · cases hc
    · rw [List.mem_append, List.mem_append, List.mem_singleton] at hc
      rcases hc with (hc | hc) | rfl
      · exact .inl (hplain (h.username c hc))
      · split at hc
        · cases hc
        · rcases List.mem_cons.mp hc with rfl | hc
          · exact .inl (by decide)
          · exact .inl (hplain (h.password c hc))
      · exact .inr rfl
  · exact .inl (Host.not_isOutside_of_mem_toText h.host hc)
  · exact .inl (not_isOutside_of_mem_portText hc)

theorem isSlash_of_mem_authority
    (h : Authority.IsNormal u.scheme ⟨u.username, u.password, host, u.port⟩)
    (hc : c ∈ u.authority host) : isSlash true c = false := by
  rcases mem_authority h hc with hinside | rfl
  · rw [← Bool.not_eq_true]
    refine fun hslash => hinside (.inr ?_)
    rcases Bool.or_eq_true_iff.mp hslash with hslash | hslash
    · rw [eq_of_beq hslash]
      decide
    · rw [eq_of_beq hslash]
      decide
  · rfl

theorem authority_ne_nil (h : Authority.IsNormal u.scheme ⟨u.username, u.password, host, u.port⟩) :
    u.authority host ≠ [] := by
  rw [authority, List.append_assoc]
  exact List.append_ne_nil_of_right_ne_nil _
    (List.append_ne_nil_of_left_ne_nil (Host.toText_ne_nil h.host) _)

end Whole
end TokenWatch.Url
