import TokenWatch.Proofs.Url.Authority
import TokenWatch.Proofs.Url.Path

/-!
URLs with a host in normal form. Whatever is read is in that form, and a URL in that form is what is
read from its own text.
-/
namespace TokenWatch.Url
open Text

/-- A URL whose parts stand as they are written. -/
structure IsNormal (u : Url) : Prop where
  special : isSpecialScheme u.scheme = true
  web : u.scheme ≠ "file"
  authority : ∃ host, u.host = some host ∧
    Authority.IsNormal u.scheme ⟨u.username, u.password, host, u.port⟩
  path : u.path.IsNormal
  query : ∀ q, u.query = some q → ∀ c ∈ q.toList, specialQuerySet c = false
  fragment : ∀ f, u.fragment = some f → ∀ c ∈ f.toList, fragmentSet c = false

variable {u : Url} {p : Parts} {c : Char} {cs rest : List Char} {scheme text : String}

section Reading

theorem plain_encodeQuery (special : isSpecialScheme scheme = true) (cs : List Char) :
    ∀ c ∈ (encodeQuery scheme cs).toList, specialQuerySet c = false := fun c hc => by
  rw [encodeQuery, special, if_pos rfl, String.toList_ofList] at hc
  exact plain_of_mem_percentEncode (List.all_iff_forall_prop.mp (by decide)) hc

theorem plain_encodeFragment (cs : List Char) :
    ∀ c ∈ (encodeFragment cs).toList, fragmentSet c = false := fun c hc => by
  rw [encodeFragment, String.toList_ofList] at hc
  exact plain_of_mem_percentEncode (List.all_iff_forall_prop.mp (by decide)) hc

theorem isNormal_of_readFromAuthority (special : isSpecialScheme scheme = true)
    (web : scheme ≠ "file") (h : readFromAuthority scheme p cs = .ok u) : u.IsNormal := by
  obtain ⟨a, ha, h⟩ := exists_of_bind_ok h
  obtain rfl := Except.ok.inj h
  refine ⟨special, web, ⟨a.host, rfl, isNormal_of_readAuthority special ha⟩,
    readRootPath_isNormal special web _, fun q hq => ?_, fun f hf => ?_⟩
  · obtain ⟨raw, -, rfl⟩ := Option.map_eq_some_iff.mp hq
    exact plain_encodeQuery special raw
  · obtain ⟨raw, -, rfl⟩ := Option.map_eq_some_iff.mp hf
    exact plain_encodeFragment raw

theorem scheme_of_readFromAuthority (h : readFromAuthority scheme p cs = .ok u) :
    u.scheme = scheme := by
  obtain ⟨a, -, h⟩ := exists_of_bind_ok h
  exact (Except.ok.inj h) ▸ rfl

theorem scheme_of_readFile (h : readFile none p cs = .ok u) : u.scheme = "file" := by
  unfold readFile at h
  split at h
  · simp only at h
    split at h
    · split at h
      · exact (Except.ok.inj h) ▸ rfl
      · obtain ⟨host, -, h⟩ := exists_of_bind_ok h
        exact (Except.ok.inj h) ▸ rfl
    · split at h <;> exact (Except.ok.inj h) ▸ rfl
  · simp only at h
    split at h <;> exact (Except.ok.inj h) ▸ rfl
  · exact (Except.ok.inj h) ▸ rfl

theorem isNormal_of_readAbsolute (h : readAbsolute scheme p rest = .ok u)
    (special : isSpecialScheme u.scheme = true) (web : scheme ≠ "file") : u.IsNormal := by
  unfold readAbsolute at h
  split at h
  · rename_i hspecial
    exact isNormal_of_readFromAuthority hspecial web h
  · rename_i hplain
    have hscheme : u.scheme = scheme := by
      split at h
      · exact scheme_of_readFromAuthority h
      · exact (Except.ok.inj h) ▸ rfl
      · exact (Except.ok.inj h) ▸ rfl
    exact absurd (hscheme ▸ special) hplain

/-- Whatever text a URL was read from. -/
theorem isNormal_of_parse (h : parse text = .ok u) (special : isSpecialScheme u.scheme = true)
    (web : u.scheme ≠ "file") : u.IsNormal := by
  unfold parse read at h
  simp only at h
  split at h
  · split at h
    · exact absurd (scheme_of_readFile h) web
    · rename_i hweb
      exact isNormal_of_readAbsolute h special hweb
  · cases h

end Reading

section Writing

theorem mem_specialSchemes (h : isSpecialScheme scheme = true) :
    scheme ∈ ["http", "https", "ws", "wss", "ftp", "file"] := by
  obtain ⟨p, hp, hscheme⟩ := List.lookup_isSome_iff.mp h
  rw [eq_of_beq hscheme]
  exact List.mem_map_of_mem (f := Prod.fst) hp

/-- A special scheme is cut off as it stands. -/
theorem cutScheme?_special (h : isSpecialScheme scheme = true) (rest : List Char) :
    cutScheme? (scheme.toList ++ ':' :: rest) = some (scheme, rest) := by
  have hall : ∀ s ∈ ["http", "https", "ws", "wss", "ftp", "file"], ':' ∉ s.toList ∧
      (s.toList.head?.any Char.isAlpha && s.toList.all isSchemePart) = true ∧
      String.ofList (s.toList.map Char.toLower) = s := by decide
  obtain ⟨hcolon, hscheme, hlower⟩ := hall scheme (mem_specialSchemes h)
  rw [cutScheme?, cutAt_append hcolon]
  simp only
  rw [if_pos hscheme, hlower]

/-- A text without controls and spaces is not cleaned. -/
theorem clean_of_visible (h : ∀ c ∈ cs, 0x20 < c.toNat) : clean cs = cs := by
  have hkept : ∀ cs : List Char, (∀ c ∈ cs, 0x20 < c.toNat) →
      cs.dropWhile isControlOrSpace = cs := fun cs h => by
    cases cs with
    | nil => rfl
    | cons c cs =>
      refine List.dropWhile_cons_of_neg ?_
      have hc := h c List.mem_cons_self
      simp only [isControlOrSpace, decide_eq_true_eq]
      omega
  have hmarks : cs.filter (fun c => !isLineMark c) = cs := by
    refine List.filter_eq_self.mpr fun c hc => ?_
    have hc := h c hc
    simp only [isLineMark, Bool.not_eq_true', Bool.or_eq_false_iff, beq_eq_false_iff_ne]
    refine ⟨⟨?_, ?_⟩, ?_⟩ <;> rintro rfl <;> exact absurd hc (by decide)
  have hreverse := hkept cs.reverse fun c hc => h c (List.mem_reverse.mp hc)
  simp only [clean, hkept cs h, hreverse, List.reverse_reverse, hmarks]

theorem mem_markedText {mark : Char} {o : Option String} (h : c ∈ markedText mark o) :
    c = mark ∨ ∃ s, o = some s ∧ c ∈ s.toList := by
  cases o with
  | none => cases h
  | some s => exact (List.mem_cons.mp h).imp_right fun hc => ⟨s, rfl, hc⟩

/-- A text in front of its mark. -/
theorem cutAt_markedText {mark : Char} {o : Option String} (h : mark ∉ cs) :
    cutAt mark (cs ++ markedText mark o) = (cs, o.map String.toList) := by
  cases o with
  | none => exact (List.append_nil cs).symm ▸ cutAt_of_not_mem h
  | some s => exact cutAt_append h s.toList

def body (u : Url) : List Char := u.scheme.toList ++ ':' :: (u.authorityText ++ u.path.toText)

theorem toChars_eq (u : Url) :
    u.toChars = u.body ++ markedText '?' u.query ++ markedText '#' u.fragment := by
  simp [toChars, body]

theorem authorityText_of_host {host : Host} (h : u.host = some host) :
    u.authorityText = '/' :: '/' :: u.authority host := by
  rw [authorityText, h]
  rfl

theorem IsNormal.authority_of_host {host : Host} (h : u.IsNormal) (hhost : u.host = some host) :
    Authority.IsNormal u.scheme ⟨u.username, u.password, host, u.port⟩ := by
  obtain ⟨host', hhost', hauthority⟩ := h.authority
  obtain rfl := Option.some.inj (hhost.symm.trans hhost')
  exact hauthority

theorem IsNormal.mem_body (h : u.IsNormal) (hc : c ∈ u.body) :
    0x20 < c.toNat ∧ c ≠ '?' ∧ c ≠ '#' := by
  have hschemes : ∀ s ∈ ["http", "https", "ws", "wss", "ftp", "file"],
      (s.toList.all fun c => 0x20 < c.toNat ∧ c ≠ '?' ∧ c ≠ '#') = true := by decide
  have hscheme : ∀ c ∈ u.scheme.toList, 0x20 < c.toNat ∧ c ≠ '?' ∧ c ≠ '#' :=
    List.all_iff_forall_prop.mp (hschemes _ (mem_specialSchemes h.special))
  obtain ⟨host, hhost, hauthority⟩ := h.authority
  rw [body, authorityText_of_host hhost, List.mem_append, List.mem_cons, List.mem_append,
    List.mem_cons, List.mem_cons] at hc
  rcases hc with hc | rfl | (rfl | rfl | hc) | hc
  · exact hscheme c hc
  · decide
  · decide
  · decide
  · rcases mem_authority hauthority hc with hinside | rfl
    · exact ⟨Nat.lt_of_not_le fun hle => hinside (.inl hle),
        fun heq => hinside (heq ▸ by decide), fun heq => hinside (heq ▸ by decide)⟩
    · decide
  · obtain ⟨list, hlist, some, hsegments⟩ := h.path
    rw [hlist] at hc
    obtain ⟨s, hs, hc⟩ := List.mem_flatMap.mp hc
    rcases List.mem_cons.mp hc with rfl | hc
    · decide
    · exact unmarked_of_pathSet ((hsegments s hs).plain c hc).1

theorem IsNormal.visible (h : u.IsNormal) : ∀ c ∈ u.toChars, 0x20 < c.toNat := by
  intro c hc
  rw [toChars_eq, List.mem_append, List.mem_append] at hc
  rcases hc with (hc | hc) | hc
  · exact (h.mem_body hc).1
  · rcases mem_markedText hc with rfl | ⟨q, hquery, hc⟩
    · decide
    · exact visible_of_querySet (querySet_of_specialQuerySet (h.query q hquery c hc))
  · rcases mem_markedText hc with rfl | ⟨f, hfragment, hc⟩
    · decide
    · exact visible_of_fragmentSet (h.fragment f hfragment c hc)

/-- No part holds the mark of a later one. -/
theorem IsNormal.unmarked (h : u.IsNormal) :
    '?' ∉ u.body ∧ '#' ∉ u.body ++ markedText '?' u.query := by
  refine ⟨fun hmem => (h.mem_body hmem).2.1 rfl, fun hmem => ?_⟩
  rcases List.mem_append.mp hmem with hmem | hmem
  · exact (h.mem_body hmem).2.2 rfl
  · rcases mem_markedText hmem with heq | ⟨q, hquery, hmem⟩
    · exact absurd heq (by decide)
    · exact absurd (h.query q hquery '#' hmem) (by decide)

theorem IsNormal.partsOfText (h : u.IsNormal) :
    Parts.ofText u.toChars = ⟨u.body, u.query.map String.toList, u.fragment.map String.toList⟩ := by
  obtain ⟨hquery, hfragment⟩ := h.unmarked
  rw [Parts.ofText, clean_of_visible h.visible, toChars_eq, cutAt_markedText hfragment]
  simp only
  rw [cutAt_markedText hquery]

/-- No slash stands in an authority, and one starts the path. -/
theorem IsNormal.cut_authority {host : Host} (h : u.IsNormal) (hhost : u.host = some host) :
    (u.authority host ++ u.path.toText).takeWhile (fun c => !isSlash true c) = u.authority host ∧
      (u.authority host ++ u.path.toText).dropWhile (fun c => !isSlash true c) = u.path.toText ∧
      (u.authority host ++ u.path.toText).dropWhile (isSlash true) =
        u.authority host ++ u.path.toText := by
  have hauthority := h.authority_of_host hhost
  have hplain : ∀ c ∈ u.authority host, isSlash true c = false :=
    fun c => isSlash_of_mem_authority hauthority
  have hkept : ∀ c ∈ u.authority host, (!isSlash true c) = true := fun c hc => by
    rw [hplain c hc]
    rfl
  obtain ⟨list, hpath, some, -⟩ := h.path
  have htext : u.path.toText = '/' :: ((list.map String.toList).intersperse ['/']).flatten := by
    rw [hpath, toText_segments some]
  rw [htext]
  obtain ⟨htake, hdrop⟩ := cut_append_cons hkept '/' rfl _
  refine ⟨htake, hdrop, ?_⟩
  obtain ⟨c, cs, hcons⟩ := List.exists_cons_of_ne_nil (authority_ne_nil hauthority)
  rw [hcons] at hplain ⊢
  refine List.dropWhile_cons_of_neg ?_
  rw [hplain c List.mem_cons_self]
  exact Bool.false_ne_true

theorem IsNormal.readFromAuthority {host : Host} (h : u.IsNormal) (hhost : u.host = some host) :
    readFromAuthority u.scheme ⟨u.body, u.query.map String.toList, u.fragment.map String.toList⟩
      (u.authority host ++ u.path.toText) = .ok u := by
  obtain ⟨htake, hdrop, -⟩ := h.cut_authority hhost
  have hquery : (u.query.map String.toList).map (encodeQuery u.scheme) = u.query := by
    rw [Option.map_map]
    refine (Option.map_congr fun q hq => ?_).trans (congrFun Option.map_id _)
    rw [Function.comp_apply, encodeQuery, h.special, if_pos rfl,
      percentEncode_of_plain (h.query q hq), String.ofList_toList]
    rfl
  have hfragment : (u.fragment.map String.toList).map encodeFragment = u.fragment := by
    rw [Option.map_map]
    refine (Option.map_congr fun f hf => ?_).trans (congrFun Option.map_id _)
    rw [Function.comp_apply, encodeFragment, percentEncode_of_plain (h.fragment f hf),
      String.ofList_toList]
    rfl
  simp only [Url.readFromAuthority, h.special, htake, hdrop]
  rw [readAuthority_authority h.special (h.authority_of_host hhost)]
  simp only [ofParts, hquery, hfragment, readRootPath_toText h.special h.web h.path]
  exact congrArg (fun o => Except.ok { u with host := o }) hhost.symm

/-- A URL in normal form is what is read from its text. -/
theorem IsNormal.read_toChars (h : u.IsNormal) : read none u.toChars = .ok u := by
  obtain ⟨host, hhost, hauthority⟩ := h.authority
  have hbody : u.body =
      u.scheme.toList ++ ':' :: '/' :: '/' :: (u.authority host ++ u.path.toText) := by
    rw [body, authorityText_of_host hhost]
    rfl
  have hslashes : ('/' :: '/' :: (u.authority host ++ u.path.toText)).dropWhile (isSlash true) =
      u.authority host ++ u.path.toText := by
    rw [List.dropWhile_cons_of_pos rfl, List.dropWhile_cons_of_pos rfl]
    exact (h.cut_authority hhost).2.2
  rw [read, h.partsOfText]
  simp only
  rw [hbody, cutScheme?_special h.special]
  simp only
  rw [if_neg h.web, readAbsolute, if_pos h.special, hslashes, ← hbody]
  exact h.readFromAuthority hhost

theorem IsNormal.parse_toText (h : u.IsNormal) : parse u.toText = .ok u := by
  rw [parse, toText, String.toList_ofList]
  exact h.read_toChars

end Writing
end TokenWatch.Url
