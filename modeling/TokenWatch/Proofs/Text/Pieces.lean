import TokenWatch.Text.Pieces

/-!
The pieces of a text around a separator, and the text that has given pieces.
-/
namespace TokenWatch.Text

variable {sep c : Char} {p cs : List Char} {ps : List (List Char)}

theorem pieces_cons_self (sep : Char) (cs : List Char) :
    pieces sep (sep :: cs) = [] :: pieces sep cs := by
  simp [pieces, consPiece]

theorem pieces_cons_of_ne (h : c ≠ sep) {first : List Char} {rest : List (List Char)}
    (hcs : pieces sep cs = first :: rest) : pieces sep (c :: cs) = (c :: first) :: rest := by
  simp only [pieces, List.foldr_cons, consPiece, if_neg h] at hcs ⊢
  obtain ⟨hfirst, hrest⟩ := List.cons.inj hcs
  rw [hfirst, hrest]

theorem pieces_ne_nil (sep : Char) (cs : List Char) : pieces sep cs ≠ [] := by
  simp [pieces]

theorem pieces_append_separator (h : sep ∉ p) (cs : List Char) :
    pieces sep (p ++ sep :: cs) = p :: pieces sep cs := by
  induction p with
  | nil => exact pieces_cons_self sep cs
  | cons c p ih =>
    obtain ⟨hc, hp⟩ := List.ne_and_not_mem_of_not_mem_cons h
    exact pieces_cons_of_ne (Ne.symm hc) (ih hp)

theorem pieces_of_not_mem (h : sep ∉ p) : pieces sep p = [p] := by
  induction p with
  | nil => rfl
  | cons c p ih =>
    obtain ⟨hc, hp⟩ := List.ne_and_not_mem_of_not_mem_cons h
    exact pieces_cons_of_ne (Ne.symm hc) (ih hp)

/-- The pieces around the separator hold none. -/
theorem not_mem_of_mem_pieces (h : p ∈ pieces sep cs) : sep ∉ p := by
  induction cs generalizing p with
  | nil =>
    obtain rfl := List.mem_singleton.mp h
    exact List.not_mem_nil
  | cons c cs ih =>
    by_cases hc : c = sep
    · subst hc
      rw [pieces_cons_self] at h
      rcases List.mem_cons.mp h with rfl | h
      · exact List.not_mem_nil
      · exact ih h
    · cases hcs : pieces sep cs with
      | nil => exact absurd hcs (pieces_ne_nil sep cs)
      | cons first rest =>
        rw [hcs] at ih
        rw [pieces_cons_of_ne hc hcs] at h
        rcases List.mem_cons.mp h with rfl | h
        · exact List.not_mem_cons_of_ne_of_not_mem (Ne.symm hc) (ih List.mem_cons_self)
        · exact ih (List.mem_cons_of_mem _ h)

theorem mem_of_mem_pieces (h : p ∈ pieces sep cs) (hc : c ∈ p) : c ∈ cs := by
  induction cs generalizing p with
  | nil =>
    obtain rfl := List.mem_singleton.mp h
    exact hc
  | cons d cs ih =>
    by_cases hd : d = sep
    · rw [hd, pieces_cons_self] at h
      rcases List.mem_cons.mp h with rfl | h
      · cases hc
      · exact List.mem_cons_of_mem d (ih h hc)
    · cases hcs : pieces sep cs with
      | nil => exact absurd hcs (pieces_ne_nil sep cs)
      | cons first rest =>
        rw [hcs] at ih
        rw [pieces_cons_of_ne hd hcs] at h
        rcases List.mem_cons.mp h with rfl | h
        · rcases List.mem_cons.mp hc with rfl | hc
          · exact List.mem_cons_self
          · exact List.mem_cons_of_mem d (ih List.mem_cons_self hc)
        · exact List.mem_cons_of_mem d (ih (List.mem_cons_of_mem _ h) hc)

/-- A separator keeps what stands before it apart from what stands after it. -/
theorem pieces_append (sep : Char) (p cs : List Char) :
    pieces sep (p ++ sep :: cs) = pieces sep p ++ pieces sep cs := by
  induction p with
  | nil => exact pieces_cons_self sep cs
  | cons c p ih =>
    by_cases hc : c = sep
    · rw [hc, List.cons_append, pieces_cons_self, pieces_cons_self, ih]
      rfl
    · cases hp : pieces sep p with
      | nil => exact absurd hp (pieces_ne_nil sep p)
      | cons first rest =>
        rw [hp] at ih
        rw [List.cons_append, pieces_cons_of_ne hc ih, pieces_cons_of_ne hc hp]
        rfl

/-- Pieces with separators between them. -/
theorem pieces_join (some : ps ≠ []) (h : ∀ p ∈ ps, sep ∉ p) :
    pieces sep (ps.intersperse [sep]).flatten = ps := by
  induction ps with
  | nil => exact absurd rfl some
  | cons p ps ih =>
    obtain ⟨hp, hps⟩ := List.forall_mem_cons.mp h
    cases ps with
    | nil =>
      rw [List.intersperse_singleton, List.flatten_singleton]
      exact pieces_of_not_mem hp
    | cons q qs =>
      rw [List.intersperse_cons_cons, List.flatten_cons, List.flatten_cons, List.singleton_append,
        pieces_append_separator hp, ih nofun hps]

/-- The pieces with the separators back between them are the text. -/
theorem join_pieces (sep : Char) (cs : List Char) :
    ((pieces sep cs).intersperse [sep]).flatten = cs := by
  induction cs with
  | nil => rfl
  | cons c cs ih =>
    cases hcs : pieces sep cs with
    | nil => exact absurd hcs (pieces_ne_nil sep cs)
    | cons first rest =>
      rw [hcs] at ih
      by_cases hc : c = sep
      · rw [hc, pieces_cons_self, hcs, List.intersperse_cons_cons, List.flatten_cons,
          List.flatten_cons, ih]
        rfl
      · rw [pieces_cons_of_ne hc hcs]
        cases rest <;> simpa using ih

theorem mem_join (h : c ∈ (ps.intersperse [sep]).flatten) : c = sep ∨ ∃ p ∈ ps, c ∈ p := by
  induction ps with
  | nil => cases h
  | cons p ps ih =>
    cases ps with
    | nil =>
      rw [List.intersperse_singleton, List.flatten_singleton] at h
      exact .inr ⟨p, List.mem_cons_self, h⟩
    | cons q qs =>
      rw [List.intersperse_cons_cons, List.flatten_cons, List.flatten_cons, List.mem_append,
        List.mem_append] at h
      rcases h with hp | hsep | hrest
      · exact .inr ⟨p, List.mem_cons_self, hp⟩
      · exact .inl (List.mem_singleton.mp hsep)
      · rcases ih hrest with hsep | ⟨r, hr, hc⟩
        · exact .inl hsep
        · exact .inr ⟨r, List.mem_cons_of_mem p hr, hc⟩

end TokenWatch.Text
