import TokenWatch.Proofs.Url.Ipv4

/-!
Addresses of sixteen bytes are read back from their text, in which the longest run of zeros is left
out.
-/
namespace TokenWatch.Url.Host
open Text

variable {c : Char} {cs a b : List Char} {base n i j len : Nat} {ns front back : List Nat}

section Digits

def hexDigits : List Char := (List.range 16).map Nat.digitChar

theorem mem_hexDigits_of_mem_toDigits (h : c ∈ Nat.toDigits 16 n) : c ∈ hexDigits := by
  obtain ⟨d, hd, rfl⟩ := exists_of_mem_toDigits (by decide) h
  exact List.mem_map_of_mem (List.mem_range.mpr hd)

theorem ipv6Piece?_toDigits (h : n < 65536) : ipv6Piece? (Nat.toDigits 16 n) = some n := by
  have hlength : (Nat.toDigits 16 n).length ≤ 4 :=
    (Nat.length_toDigits_le_iff (by decide) (by decide)).mpr h
  rw [ipv6Piece?, if_neg (not_or.mpr ⟨Nat.toDigits_ne_nil, Nat.not_lt_of_le hlength⟩)]
  exact digitsValue?_toDigits (by decide) (by decide) n

theorem lt_of_foldlM {acc : Nat} (h : cs.foldlM
    (fun n c => ((hexValue? c).filter (· < base)).map (base * n + ·)) acc = some n) :
    n < base ^ cs.length * (acc + 1) := by
  induction cs generalizing acc with
  | nil =>
    obtain rfl := Option.some.inj h
    simp
  | cons c cs ih =>
    rw [List.foldlM_cons] at h
    obtain ⟨m, hm, hrest⟩ := Option.bind_eq_some_iff.mp h
    obtain ⟨d, hd, rfl⟩ := Option.map_eq_some_iff.mp hm
    have hlt : d < base := of_decide_eq_true (Option.filter_eq_some_iff.mp hd).2
    refine Nat.lt_of_lt_of_le (ih hrest) ?_
    rw [List.length_cons, Nat.pow_succ, Nat.mul_assoc]
    refine Nat.mul_le_mul_left _ ?_
    rw [Nat.mul_add]
    omega

theorem lt_of_ipv6Piece? (h : ipv6Piece? cs = some n) : n < 65536 := by
  unfold ipv6Piece? at h
  split at h
  · cases h
  · rename_i hshort
    have hlength : cs.length ≤ 4 := Nat.le_of_not_lt (not_or.mp hshort).2
    have hlt := lt_of_foldlM h
    rw [Nat.zero_add, Nat.mul_one] at hlt
    exact Nat.lt_of_lt_of_le hlt (Nat.pow_le_pow_right (by decide) hlength)

end Digits

section Colons

theorem cutDoubleColon_eq (h : cutDoubleColon cs = some (a, b)) : cs = a ++ ':' :: ':' :: b := by
  fun_induction cutDoubleColon cs generalizing a b with
  | case1 rest =>
    cases h
    rfl
  | case2 c rest hne ih =>
    obtain ⟨⟨a', b'⟩, hcut, heq⟩ := Option.map_eq_some_iff.mp h
    cases heq
    rw [ih hcut]
    rfl
  | case3 => cases h

/-- A text without an empty piece has no double colon. -/
theorem cutDoubleColon_eq_none (h : [] ∉ pieces ':' cs) : cutDoubleColon cs = none := by
  cases hcut : cutDoubleColon cs with
  | none => rfl
  | some cut =>
    obtain ⟨a, b⟩ := cut
    refine absurd ?_ h
    rw [cutDoubleColon_eq hcut, pieces_append, pieces_cons_self]
    exact List.mem_append_right _ List.mem_cons_self

theorem cutDoubleColon_cons (h : ∀ rest, c :: cs ≠ ':' :: ':' :: rest) :
    cutDoubleColon (c :: cs) = (cutDoubleColon cs).map fun (a, b) => (c :: a, b) := by
  rw [cutDoubleColon]
  rintro rest rfl rfl
  exact h rest rfl

/-- The first double colon is where the pieces before it end. -/
theorem cutDoubleColon_append (h : [] ∉ (pieces ':' a).tail) (b : List Char) :
    cutDoubleColon (a ++ ':' :: ':' :: b) = some (a, b) := by
  induction a with
  | nil => rfl
  | cons c a ih =>
    cases hpieces : pieces ':' a with
    | nil => exact absurd hpieces (pieces_ne_nil ':' a)
    | cons first rest =>
      have hrest : [] ∉ rest ∧ (c = ':' → first ≠ []) := by
        by_cases hc : c = ':'
        · rw [hc, pieces_cons_self, hpieces, List.tail_cons, List.mem_cons, not_or] at h
          exact ⟨h.2, fun _ => Ne.symm h.1⟩
        · rw [pieces_cons_of_ne hc hpieces] at h
          exact ⟨h, fun heq => absurd heq hc⟩
      have hcut := ih (by rw [hpieces]; exact hrest.1)
      rw [List.cons_append, cutDoubleColon_cons, hcut]
      · rfl
      · rintro tail heq
        obtain ⟨hc, htail⟩ := List.cons.inj heq
        cases a with
        | nil =>
          cases hpieces
          exact hrest.2 hc rfl
        | cons d a =>
          obtain ⟨rfl, -⟩ := List.cons.inj htail
          rw [pieces_cons_self] at hpieces
          exact hrest.2 hc (List.cons.inj hpieces).1.symm

end Colons

section Sides

theorem not_mem_hexDigits : ':' ∉ hexDigits ∧ '.' ∉ hexDigits := by decide

theorem pieces_ipv6Pieces (h : ns ≠ []) :
    pieces ':' (ipv6Pieces ns) = ns.map (Nat.toDigits 16) := by
  refine pieces_join (by simpa using h) fun p hp hcolon => ?_
  obtain ⟨n, -, rfl⟩ := List.mem_map.mp hp
  exact not_mem_hexDigits.1 (mem_hexDigits_of_mem_toDigits hcolon)

theorem not_mem_map_toDigits (ns : List Nat) : [] ∉ ns.map (Nat.toDigits 16) := by
  intro hmem
  obtain ⟨n, -, hn⟩ := List.mem_map.mp hmem
  exact Nat.toDigits_ne_nil hn

theorem tail_pieces_ipv6Pieces (ns : List Nat) : [] ∉ (pieces ':' (ipv6Pieces ns)).tail := by
  by_cases hns : ns = []
  · rw [hns]
    exact List.not_mem_nil
  · rw [pieces_ipv6Pieces hns]
    exact fun hmem => not_mem_map_toDigits ns (List.mem_of_mem_tail hmem)

theorem ipv6Side?_ipv6Pieces (last : Bool) (small : ∀ n ∈ ns, n < 65536) :
    ipv6Side? last (ipv6Pieces ns) = some ns := by
  by_cases hns : ns = []
  · rw [hns]
    rfl
  · have hpieces := pieces_ipv6Pieces hns
    have hne : ipv6Pieces ns ≠ [] := by
      intro hnil
      rw [hnil] at hpieces
      have hmem : [] ∈ ns.map (Nat.toDigits 16) := hpieces ▸ List.mem_singleton_self []
      exact not_mem_map_toDigits ns hmem
    have hlast : (ns.map (Nat.toDigits 16)).getLast? =
        some (Nat.toDigits 16 (ns.getLast hns)) := by
      rw [List.getLast?_map, List.getLast?_eq_some_getLast hns]
      rfl
    have hdotless : '.' ∉ Nat.toDigits 16 (ns.getLast hns) :=
      fun hdot => not_mem_hexDigits.2 (mem_hexDigits_of_mem_toDigits hdot)
    rw [ipv6Side?, if_neg hne]
    simp only [hpieces, hlast]
    rw [if_neg fun h => hdotless h.2]
    exact mapM_map_some _ fun n hn => ipv6Piece?_toDigits (small n hn)

theorem lt_of_ipv6Tail? (h : ipv6Tail? cs = some ns) : ∀ n ∈ ns, n < 65536 := by
  unfold ipv6Tail? at h
  obtain ⟨bytes, hbytes, h⟩ := Option.bind_eq_some_iff.mp h
  have hsmall : ∀ k ∈ bytes, k < 256 := fun k hk => by
    obtain ⟨part, -, hpart⟩ := exists_of_mem_mapM hbytes hk
    split at hpart
    · exact of_decide_eq_true (Option.filter_eq_some_iff.mp hpart).2
    · cases hpart
  split at h
  · rename_i w x y z
    obtain rfl := Option.some.inj h
    have hw := hsmall w (by simp)
    have hx := hsmall x (by simp)
    have hy := hsmall y (by simp)
    have hz := hsmall z (by simp)
    intro n hn
    simp only [List.mem_cons, List.not_mem_nil, or_false] at hn
    omega
  · cases h

theorem lt_of_ipv6Side? {last : Bool} (h : ipv6Side? last cs = some ns) : ∀ n ∈ ns, n < 65536 := by
  have hpieces : ∀ {parts : List (List Char)} {ns : List Nat}, parts.mapM ipv6Piece? = some ns →
      ∀ n ∈ ns, n < 65536 := fun hmap n hn => by
    obtain ⟨part, -, hpart⟩ := exists_of_mem_mapM hmap hn
    exact lt_of_ipv6Piece? hpart
  unfold ipv6Side? at h
  split at h
  · obtain rfl := Option.some.inj h
    exact List.forall_mem_nil _
  · simp only at h
    split at h
    · cases h
    · split at h
      · obtain ⟨front, hfront, h⟩ := Option.bind_eq_some_iff.mp h
        obtain ⟨back, hback, h⟩ := Option.bind_eq_some_iff.mp h
        obtain rfl := Option.some.inj h
        exact List.forall_mem_append.mpr ⟨hpieces hfront, lt_of_ipv6Tail? hback⟩
      · exact hpieces h

end Sides

section Zeros

theorem zeroRun_spec (ns : List Nat) :
    ns = List.replicate (zeroRun ns) 0 ++ ns.drop (zeroRun ns) := by
  induction ns with
  | nil => rfl
  | cons n ns ih =>
    by_cases hn : n = 0
    · subst hn
      exact congrArg (0 :: ·) ih
    · have hnone : zeroRun (n :: ns) = 0 := by
        rw [zeroRun, List.takeWhile_cons_of_neg (by simpa using hn)]
        rfl
      rw [hnone]
      rfl

/-- What is left out is a run of zeros. -/
theorem longestZeros_spec (h : longestZeros i ns = (j, len)) (some : 0 < len) :
    ∃ front back, ns = front ++ List.replicate len 0 ++ back ∧ j = i + front.length := by
  induction ns generalizing i with
  | nil =>
    cases h
    exact absurd some (Nat.lt_irrefl 0)
  | cons n ns ih =>
    simp only [longestZeros] at h
    split at h
    · cases h
      exact ⟨[], _, zeroRun_spec _, rfl⟩
    · obtain ⟨front, back, hns, hj⟩ := ih h
      refine ⟨n :: front, back, ?_, ?_⟩
      · rw [hns]
        rfl
      · rw [hj, List.length_cons]
        omega

end Zeros

section Addresses

theorem ipv6?_ipv6Text (h : ns.length = 8) (small : ∀ n ∈ ns, n < 65536) :
    ipv6? (ipv6Text ns) = some ns := by
  have hwhole : ipv6? (ipv6Pieces ns) = some ns := by
    have hne : ns ≠ [] := by
      rintro rfl
      cases h
    have hnone : cutDoubleColon (ipv6Pieces ns) = none := by
      refine cutDoubleColon_eq_none ?_
      rw [pieces_ipv6Pieces hne]
      exact not_mem_map_toDigits ns
    rw [ipv6?, hnone]
    simp only [ipv6Side?_ipv6Pieces true small]
    exact Option.filter_eq_some_iff.mpr ⟨rfl, decide_eq_true h⟩
  cases hzeros : longestZeros 0 ns with
  | mk start len =>
    simp only [ipv6Text, hzeros]
    split
    · exact hwhole
    · rename_i hlen
      obtain ⟨front, back, hns, hstart⟩ := longestZeros_spec hzeros (by omega)
      rw [Nat.zero_add] at hstart
      have htake : ns.take start = front := by
        rw [hns, hstart, List.append_assoc, List.take_left]
      have hdrop : ns.drop (start + len) = back := by
        rw [hns, hstart]
        exact List.drop_left' (by simp)
      have hlength := congrArg List.length hns
      rw [List.length_append, List.length_append, List.length_replicate, h] at hlength
      have hsmall := small
      rw [hns, List.forall_mem_append, List.forall_mem_append] at hsmall
      rw [htake, hdrop, ipv6?, cutDoubleColon_append (tail_pieces_ipv6Pieces front)]
      simp only [ipv6Side?_ipv6Pieces _ hsmall.1.1, ipv6Side?_ipv6Pieces _ hsmall.2]
      rw [Option.bind_eq_bind, Option.bind_some, Option.bind_some, if_pos (by omega)]
      rw [show 8 - front.length - back.length = len by omega, ← hns]

theorem of_ipv6? (h : ipv6? cs = some ns) : ns.length = 8 ∧ ∀ n ∈ ns, n < 65536 := by
  unfold ipv6? at h
  split at h
  · obtain ⟨hside, hlength⟩ := Option.filter_eq_some_iff.mp h
    exact ⟨of_decide_eq_true hlength, lt_of_ipv6Side? hside⟩
  · obtain ⟨front, hfront, h⟩ := Option.bind_eq_some_iff.mp h
    obtain ⟨back, hback, h⟩ := Option.bind_eq_some_iff.mp h
    split at h
    · rename_i hfew
      obtain rfl := Option.some.inj h
      refine ⟨?_, ?_⟩
      · rw [List.length_append, List.length_append, List.length_replicate]
        omega
      · refine List.forall_mem_append.mpr ⟨List.forall_mem_append.mpr ⟨lt_of_ipv6Side? hfront, ?_⟩,
          lt_of_ipv6Side? hback⟩
        intro n hn
        rw [List.eq_of_mem_replicate hn]
        decide
    · cases h

theorem mem_ipv6Text (h : c ∈ ipv6Text ns) : c = ':' ∨ c ∈ hexDigits := by
  have hpieces : ∀ {ns : List Nat}, c ∈ ipv6Pieces ns → c = ':' ∨ c ∈ hexDigits := fun hc => by
    rcases mem_join hc with hcolon | ⟨p, hp, hc⟩
    · exact .inl hcolon
    · obtain ⟨n, -, rfl⟩ := List.mem_map.mp hp
      exact .inr (mem_hexDigits_of_mem_toDigits hc)
  simp only [ipv6Text] at h
  split at h
  · exact hpieces h
  · simp only [List.mem_append, List.mem_cons] at h
    rcases h with h | h | h | h
    · exact hpieces h
    · exact .inl h
    · exact .inl h
    · exact hpieces h

end Addresses
end TokenWatch.Url.Host
