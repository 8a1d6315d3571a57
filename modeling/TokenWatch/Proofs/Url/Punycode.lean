import TokenWatch.Url.Punycode

/-!
Labels outside ASCII are read back from their ASCII form.
-/
namespace TokenWatch.Url.Punycode

variable {bias k q weight acc fuel n m basic : Nat} {c : Char} {cs rest pre suf : List Char}

section Numbers

def digits : List Char := (List.range 36).map digit

theorem digitValue?_digit (h : n < 36) : digitValue? (digit n) = some n := by
  have hall : ∀ n < 36, digitValue? (digit n) = some n := by decide
  exact hall n h

theorem threshold_spec (k bias : Nat) : 1 ≤ threshold k bias ∧ threshold k bias ≤ 26 := by
  unfold threshold
  omega

theorem mem_digits_of_mem_writeNumber (h : c ∈ writeNumber bias k q fuel) : c ∈ digits := by
  induction fuel generalizing k q with
  | zero => cases h
  | succ fuel ih =>
    obtain ⟨hpos, hle⟩ := threshold_spec k bias
    simp only [writeNumber] at h
    split at h
    · obtain rfl := List.mem_singleton.mp h
      exact List.mem_map_of_mem (List.mem_range.mpr (by omega))
    · rcases List.mem_cons.mp h with rfl | h
      · have hmod := Nat.mod_lt (q - threshold k bias) (y := 36 - threshold k bias) (by omega)
        exact List.mem_map_of_mem (List.mem_range.mpr (by omega))
      · exact ih h

theorem writeNumber_ne_nil (bias k q fuel : Nat) : writeNumber bias k q (fuel + 1) ≠ [] := by
  simp only [writeNumber]
  split <;> exact nofun

theorem readNumber?_writeNumber (h : q < fuel) (weight acc : Nat) (rest : List Char) :
    readNumber? bias k weight acc (writeNumber bias k q fuel ++ rest) =
      some (acc + q * weight, rest) := by
  induction fuel generalizing k q weight acc with
  | zero => exact absurd h (Nat.not_lt_zero q)
  | succ fuel ih =>
    obtain ⟨hpos, hle⟩ := threshold_spec k bias
    rw [writeNumber]
    split
    · rename_i hsmall
      rw [List.singleton_append, readNumber?, digitValue?_digit (by omega)]
      exact if_pos hsmall
    · rename_i hlarge
      have hmod := Nat.mod_lt (q - threshold k bias) (y := 36 - threshold k bias) (by omega)
      have hsplit := Nat.div_add_mod (q - threshold k bias) (36 - threshold k bias)
      have hless : (q - threshold k bias) / (36 - threshold k bias) ≤ q - threshold k bias :=
        Nat.div_le_self _ _
      rw [List.cons_append, readNumber?, digitValue?_digit (by omega)]
      simp only
      rw [if_neg (by omega), ih (by omega)]
      congr 2
      generalize threshold k bias = t at *
      generalize (q - t) / (36 - t) = d at *
      generalize (q - t) % (36 - t) = r at *
      have hq : q = t + r + d * (36 - t) := by rw [Nat.mul_comm] at hsplit; omega
      have hproduct : q * weight = (t + r) * weight + d * (weight * (36 - t)) := by
        rw [hq, Nat.add_mul, Nat.mul_assoc, Nat.mul_comm (36 - t)]
      rw [hproduct, Nat.add_assoc]

end Numbers

section Reading

structure Reader where
  n : Nat
  i : Nat
  bias : Nat
  output : List Char

def Reader.run? (r : Reader) (count : Nat) (cs : List Char) : Option (List Char) :=
  insertRead? count r.n r.i r.bias r.output cs

/-- The character `m` is put in at the place `q`, for a number that was read. -/
def Reader.insert (r : Reader) (m q number : Nat) : Reader :=
  ⟨m, q + 1, adapt number (r.output.length + 1) (r.i == 0),
    r.output.take q ++ Char.ofNat m :: r.output.drop q⟩

theorem run?_insert {r : Reader} {number : Nat} (q : Nat)
    (hnumber : r.i + number = (m - r.n) * (r.output.length + 1) + q) (hq : q ≤ r.output.length)
    (hn : r.n ≤ m) (valid : m.isValidChar) (count : Nat) (rest : List Char) :
    r.run? (count + 1) (writeNumber r.bias 36 number (number + 1) ++ rest) =
      (r.insert m q number).run? count rest := by
  have hdiv : (r.i + number) / (r.output.length + 1) = m - r.n := by
    rw [hnumber, Nat.mul_comm, Nat.mul_add_div (by omega), Nat.div_eq_of_lt (by omega),
      Nat.add_zero]
  have hmod : (r.i + number) % (r.output.length + 1) = q := by
    rw [hnumber, Nat.mul_comm, Nat.mul_add_mod, Nat.mod_eq_of_lt (by omega)]
  obtain ⟨d, ds, hne⟩ := List.exists_cons_of_ne_nil (writeNumber_ne_nil r.bias 36 number number)
  rw [Reader.run?, Reader.run?, insertRead?]
  · rw [readNumber?_writeNumber (Nat.lt_succ_self number)]
    simp only [Nat.zero_add, Nat.mul_one, hdiv, hmod, Nat.add_sub_cancel' hn]
    exact if_pos valid
  · rw [hne]
    exact nofun

end Reading

section Writing

variable {s s' s'' : State} {r r' r'' : Reader}

/-- The writer goes on from one state to another, and what it writes takes a reader along. -/
def Emits (s s' : State) (r r' : Reader) : Prop :=
  ∃ xs k, s'.output = s.output ++ xs ∧ (∀ c ∈ xs, c ∈ digits) ∧ k ≤ xs.length ∧
    ∀ count rest, r.run? (count + k) (xs ++ rest) = r'.run? count rest

theorem emits_of_same (h : s'.output = s.output) (r : Reader) : Emits s s' r r :=
  ⟨[], 0, by rw [h, List.append_nil], List.forall_mem_nil _, Nat.le_refl 0, fun _ _ => rfl⟩

theorem Emits.trans (h : Emits s s' r r') (h' : Emits s' s'' r' r'') : Emits s s'' r r'' := by
  obtain ⟨xs, k, hxs, hdigits, hk, hrun⟩ := h
  obtain ⟨ys, l, hys, hdigits', hl, hrun'⟩ := h'
  refine ⟨xs ++ ys, l + k, ?_, List.forall_mem_append.mpr ⟨hdigits, hdigits'⟩, ?_, ?_⟩
  · rw [hys, hxs, List.append_assoc]
  · rw [List.length_append]
    omega
  · intro count rest
    rw [← Nat.add_assoc, List.append_assoc, hrun, hrun']

theorem passOver_cons (basic m : Nat) (c : Char) (cs : List Char) (s : State) :
    passOver basic m (c :: cs) s = passOver basic m cs (passOver basic m [c] s) := rfl

theorem passOver_of_lt (h : c.toNat < m) (s : State) :
    passOver basic m [c] s = { s with delta := s.delta + 1 } := if_pos h

theorem passOver_of_gt (h : m < c.toNat) (s : State) : passOver basic m [c] s = s :=
  (if_neg (Nat.lt_asymm h)).trans (if_neg (Nat.ne_of_gt h))

theorem passOver_of_eq (s : State) :
    passOver basic c.toNat [c] s =
      { delta := 0
        bias := adapt s.delta (s.written + 1) (s.written == basic)
        written := s.written + 1
        output := s.output ++ writeNumber s.bias 36 s.delta (s.delta + 1) } :=
  (if_neg (Nat.lt_irrefl _)).trans (if_pos rfl)

end Writing

section Matching

variable {s : State} {r : Reader}

/-- The characters below a code point. -/
def below (n : Nat) (cs : List Char) : List Char := cs.filter (·.toNat < n)

/-- A writer that passes over a text for the code point `m` and has `suf` before it, and a reader of
what it has written. -/
structure Together (basic m : Nat) (pre suf : List Char) (s : State) (r : Reader) : Prop where
  output : r.output = below (m + 1) pre ++ below m suf
  written : s.written = r.output.length
  bias : r.bias = s.bias
  n_le : r.n ≤ m
  position : r.i + s.delta = (m - r.n) * (r.output.length + 1) + (below (m + 1) pre).length
  first : (r.i == 0) = (s.written == basic)
  basic_le : basic ≤ s.written

theorem below_concat_of_lt (h : c.toNat < n) (cs : List Char) :
    below n (cs ++ [c]) = below n cs ++ [c] := by
  simp [below, h]

theorem below_concat_of_le (h : n ≤ c.toNat) (cs : List Char) :
    below n (cs ++ [c]) = below n cs := by
  simp [below, h]

theorem below_cons_of_lt (h : c.toNat < n) (cs : List Char) :
    below n (c :: cs) = c :: below n cs := by
  simp [below, h]

theorem below_cons_of_le (h : n ≤ c.toNat) (cs : List Char) : below n (c :: cs) = below n cs := by
  simp [below, h]

theorem Together.visit (h : Together basic m pre (c :: suf) s r) :
    ∃ r', Emits s (passOver basic m [c] s) r r' ∧
      Together basic m (pre ++ [c]) suf (passOver basic m [c] s) r' := by
  rcases Nat.lt_trichotomy c.toNat m with hlt | rfl | hgt
  · rw [passOver_of_lt hlt]
    refine ⟨r, emits_of_same rfl r, ?_, h.written, h.bias, h.n_le, ?_, h.first, h.basic_le⟩
    · rw [h.output, below_cons_of_lt hlt, below_concat_of_lt (Nat.lt_succ_of_lt hlt),
        List.append_assoc]
      rfl
    · rw [below_concat_of_lt (Nat.lt_succ_of_lt hlt), List.length_append, ← Nat.add_assoc,
        ← Nat.add_assoc, h.position]
      rfl
  · rw [passOver_of_eq]
    have houtput := h.output
    rw [below_cons_of_le (Nat.le_refl _)] at houtput
    have htake : r.output.take (below (c.toNat + 1) pre).length = below (c.toNat + 1) pre := by
      rw [houtput, List.take_left]
    have hdrop : r.output.drop (below (c.toNat + 1) pre).length = below c.toNat suf := by
      rw [houtput, List.drop_left]
    have hlength := congrArg List.length houtput
    rw [List.length_append] at hlength
    let q := (below (c.toNat + 1) pre).length
    have hinsert : (r.insert c.toNat q s.delta).output =
        below (c.toNat + 1) (pre ++ [c]) ++ below c.toNat suf := by
      rw [Reader.insert, htake, hdrop, below_concat_of_lt (Nat.lt_succ_self _), Char.ofNat_toNat,
        List.append_assoc]
      rfl
    have hlonger : (r.insert c.toNat q s.delta).output.length = s.written + 1 := by
      rw [hinsert, h.written, hlength, below_concat_of_lt (Nat.lt_add_one _), List.length_append,
        List.length_append]
      exact Nat.add_right_comm _ _ _
    refine ⟨r.insert c.toNat q s.delta, ⟨_, 1, rfl, fun _ => mem_digits_of_mem_writeNumber, ?_, ?_⟩,
      hinsert, hlonger.symm, ?_, Nat.le_refl _, ?_, ?_, Nat.le_succ_of_le h.basic_le⟩
    · exact List.length_pos_iff.mpr (writeNumber_ne_nil _ _ _ _)
    · rw [← h.bias]
      exact run?_insert _ h.position (by omega) h.n_le c.valid
    · rw [← h.first, h.written]
      rfl
    · rw [below_concat_of_lt (Nat.lt_succ_self _), List.length_append]
      simp [Reader.insert, q]
    · have hnew : s.written + 1 ≠ basic := Nat.ne_of_gt (Nat.lt_succ_of_le h.basic_le)
      exact (beq_eq_false_iff_ne.mpr (Nat.succ_ne_zero q)).trans (beq_eq_false_iff_ne.mpr hnew).symm
  · rw [passOver_of_gt hgt]
    refine ⟨r, emits_of_same rfl r, ?_, h.written, h.bias, h.n_le, ?_, h.first, h.basic_le⟩
    · rw [h.output, below_cons_of_le (Nat.le_of_lt hgt), below_concat_of_le hgt]
    · rw [below_concat_of_le hgt, h.position]

theorem Together.passOver (h : Together basic m pre suf s r) :
    ∃ r', Emits s (passOver basic m suf s) r r' ∧
      Together basic m (pre ++ suf) [] (passOver basic m suf s) r' := by
  induction suf generalizing pre s r with
  | nil => exact ⟨r, emits_of_same rfl r, (List.append_nil pre).symm ▸ h⟩
  | cons c suf ih =>
    obtain ⟨u, hemits, hu⟩ := h.visit
    obtain ⟨v, hemits', hv⟩ := ih hu
    rw [passOver_cons]
    rw [List.append_assoc] at hv
    exact ⟨v, hemits.trans hemits', hv⟩

/-- After a pass the writer counts one step to the next code point. -/
theorem Together.next (h : Together basic m cs [] s r) :
    Together basic (m + 1) [] cs { s with delta := s.delta + 1 } r := by
  have houtput : r.output = below (m + 1) cs := h.output.trans (List.append_nil _)
  refine ⟨houtput, h.written, h.bias, Nat.le_succ_of_le h.n_le, ?_, h.first, h.basic_le⟩
  have hposition := h.position
  rw [← houtput] at hposition
  rw [Nat.succ_sub h.n_le, Nat.succ_mul, ← Nat.add_assoc, hposition, Nat.add_assoc]
  rfl

/-- Code points that are not in the text are passed over at once. -/
theorem Together.skip (h : Together basic n [] cs s r) (hnm : n ≤ m)
    (none : ∀ c ∈ cs, n ≤ c.toNat → m ≤ c.toNat) :
    Together basic m [] cs { s with delta := s.delta + (m - n) * (s.written + 1) } r := by
  have hbelow : below m cs = below n cs := by
    refine List.filter_congr fun c hc => decide_eq_decide.mpr ⟨fun hlt => ?_, fun hlt => ?_⟩
    · exact Nat.lt_of_not_le fun hle => Nat.lt_irrefl _ (Nat.lt_of_lt_of_le hlt (none c hc hle))
    · exact Nat.lt_of_lt_of_le hlt hnm
  refine ⟨?_, h.written, h.bias, Nat.le_trans h.n_le hnm, ?_, h.first, h.basic_le⟩
  · rw [hbelow]
    exact h.output
  · have hsplit : m - r.n = (n - r.n) + (m - n) := by
      have hn := h.n_le
      omega
    rw [hsplit, Nat.add_mul, ← h.written, ← Nat.add_assoc, h.position, h.written]
    exact Nat.add_right_comm _ _ _

/-- What was written for all code points in order makes up the text. -/
theorem Together.insertAll {ms : List Nat} (h : Together basic n [] cs s r)
    (increasing : ms.Pairwise (· < ·)) (least : ∀ m ∈ ms, n ≤ m)
    (complete : ∀ c ∈ cs, n ≤ c.toNat → c.toNat ∈ ms) :
    ∃ r', Emits s (insertAll basic cs ms n s) r r' ∧ r'.output = cs := by
  induction ms generalizing n s r with
  | nil =>
    refine ⟨r, emits_of_same rfl r, h.output.trans ?_⟩
    refine List.filter_eq_self.mpr fun c hc => decide_eq_true (Nat.lt_of_not_le fun hle => ?_)
    exact List.not_mem_nil (complete c hc hle)
  | cons m ms ih =>
    obtain ⟨hfirst, hrest⟩ := List.pairwise_cons.mp increasing
    have hskip := h.skip (least m List.mem_cons_self) fun c hc hle => by
      rcases List.mem_cons.mp (complete c hc hle) with heq | hmem
      · exact Nat.le_of_eq heq.symm
      · exact Nat.le_of_lt (hfirst _ hmem)
    obtain ⟨u, hemits, hu⟩ := hskip.passOver
    obtain ⟨v, hemits', hv⟩ := ih hu.next hrest hfirst fun c hc hle => by
      rcases List.mem_cons.mp (complete c hc (by have := least m List.mem_cons_self; omega))
        with heq | hmem
      · exact absurd hle (by omega)
      · exact hmem
    exact ⟨v, (emits_of_same rfl r).trans (hemits.trans ((emits_of_same rfl u).trans hemits')), hv⟩

end Matching

section Labels

theorem mem_distinct {ns : List Nat} : n ∈ distinct ns ↔ n ∈ ns := by
  fun_induction distinct ns with
  | case1 b rest ih => simp [ih]
  | case2 a b rest hne ih => simp [ih]
  | case3 short => exact Iff.rfl

theorem pairwise_distinct {ns : List Nat} (h : ns.Pairwise (· ≤ ·)) :
    (distinct ns).Pairwise (· < ·) := by
  fun_induction distinct ns with
  | case1 b rest ih => exact ih (List.pairwise_cons.mp h).2
  | case2 a b rest hne ih =>
    obtain ⟨hfirst, hrest⟩ := List.pairwise_cons.mp h
    refine List.pairwise_cons.mpr ⟨fun n hn => ?_, ih hrest⟩
    have hab : a ≤ b := hfirst b List.mem_cons_self
    rcases List.mem_cons.mp (mem_distinct.mp hn) with rfl | hmem
    · omega
    · have hbn := (List.pairwise_cons.mp hrest).1 n hmem
      omega
  | case3 short hshort =>
    match short, hshort with
    | [], _ => exact .nil
    | [a], _ => exact List.pairwise_singleton _ a
    | a :: b :: rest, hshort => exact absurd rfl (hshort a b rest)

def front (cs : List Char) : List Char :=
  if below 0x80 cs = [] then [] else below 0x80 cs ++ ['-']

theorem mem_front (h : c ∈ front cs) : c ∈ cs ∧ c.toNat < 0x80 ∨ c = '-' := by
  have hbelow : ∀ d ∈ below 0x80 cs, d ∈ cs ∧ d.toNat < 0x80 := fun d hd => by
    simpa [below] using hd
  unfold front at h
  split at h
  · cases h
  · rcases List.mem_append.mp h with h | h
    · exact .inl (hbelow c h)
    · exact .inr (List.mem_singleton.mp h)

theorem encodeLabel_of_ascii (h : ∀ c ∈ cs, c.toNat < 0x80) : encodeLabel cs = cs :=
  if_pos (List.length_filter_eq_length_iff.mpr fun c hc => decide_eq_true (h c hc))

theorem not_mem_digits : '-' ∉ digits := by decide

theorem decode?_front {xs : List Char} (h : ∀ c ∈ xs, c ∈ digits) :
    decode? (front cs ++ xs) = insertRead? xs.length 0x80 0 72 (below 0x80 cs) xs := by
  have hxs : ∀ c ∈ xs.reverse, decide (c ≠ '-') = true := fun c hc => by
    refine decide_eq_true fun heq => not_mem_digits (heq ▸ h c (List.mem_reverse.mp hc))
  have hfront : (front cs).reverse.takeWhile (· ≠ '-') = [] ∧
      (front cs).dropLast = below 0x80 cs := by
    unfold front
    split
    · rename_i hnone
      exact ⟨rfl, hnone.symm⟩
    · exact ⟨by rw [List.reverse_append]; rfl, List.dropLast_concat⟩
  have htail : ((front cs ++ xs).reverse.takeWhile (· ≠ '-')).reverse = xs := by
    rw [List.reverse_append, List.takeWhile_append_of_pos hxs, hfront.1, List.append_nil,
      List.reverse_reverse]
  simp only [decode?, htail]
  rw [List.length_append, Nat.add_sub_cancel, List.take_left, hfront.2]

/-- A label outside ASCII is written with its ASCII characters, a hyphen, and letters and digits; it
is what is read from that. -/
theorem encodeLabel_spec (h : ∃ c ∈ cs, 0x80 ≤ c.toNat) :
    ∃ xs, encodeLabel cs = mark ++ (front cs ++ xs) ∧ (∀ c ∈ xs, c ∈ digits) ∧
      decode? (front cs ++ xs) = some cs := by
  have hnot : (below 0x80 cs).length ≠ cs.length := by
    obtain ⟨c, hc, hlarge⟩ := h
    intro heq
    have hsmall := List.length_filter_eq_length_iff.mp heq c hc
    exact Nat.not_lt_of_le hlarge (of_decide_eq_true hsmall)
  let others := distinct (((cs.filter fun c => 0x80 ≤ c.toNat).map Char.toNat).mergeSort)
  have hmem : ∀ n, n ∈ others ↔ ∃ c ∈ cs, 0x80 ≤ c.toNat ∧ c.toNat = n := fun n => by
    simp [others, mem_distinct, and_assoc]
  have hstart : Together (below 0x80 cs).length 0x80 [] cs ⟨0, 72, (below 0x80 cs).length, front cs⟩
      ⟨0x80, 0, 72, below 0x80 cs⟩ := by
    refine ⟨rfl, rfl, rfl, Nat.le_refl _, by simp [below], ?_, Nat.le_refl _⟩
    exact (beq_self_eq_true _).symm
  have hsorted : others.Pairwise (· < ·) := by
    refine pairwise_distinct (List.Pairwise.imp of_decide_eq_true (List.pairwise_mergeSort ?_ ?_ _))
    · intro a b c hab hbc
      exact decide_eq_true (Nat.le_trans (of_decide_eq_true hab) (of_decide_eq_true hbc))
    · intro a b
      simpa using Nat.le_total a b
  obtain ⟨r, ⟨xs, k, hxs, hdigits, hk, hrun⟩, hr⟩ := hstart.insertAll hsorted
    (fun m hm => by obtain ⟨c, -, hle, rfl⟩ := (hmem m).mp hm; exact hle)
    (fun c hc hle => (hmem _).mpr ⟨c, hc, hle, rfl⟩)
  refine ⟨xs, ?_, hdigits, ?_⟩
  · exact (if_neg hnot).trans (congrArg (mark ++ ·) hxs)
  · have hread := hrun (xs.length - k) []
    rw [Nat.sub_add_cancel hk, List.append_nil] at hread
    rw [decode?_front hdigits]
    refine hread.trans ?_
    rw [Reader.run?, insertRead?, hr]

end Labels
end TokenWatch.Url.Punycode
