import TokenWatch.Hub.Frame
import TokenWatch.Proofs.Text.Pieces

/-!
The frames of a text, and how the buffer finds the same frames when the text comes in pieces.
-/
namespace TokenWatch.Hub

variable {tail text rest cs : List Char} {texts : List (List Char)}

/-- The frames of a text that are finished, without the empty ones. -/
def framesOf (text : List Char) : List (List Char) :=
  (Text.pieces separator text).dropLast.filter fun frame => frame ≠ []

theorem framesOf_of_not_mem (h : separator ∉ cs) : framesOf cs = [] := by
  rw [framesOf, Text.pieces_of_not_mem h]
  rfl

/-- A separator finishes the frame before it. -/
theorem framesOf_append_separator (h : separator ∉ cs) (rest : List Char) :
    framesOf (cs ++ separator :: rest) = (if cs = [] then [] else [cs]) ++ framesOf rest := by
  rw [framesOf, Text.pieces_append_separator h, List.dropLast_cons_of_ne_nil
    (Text.pieces_ne_nil separator rest), List.filter_cons]
  by_cases hcs : cs = [] <;> simp [hcs, framesOf]

/-- What is open after a text, and the frames that it finished, both newest first. -/
def scan (tail text : List Char) : List Char × List (List Char) :=
  text.foldl OpenFrame.step (tail, [])

theorem step_separator (s : List Char × List (List Char)) :
    OpenFrame.step s separator = ([], if s.1 = [] then s.2 else s.1.reverse :: s.2) :=
  if_pos rfl

theorem step_of_ne {c : Char} (h : c ≠ separator) (s : List Char × List (List Char)) :
    OpenFrame.step s c = (c :: s.1, s.2) :=
  if_neg h

theorem foldl_step (text tail : List Char) (frames : List (List Char)) :
    text.foldl OpenFrame.step (tail, frames) =
      ((scan tail text).1, (scan tail text).2 ++ frames) := by
  induction text generalizing tail frames with
  | nil => rfl
  | cons c text ih =>
    rw [scan, List.foldl_cons, List.foldl_cons]
    by_cases hc : c = separator
    · subst hc
      rw [step_separator, step_separator, ih, ih []]
      by_cases htail : tail = [] <;> simp [htail]
    · rw [step_of_ne hc, step_of_ne hc, ih, ih (c :: tail)]
      simp

theorem scan_cons_separator (tail text : List Char) :
    scan tail (separator :: text) =
      ((scan [] text).1, (scan [] text).2 ++ if tail = [] then [] else [tail.reverse]) := by
  rw [scan, List.foldl_cons, step_separator, foldl_step]

theorem scan_cons_of_ne {c : Char} (h : c ≠ separator) (tail text : List Char) :
    scan tail (c :: text) = scan (c :: tail) text := by
  rw [scan, List.foldl_cons, step_of_ne h]
  rfl

theorem scan_of_not_mem (h : separator ∉ cs) (tail : List Char) :
    scan tail cs = (cs.reverse ++ tail, []) := by
  induction cs generalizing tail with
  | nil => rfl
  | cons c cs ih =>
    obtain ⟨hc, hcs⟩ := List.ne_and_not_mem_of_not_mem_cons h
    rw [scan_cons_of_ne (Ne.symm hc), ih hcs]
    simp

theorem scan_append (tail text rest : List Char) :
    scan tail (text ++ rest) =
      ((scan (scan tail text).1 rest).1,
        (scan (scan tail text).1 rest).2 ++ (scan tail text).2) := by
  rw [scan, List.foldl_append, ← scan, ← foldl_step]

/-- What is open holds no separator and ends the text. -/
theorem scan_tail (text : List Char) (h : separator ∉ tail) :
    separator ∉ (scan tail text).1 ∧ (scan tail text).1.reverse <:+ tail.reverse ++ text := by
  have hempty : separator ∉ ([] : List Char) := List.not_mem_nil
  induction text generalizing tail with
  | nil => exact ⟨h, by simp [scan]⟩
  | cons c text ih =>
    by_cases hc : c = separator
    · subst hc
      rw [scan_cons_separator]
      obtain ⟨hopen, hsuffix⟩ := ih hempty
      refine ⟨hopen, hsuffix.trans ?_⟩
      exact ⟨tail.reverse ++ [separator], by simp⟩
    · rw [scan_cons_of_ne hc]
      have hcons : separator ∉ c :: tail := List.not_mem_cons_of_ne_of_not_mem (Ne.symm hc) h
      simpa using ih hcons

theorem scan_frames (h : separator ∉ tail) :
    (scan tail text).2.reverse = framesOf (tail.reverse ++ text) := by
  have hempty : separator ∉ ([] : List Char) := List.not_mem_nil
  induction text generalizing tail with
  | nil =>
    have hreverse : separator ∉ tail.reverse := by simpa using h
    rw [List.append_nil, framesOf_of_not_mem hreverse]
    rfl
  | cons c text ih =>
    by_cases hc : c = separator
    · subst hc
      have hreverse : separator ∉ tail.reverse := by simpa using h
      rw [scan_cons_separator, framesOf_append_separator hreverse, List.reverse_append,
        ih hempty]
      by_cases htail : tail = [] <;> simp [htail]
    · have hcons : separator ∉ c :: tail := List.not_mem_cons_of_ne_of_not_mem (Ne.symm hc) h
      rw [scan_cons_of_ne hc, ih hcons]
      simp

def groups : List Char → List (List Char) → List (List (List Char))
  | _, [] => []
  | tail, text :: texts => (scan tail text).2.reverse :: groups (scan tail text).1 texts

theorem framesOf_append (tail text rest : List Char) (h : separator ∉ tail) :
    framesOf (tail.reverse ++ text ++ rest) =
      (scan tail text).2.reverse ++ framesOf ((scan tail text).1.reverse ++ rest) := by
  obtain ⟨hopen, -⟩ := scan_tail text h
  rw [List.append_assoc, ← scan_frames h, ← scan_frames hopen, scan_append, List.reverse_append]

/-- However a text is cut, its pieces finish its frames. -/
theorem flatten_groups (h : separator ∉ tail) :
    (groups tail texts).flatten = framesOf (tail.reverse ++ texts.flatten) := by
  induction texts generalizing tail with
  | nil =>
    have hreverse : separator ∉ tail.reverse := by simpa using h
    rw [List.flatten_nil, List.append_nil, framesOf_of_not_mem hreverse]
    rfl
  | cons text texts ih =>
    obtain ⟨hopen, -⟩ := scan_tail text h
    rw [groups, List.flatten_cons, List.flatten_cons, ← List.append_assoc, ih hopen,
      framesOf_append tail text texts.flatten h]

section Limit

theorem byteSize_cons (c : Char) (cs : List Char) :
    byteSize (c :: cs) = c.utf8Size + byteSize cs := by
  have hacc : ∀ (cs : List Char) (m n : Nat),
      cs.foldl (fun n c => n + c.utf8Size) (m + n) =
        m + cs.foldl (fun n c => n + c.utf8Size) n := by
    intro cs
    induction cs with
    | nil => intro m n; rfl
    | cons c cs ih =>
      intro m n
      rw [List.foldl_cons, List.foldl_cons, Nat.add_assoc, ih]
  unfold byteSize
  rw [List.foldl_cons, Nat.add_comm 0, hacc]

theorem byteSize_append (as bs : List Char) :
    byteSize (as ++ bs) = byteSize as + byteSize bs := by
  induction as with
  | nil =>
    rw [List.nil_append]
    exact (Nat.zero_add _).symm
  | cons c as ih => rw [List.cons_append, byteSize_cons, byteSize_cons, ih, Nat.add_assoc]

theorem byteSize_reverse (cs : List Char) : byteSize cs.reverse = byteSize cs := by
  induction cs with
  | nil => rfl
  | cons c cs ih =>
    rw [List.reverse_cons, byteSize_append, ih, byteSize_cons, byteSize_cons]
    exact Nat.add_comm _ _

/-- No stretch of the text without a separator is longer than a message may be. -/
def Unbroken (text : List Char) : Prop :=
  ∀ stretch, stretch <:+: text → separator ∉ stretch → byteSize stretch ≤ messageLimit

theorem unbroken_of_short (h : byteSize text ≤ messageLimit) : Unbroken text := by
  rintro stretch ⟨front, back, rfl⟩ -
  rw [byteSize_append, byteSize_append] at h
  omega

theorem Unbroken.of_suffix (h : Unbroken text) (hsuffix : rest <:+ text) : Unbroken rest :=
  fun stretch hstretch => h stretch (hstretch.trans hsuffix.isInfix)

theorem Unbroken.scan (h : Unbroken (tail.reverse ++ text ++ rest)) (htail : separator ∉ tail) :
    byteSize (scan tail text).1 ≤ messageLimit ∧
      Unbroken ((Hub.scan tail text).1.reverse ++ rest) := by
  obtain ⟨hopen, hsuffix⟩ := scan_tail text htail
  obtain ⟨front, hfront⟩ := hsuffix
  have hall : front ++ ((Hub.scan tail text).1.reverse ++ rest) = tail.reverse ++ text ++ rest := by
    rw [← List.append_assoc, hfront]
  have hrest := h.of_suffix ⟨front, hall⟩
  refine ⟨?_, hrest⟩
  rw [← byteSize_reverse]
  exact hrest _ (List.prefix_append _ rest).isInfix (by simpa using hopen)

theorem push_of_unbroken {b : OpenFrame} (h : byteSize (scan b.tail text).1 ≤ messageLimit) :
    b.push text = (⟨(scan b.tail text).1⟩, .ok (scan b.tail text).2.reverse) := by
  have hsize : ¬messageLimit < byteSize (scan b.tail text).1 := Nat.not_lt.mpr h
  simp only [OpenFrame.push, scan] at hsize ⊢
  rw [if_neg hsize]

end Limit

end TokenWatch.Hub
