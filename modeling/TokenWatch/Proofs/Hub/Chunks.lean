import TokenWatch.Proofs.Hub.Frames

/-!
A buffer that takes a text in chunks. What it returns and what it holds depend on the text alone and
not on the cuts, and it gives up exactly on a text whose open end is too long.
-/
namespace TokenWatch.Hub

variable {text rest cs tail frame chunk : List Char} {chunks frames : List (List Char)}
  {b : OpenFrame}

section Open

def openText (text : List Char) : List Char :=
  (Text.pieces separator text).getLast (Text.pieces_ne_nil separator text)

theorem openText_of_not_mem (h : separator ∉ cs) : openText cs = cs := by
  simp only [openText, Text.pieces_of_not_mem h, List.getLast_singleton]

theorem openText_append_separator (h : separator ∉ cs) (rest : List Char) :
    openText (cs ++ separator :: rest) = openText rest := by
  simp only [openText, Text.pieces_append_separator h]
  exact List.getLast_cons _

theorem not_mem_openText (text : List Char) : separator ∉ openText text :=
  Text.not_mem_of_mem_pieces (List.getLast_mem _)

/-- A finished frame is not empty and holds no separator. -/
theorem of_mem_framesOf (h : frame ∈ framesOf text) : frame ≠ [] ∧ separator ∉ frame := by
  obtain ⟨hmem, hne⟩ := List.mem_filter.mp h
  exact ⟨of_decide_eq_true hne, Text.not_mem_of_mem_pieces ((List.dropLast_sublist _).subset hmem)⟩

/-- Scanning leaves open what comes after the last separator. -/
theorem scan_open (h : separator ∉ tail) (text : List Char) :
    (scan tail text).1.reverse = openText (tail.reverse ++ text) := by
  induction text generalizing tail with
  | nil =>
    have hreverse : separator ∉ tail.reverse := by simpa using h
    rw [List.append_nil, openText_of_not_mem hreverse]
    rfl
  | cons c text ih =>
    by_cases hc : c = separator
    · subst hc
      have hreverse : separator ∉ tail.reverse := by simpa using h
      rw [scan_cons_separator, openText_append_separator hreverse]
      exact ih List.not_mem_nil
    · have hcons : separator ∉ c :: tail := List.not_mem_cons_of_ne_of_not_mem (Ne.symm hc) h
      rw [scan_cons_of_ne hc, ih hcons]
      simp

theorem openText_isSuffix (text : List Char) : openText text <:+ text := by
  have hnil : separator ∉ ([] : List Char) := List.not_mem_nil
  obtain ⟨-, hsuffix⟩ := scan_tail text hnil
  rwa [scan_open hnil] at hsuffix

/-- Nothing before a separator stays open. -/
theorem openText_append_of_mem (h : separator ∈ rest) (cs : List Char) :
    openText (cs ++ rest) <:+ rest := by
  have hopen := openText_isSuffix (cs ++ rest)
  have hrest : rest <:+ cs ++ rest := List.suffix_append cs rest
  rcases List.suffix_or_suffix_of_suffix hopen hrest with hin | hover
  · exact hin
  · exact absurd (hover.subset h) (not_mem_openText (cs ++ rest))

/-- What follows a text continues what it leaves open. -/
theorem openText_append (text rest : List Char) :
    openText (text ++ rest) = openText (openText text ++ rest) := by
  have hnil : separator ∉ ([] : List Char) := List.not_mem_nil
  obtain ⟨hopen, -⟩ := scan_tail text hnil
  have hwhole := scan_open hnil (text ++ rest)
  rw [scan_append] at hwhole
  rw [← List.nil_append (text ++ rest), ← List.reverse_nil, ← hwhole, scan_open hopen,
    scan_open hnil]
  rfl

theorem framesOf_append_open (text rest : List Char) :
    framesOf (text ++ rest) = framesOf text ++ framesOf (openText text ++ rest) := by
  have hnil : separator ∉ ([] : List Char) := List.not_mem_nil
  have hsplit := framesOf_append [] text rest hnil
  rwa [scan_frames hnil, scan_open hnil] at hsplit

theorem byteSize_le_of_isSuffix (h : rest <:+ text) : byteSize rest ≤ byteSize text := by
  obtain ⟨front, rfl⟩ := h
  rw [byteSize_append]
  exact Nat.le_add_left _ _

end Open

section Buffer

namespace OpenFrame

def held (b : OpenFrame) : List Char := b.tail.reverse

def after (b : OpenFrame) : List (List Char) → OpenFrame
  | [] => b
  | chunk :: chunks => (b.push chunk).1.after chunks

def answers (b : OpenFrame) : List (List Char) → List (Except Error (List (List Char)))
  | [] => []
  | chunk :: chunks => (b.push chunk).2 :: (b.push chunk).1.answers chunks

/-- No separator is held, as in all buffers that started empty. -/
def Clean (b : OpenFrame) : Prop := separator ∉ b.held

/-- A chunk is taken unless it leaves too much open; then the buffer is empty again. -/
theorem push_eq (hb : b.Clean) (chunk : List Char) :
    b.push chunk =
      if messageLimit < byteSize (openText (b.held ++ chunk)) then
        (empty, .error (.frameTooLarge (byteSize (openText (b.held ++ chunk)))))
      else (⟨(openText (b.held ++ chunk)).reverse⟩, .ok (framesOf (b.held ++ chunk))) := by
  have htail : separator ∉ b.tail := fun hmem => hb (List.mem_reverse.mpr hmem)
  have hopen : (scan b.tail chunk).1 = (openText (b.held ++ chunk)).reverse := by
    rw [held, ← scan_open htail, List.reverse_reverse]
  have hframes : (scan b.tail chunk).2.reverse = framesOf (b.held ++ chunk) := scan_frames htail
  have hpush : b.push chunk =
      if messageLimit < byteSize (scan b.tail chunk).1 then
        (empty, .error (.frameTooLarge (byteSize (scan b.tail chunk).1)))
      else (⟨(scan b.tail chunk).1⟩, .ok (scan b.tail chunk).2.reverse) := rfl
  rw [hpush, hframes, hopen, byteSize_reverse]

theorem clean_empty : empty.Clean := List.not_mem_nil

theorem Clean.push (hb : b.Clean) (chunk : List Char) : (b.push chunk).1.Clean := by
  rw [push_eq hb]
  split
  · exact clean_empty
  · rw [Clean, held, List.reverse_reverse]
    exact not_mem_openText _

theorem Clean.after (hb : b.Clean) (chunks : List (List Char)) : (b.after chunks).Clean := by
  induction chunks generalizing b with
  | nil => exact hb
  | cons chunk chunks ih => exact ih (hb.push chunk)

/-- A chunk that is taken gives the frames that it finishes and leaves the rest open. -/
theorem Clean.of_push_ok (hb : b.Clean) (h : (b.push chunk).2 = .ok frames) :
    frames = framesOf (b.held ++ chunk) ∧ (b.push chunk).1.held = openText (b.held ++ chunk) := by
  rw [push_eq hb] at h ⊢
  split at h
  · cases h
  · rename_i hsize
    rw [if_neg hsize]
    exact ⟨(Except.ok.inj h).symm, List.reverse_reverse _⟩

/-- Chunks that are all taken give the frames of the whole text and leave its end open. -/
theorem Clean.flatten_answers (hb : b.Clean) {outputs : List (List (List Char))}
    (h : b.answers chunks = outputs.map .ok) :
    outputs.flatten = framesOf (b.held ++ chunks.flatten) ∧
      (b.after chunks).held = openText (b.held ++ chunks.flatten) := by
  induction chunks generalizing b outputs with
  | nil =>
    obtain rfl := List.map_eq_nil_iff.mp h.symm
    rw [List.flatten_nil, List.flatten_nil, List.append_nil, framesOf_of_not_mem hb,
      openText_of_not_mem hb]
    exact ⟨rfl, rfl⟩
  | cons chunk chunks ih =>
    cases outputs with
    | nil => cases h
    | cons output outputs =>
      obtain ⟨hfirst, hrest⟩ := List.cons.inj h
      obtain ⟨rfl, hheld⟩ := hb.of_push_ok hfirst
      obtain ⟨hframes, hopen⟩ := ih (hb.push chunk) hrest
      rw [hheld] at hframes hopen
      rw [List.flatten_cons, List.flatten_cons, ← List.append_assoc]
      constructor
      · rw [hframes, framesOf_append_open (b.held ++ chunk)]
      · rw [OpenFrame.after, hopen, openText_append (b.held ++ chunk)]

/-- Chunks of a text whose open end is never too long are all taken. -/
theorem Clean.exists_outputs (hb : b.Clean)
    (h : ∀ before, before <+: chunks →
      byteSize (openText (b.held ++ before.flatten)) ≤ messageLimit) :
    ∃ outputs : List (List (List Char)), b.answers chunks = outputs.map .ok := by
  induction chunks generalizing b with
  | nil => exact ⟨[], rfl⟩
  | cons chunk chunks ih =>
    have hsize := h [chunk] (List.prefix_append [chunk] chunks)
    rw [List.flatten_singleton] at hsize
    have hpush : (b.push chunk).2 = .ok (framesOf (b.held ++ chunk)) := by
      rw [push_eq hb, if_neg (Nat.not_lt.mpr hsize)]
    obtain ⟨-, hheld⟩ := hb.of_push_ok hpush
    have hrest : ∀ before, before <+: chunks →
        byteSize (openText ((b.push chunk).1.held ++ before.flatten)) ≤ messageLimit := by
      intro before hbefore
      have hlonger := h (chunk :: before) ((List.prefix_cons_inj chunk).mpr hbefore)
      rwa [List.flatten_cons, ← List.append_assoc, openText_append (b.held ++ chunk),
        ← hheld] at hlonger
    obtain ⟨outputs, houtputs⟩ := ih (hb.push chunk) hrest
    exact ⟨framesOf (b.held ++ chunk) :: outputs, by rw [answers, hpush, houtputs, List.map_cons]⟩

/-- Within the limit of a message, a chunk that fails has finished no frame. -/
theorem Clean.not_mem_of_push_error (hb : b.Clean) (hchunk : byteSize chunk ≤ messageLimit)
    {e : Error} (h : (b.push chunk).2 = .error e) :
    separator ∉ chunk ∧ framesOf (b.held ++ chunk) = [] := by
  have hsize : messageLimit < byteSize (openText (b.held ++ chunk)) := by
    rw [push_eq hb] at h
    split at h
    · assumption
    · cases h
  have hnone : separator ∉ chunk := by
    intro hmem
    have hle := byteSize_le_of_isSuffix (openText_append_of_mem hmem b.held)
    omega
  have hall : separator ∉ b.held ++ chunk := by
    rw [List.mem_append, not_or]
    exact ⟨hb, hnone⟩
  exact ⟨hnone, framesOf_of_not_mem hall⟩

/-- A buffer after any chunks, taken or not. Chunks that are all taken from then on give the
non-empty pieces around the separators of all that was held and of all that came, apart from the
last piece, which is then held; so the cuts do not matter. No frame is empty or holds a separator.
A chunk fails exactly if it leaves more open than a message may have bytes, it tells how much that
was, and the buffer is then as good as new. If no chunk is longer than a message may be, a chunk
that fails has no separator, and no finished frame is lost with it. -/
theorem frames_whatever_the_cuts (past : List (List Char)) :
    let b : OpenFrame := empty.after past
    (∀ chunks (outputs : List (List (List Char))), b.answers chunks = outputs.map .ok →
      outputs.flatten = framesOf (b.held ++ chunks.flatten) ∧
      (b.after chunks).held = openText (b.held ++ chunks.flatten)) ∧
    (∀ chunk frames, (b.push chunk).2 = .ok frames →
      ∀ frame ∈ frames, frame ≠ [] ∧ separator ∉ frame) ∧
    (∀ chunk, (∃ e, (b.push chunk).2 = .error e) ↔
      messageLimit < byteSize (openText (b.held ++ chunk))) ∧
    (∀ chunk e, (b.push chunk).2 = .error e →
      e = .frameTooLarge (byteSize (openText (b.held ++ chunk))) ∧ (b.push chunk).1 = empty) ∧
    ∀ chunk e, byteSize chunk ≤ messageLimit → (b.push chunk).2 = .error e →
      separator ∉ chunk ∧ framesOf (b.held ++ chunk) = [] := by
  intro b
  have hb : b.Clean := clean_empty.after past
  refine ⟨fun chunks outputs h => hb.flatten_answers h, ?_, ?_, ?_,
    fun chunk e hchunk h => hb.not_mem_of_push_error hchunk h⟩
  · intro chunk frames h frame hframe
    obtain ⟨rfl, -⟩ := hb.of_push_ok h
    exact of_mem_framesOf hframe
  · intro chunk
    rw [push_eq hb]
    split
    · rename_i hsize
      exact iff_of_true ⟨_, rfl⟩ hsize
    · rename_i hsize
      exact iff_of_false (fun h => nomatch h) hsize
  · intro chunk e h
    rw [push_eq hb] at h ⊢
    split at h
    · rename_i hsize
      rw [if_pos hsize]
      exact ⟨(Except.error.inj h).symm, rfl⟩
    · cases h

end OpenFrame
end Buffer

end TokenWatch.Hub
