import TokenWatch.Hub.Message
import TokenWatch.Proofs.Hub.Chunks
import TokenWatch.Proofs.Json.Ordered
import TokenWatch.Proofs.Json.Printed

/-!
The invocations that a client sends, read back on the other side: whatever stands in them, and
however their text is cut on its way.
-/
namespace TokenWatch

namespace Json.Reader

theorem values_eq_mapM (levels : Nat) (nodes : List Node) :
    values levels nodes = nodes.mapM (value levels) := by
  induction nodes with
  | nil => rfl
  | cons node rest ih =>
    rw [values, ih, List.mapM_cons]
    cases value levels node with
    | none => rfl
    | some v => cases rest.mapM (value levels) <;> rfl

end Json.Reader

namespace Hub
open Json

structure Sent where
  id : String
  target : String
  arguments : List Value

namespace Sent

variable {s : Sent} {calls : List Sent} {chunks : List (List Char)}

def encode (s : Sent) : List Char := Message.encodeCall s.id s.target s.arguments

def message (s : Sent) : Message := .invocation (some s.id) s.target s.arguments

/-- Numbers are whole, members of objects are in order, and the frame goes no deeper than a reader
does. -/
structure Readable (s : Sent) : Prop where
  whole : Value.AllWhole s.arguments
  ordered : Value.AllOrdered s.arguments
  shallow : (Value.array s.arguments).depth + 1 ≤ maxLevels

section Frame

def members (s : Sent) : List (String × Value) :=
  [("type", .ofUInt64 1), ("invocationId", .text s.id), ("target", .text s.target),
   ("arguments", .array s.arguments)]

def frame (s : Sent) : List Char := (Value.object s.members).print

theorem print_kind : (Value.ofUInt64 1).print = ['1'] := by
  show (Integer.ofUInt64 1).toText = ['1']
  rw [Integer.toText_ofUInt64]
  exact Nat.toDigits_of_lt_base (by decide)

theorem print_members (kind : Value) (id target : String) (arguments : List Value) :
    (Value.object [("type", kind), ("invocationId", .text id), ("target", .text target),
      ("arguments", .array arguments)]).print =
      '{' :: (quote "type" ++ ':' :: kind.print ++ ',' :: quote "invocationId" ++ [':']) ++
        quote id ++ ',' :: (quote "target" ++ [':']) ++ quote target ++
        ',' :: (quote "arguments" ++ [':']) ++ (Value.array arguments).print ++ ['}'] := by
  simp only [Value.printMembers, Value.print, List.append_assoc, List.cons_append, List.nil_append]

theorem encode_eq (s : Sent) : s.encode = s.frame ++ [separator] := by
  have hkind : "\x7b\"type\":1,\"invocationId\":".toList =
      '{' :: (quote "type" ++ ':' :: ['1'] ++ ',' :: quote "invocationId" ++ [':']) := by
    decide +kernel
  have htarget : ",\"target\":".toList = ',' :: (quote "target" ++ [':']) := by decide +kernel
  have harguments : ",\"arguments\":".toList = ',' :: (quote "arguments" ++ [':']) := by
    decide +kernel
  rw [frame, members, print_members, print_kind, ← hkind, ← htarget, ← harguments,
    List.append_assoc]
  rfl

theorem Readable.isWhole_object (h : s.Readable) : (Value.object s.members).IsWhole :=
  ⟨trivial, trivial, trivial, h.whole, trivial⟩

/-- No text and no key brings a separator into the frame. -/
theorem Readable.frame_isFrame (h : s.Readable) : s.frame ≠ [] ∧ separator ∉ s.frame := by
  constructor
  · rw [frame, Value.print]
    exact List.cons_ne_nil _ _
  · intro hmem
    have hprintable := Value.printable_print _ h.isWhole_object separator hmem
    exact absurd hprintable (by decide)

end Frame

section Reading
open Reader

theorem list_value_ofValue (h : s.Readable) (levels : Nat)
    (hlevels : (Value.array s.arguments).depth ≤ levels) :
    list value levels (Node.ofValue (.array s.arguments)) = some s.arguments := by
  cases levels with
  | zero => exact absurd hlevels (Nat.not_succ_le_zero _)
  | succ levels =>
    show (Node.ofItems s.arguments).mapM (value levels) = some s.arguments
    rw [← values_eq_mapM]
    exact values_ofItems s.arguments levels h.ordered (Nat.le_of_succ_le_succ hlevels)

/-- The members of a call are read as the call. -/
theorem reader_ofValue (h : s.Readable) (levels : Nat)
    (hlevels : (Value.array s.arguments).depth ≤ levels) :
    Message.reader (levels + 1) (Node.ofValue (.object s.members)) = some s.message := by
  let p : Parts := ⟨s.members.map fun m => (m.1, Node.ofValue m.2), false, levels⟩
  have hkeys : (s.members.map Prod.fst).Nodup := by
    show ["type", "invocationId", "target", "arguments"].Nodup
    decide
  have hparts : parts ["type", "invocationId", "target", "arguments", "result", "error"]
      (levels + 1) (Node.ofValue (.object s.members)) = some p :=
    parts_ofValue hkeys (by simp [members]) levels
  have hkind : p.get? "type" = some (Node.ofValue (.ofUInt64 1)) := rfl
  have hid : p.get? "invocationId" = some (Node.ofValue (.text s.id)) := rfl
  have htarget : p.get? "target" = some (Node.ofValue (.text s.target)) := rfl
  have harguments : p.get? "arguments" = some (Node.ofValue (.array s.arguments)) := rfl
  have hresult : p.get? "result" = none := rfl
  have hfailure : p.get? "error" = none := rfl
  have hone : natBelow 256 p.levels (Node.ofValue (.ofUInt64 1)) = some 1 := rfl
  have htext (t : String) : orNull text p.levels (Node.ofValue (.text t)) = some (some t) := rfl
  have hlist : list value p.levels (Node.ofValue (.array s.arguments)) = some s.arguments :=
    list_value_ofValue h levels hlevels
  simp only [Message.reader, hparts, Option.bind_eq_bind, Option.bind_some,
    Parts.required_of_get? hkind, hone, Parts.withDefault_of_get? hid,
    Parts.withDefault_of_get? htarget, htext, Parts.withDefault_of_get? harguments,
    hlist, Parts.withDefault_of_none hresult, Parts.withDefault_of_none hfailure]
  rfl

theorem parse_frame (h : s.Readable) : Message.parse s.frame = .ok s.message := by
  have hread : ofText? Message.reader s.frame = some s.message := by
    rw [ofText?, frame, Value.parse?_print _ h.isWhole_object]
    exact reader_ofValue h 126 (Nat.le_of_succ_le_succ h.shallow)
  rw [Message.parse, hread]

end Reading

section Stream

/-- Frames that each end in a separator are the frames of their text, and nothing stays open. -/
theorem framesOf_flatMap {frames : List (List Char)}
    (h : ∀ frame ∈ frames, frame ≠ [] ∧ separator ∉ frame) :
    framesOf (frames.flatMap (· ++ [separator])) = frames ∧
      openText (frames.flatMap (· ++ [separator])) = [] := by
  induction frames with
  | nil => exact ⟨framesOf_of_not_mem List.not_mem_nil, openText_of_not_mem List.not_mem_nil⟩
  | cons frame frames ih =>
    obtain ⟨⟨hne, hfree⟩, hrest⟩ := List.forall_mem_cons.mp h
    obtain ⟨hframes, hopen⟩ := ih hrest
    rw [List.flatMap_cons, List.append_assoc, List.singleton_append]
    constructor
    · rw [framesOf_append_separator hfree, if_neg hne, hframes]
      rfl
    · rw [openText_append_separator hfree, hopen]

/-- A text that is short enough as a whole leaves nothing too long open. -/
theorem short_of_byteSize_le (h : byteSize chunks.flatten ≤ messageLimit) :
    ∀ before, before <+: chunks → byteSize (openText before.flatten) ≤ messageLimit := by
  rintro before ⟨later, rfl⟩
  have hopen := byteSize_le_of_isSuffix (openText_isSuffix before.flatten)
  rw [List.flatten_append, byteSize_append] at h
  omega

/-- Calls that are sent one after the other, with any text in their names and whole numbers and
nesting that a reader allows in their arguments: cut into chunks in any way that leaves no more open
than a message may have bytes, all chunks are taken, and their frames are read as the same calls, in
order and with nothing left over. -/
theorem calls_read_as_sent (readable : ∀ s ∈ calls, s.Readable)
    (cut : chunks.flatten = calls.flatMap encode)
    (short : ∀ before, before <+: chunks → byteSize (openText before.flatten) ≤ messageLimit) :
    ∃ outputs : List (List (List Char)),
      OpenFrame.empty.answers chunks = outputs.map .ok ∧
      outputs.flatten.map Message.parse = calls.map (fun s => .ok s.message) ∧
      OpenFrame.empty.after chunks = .empty := by
  have hencode : calls.flatMap encode = (calls.map frame).flatMap (· ++ [separator]) := by
    rw [List.flatMap_map]
    exact congrArg (calls.flatMap ·) (funext encode_eq)
  have hframe : ∀ cs ∈ calls.map frame, cs ≠ [] ∧ separator ∉ cs := by
    intro cs hcs
    obtain ⟨s, hs, rfl⟩ := List.mem_map.mp hcs
    exact (readable s hs).frame_isFrame
  obtain ⟨hframes, hopen⟩ := framesOf_flatMap hframe
  rw [← hencode, ← cut] at hframes hopen
  obtain ⟨outputs, houtputs⟩ := OpenFrame.clean_empty.exists_outputs short
  obtain ⟨hflatten, hheld⟩ := OpenFrame.clean_empty.flatten_answers houtputs
  refine ⟨outputs, houtputs, ?_, ?_⟩
  · rw [hflatten]
    show (framesOf chunks.flatten).map Message.parse = _
    rw [hframes, List.map_map]
    exact List.map_congr_left fun s hs => parse_frame (readable s hs)
  · have hnil : (OpenFrame.empty.after chunks).held = [] := hheld.trans hopen
    exact congrArg OpenFrame.mk (List.reverse_eq_nil_iff.mp hnil)

/-- Two calls, the first with quotes, a separator and letters beyond ASCII in its names, and with an
object and a negative number among its arguments. Their text is cut within each of the frames. -/
theorem calls_read_as_sent_cut_twice :
    let minus : Integer := ⟨-7, by decide, by decide⟩
    let calls : List Sent :=
      [⟨"\x1e\"1", "é\n", [.object [("a", .number (.whole minus)), ("b", .array [.text "\x1e"])]]⟩,
       ⟨"2", "", []⟩]
    let text := calls.flatMap encode
    let chunks := [text.take 10, (text.drop 10).take 100, (text.drop 10).drop 100]
    ∃ outputs : List (List (List Char)),
      OpenFrame.empty.answers chunks = outputs.map .ok ∧
      outputs.flatten.map Message.parse = calls.map (fun s => .ok s.message) ∧
      OpenFrame.empty.after chunks = .empty := by
  intro minus calls text chunks
  have hfirst : Readable ⟨"\x1e\"1", "é\n",
      [.object [("a", .number (.whole minus)), ("b", .array [.text "\x1e"])]]⟩ := by
    refine ⟨⟨⟨trivial, ⟨trivial, trivial⟩, trivial⟩, trivial⟩, ⟨⟨?_, trivial, ⟨trivial, trivial⟩,
      trivial⟩, trivial⟩, by decide⟩
    exact List.pairwise_pair.mpr (by decide)
  have hsecond : Readable ⟨"2", "", []⟩ := ⟨trivial, trivial, by decide⟩
  have readable : ∀ s ∈ calls, s.Readable :=
    List.forall_mem_cons.mpr ⟨hfirst, List.forall_mem_singleton.mpr hsecond⟩
  have cut : chunks.flatten = text := by
    show text.take 10 ++ ((text.drop 10).take 100 ++ ((text.drop 10).drop 100 ++ [])) = text
    rw [List.append_nil, List.take_append_drop, List.take_append_drop]
  have hsize : byteSize text ≤ messageLimit := by decide +kernel
  exact calls_read_as_sent readable cut (short_of_byteSize_le (cut ▸ hsize))

end Stream

end Sent
end Hub
end TokenWatch
