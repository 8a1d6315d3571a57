import TokenWatch.Proofs.Hub.History

/-!
The numbers of a client's invocations. The task counts the invocations that it takes, and writes
each of them under its own number, which no other invocation has.
-/
namespace TokenWatch.Hub

namespace Note

variable {h ns later : List Note} {command : Command}

@[simp] theorem takings_append (h ns : List Note) : takings (h ++ ns) = takings h ++ takings ns :=
  List.filterMap_append

/-- The invocations that were written, with their numbers among those that were taken. -/
def written (h : List Note) : List (Nat × Command) :=
  (((takings h).zipIdx 1).filter fun p => p.1.2).map fun p => (p.2, p.1.1)

theorem written_append (h ns : List Note) :
    written (h ++ ns) = written h ++
      (((takings ns).zipIdx (1 + (takings h).length)).filter fun p => p.1.2).map
        fun p => (p.2, p.1.1) := by
  rw [written, takings_append, List.zipIdx_append, List.filter_append, List.map_append, written]

theorem written_append_of_none (hns : takings ns = []) : written (h ++ ns) = written h := by
  rw [written_append, hns]
  exact List.append_nil _

theorem nodup_written (h : List Note) : ((written h).map Prod.fst).Nodup := by
  have hnumbers : ((takings h).zipIdx 1).map Prod.snd = List.range' 1 (takings h).length :=
    List.zipIdx_map_snd 1 _
  have hsub : ((written h).map Prod.fst).Sublist (List.range' 1 (takings h).length) := by
    rw [written, List.map_map, ← hnumbers]
    exact List.filter_sublist.map _
  have hrange : (List.range' 1 (takings h).length).Nodup := List.nodup_range' 1
  exact hsub.nodup hrange

/-- The `k`-th invocation that the task took, whether it was written, and what was noted later. -/
def TakenAs (h : List Note) (k : Nat) (command : Command) (written : Bool) (later : List Note) :
    Prop :=
  ∃ past, h = past ++ .taken command written :: later ∧ k = (takings past).length + 1

namespace TakenAs

variable {k : Nat} {written : Bool}

theorem append (taken : TakenAs h k command written later) (ns : List Note) :
    TakenAs (h ++ ns) k command written (later ++ ns) := by
  obtain ⟨past, rfl, hk⟩ := taken
  exact ⟨past, List.append_assoc _ _ _, hk⟩

theorem le (taken : TakenAs h k command written later) : k ≤ (takings h).length := by
  obtain ⟨past, rfl, rfl⟩ := taken
  simp [takings, taking?]

/-- What does not take an invocation comes later than those that were taken. -/
theorem of_append (taken : TakenAs (h ++ ns) k command written later) (quiet : takings ns = []) :
    ∃ before, later = before ++ ns ∧ TakenAs h k command written before := by
  obtain ⟨past, hsplit, hk⟩ := taken
  rcases List.append_eq_append_iff.mp hsplit with ⟨middle, -, hns⟩ | ⟨middle, hh, hlater⟩
  · rw [hns] at quiet
    simp [takings, taking?] at quiet
  · cases middle with
    | nil =>
      rw [List.nil_append] at hlater
      rw [← hlater] at quiet
      cases quiet
    | cons n before =>
      obtain ⟨rfl, rfl⟩ := List.cons.inj hlater
      exact ⟨before, rfl, past, hh, hk⟩

/-- Either it is the last one or it was taken before. -/
theorem of_concat {other : Command} {sent : Bool}
    (taken : TakenAs (h ++ [.taken other sent]) k command written later) :
    (k = (takings h).length + 1 ∧ command = other ∧ written = sent ∧ later = []) ∨
      ∃ before, later = before ++ [.taken other sent] ∧ TakenAs h k command written before := by
  obtain ⟨past, hsplit, hk⟩ := taken
  rcases List.eq_nil_or_concat later with rfl | ⟨before, last, rfl⟩
  · obtain ⟨rfl, hlast⟩ := List.append_inj' hsplit rfl
    cases hlast
    exact .inl ⟨hk, rfl, rfl, rfl⟩
  · rw [List.concat_eq_append] at hsplit ⊢
    rw [← List.cons_append, ← List.append_assoc] at hsplit
    obtain ⟨rfl, hlast⟩ := List.append_inj' hsplit rfl
    cases hlast
    exact .inr ⟨before, rfl, past, rfl, hk⟩

end TakenAs

end Note

theorem encodeCall_ne_encodedPing (id target : String) (arguments : List Json.Value) :
    Message.encodeCall id target arguments ≠ Message.encodedPing := by
  let start : List Char := "\x7b\"type\":".toList
  have hcall : ∃ rest, Message.encodeCall id target arguments = start ++ '1' :: rest := by
    have hopening : "\x7b\"type\":1,\"invocationId\":".toList =
        start ++ '1' :: ",\"invocationId\":".toList := rfl
    unfold Message.encodeCall
    rw [hopening]
    simp only [List.append_assoc, List.cons_append]
    exact ⟨_, rfl⟩
  have hping : Message.encodedPing = start ++ '6' :: ['\x7d', separator] := rfl
  intro h
  obtain ⟨rest, hrest⟩ := hcall
  rw [hrest, hping, List.append_cancel_left_eq] at h
  cases h

def Written.isCall (w : Written) : Bool := w ≠ .closed ∧ w ≠ .frame Message.encodedPing

namespace Connection

variable {c v : Connection} {as : List Action} {h ns : List Note} {messages : List Message}
  {frames : OpenFrame}

theorem numberText_injective {m n : Nat} (h : numberText m = numberText n) : m = n := by
  have hdigits : Nat.toDigits 10 m = Nat.toDigits 10 n := String.ofList_injective h
  have hvalue (k : Nat) : Nat.ofDigitChars 10 (Nat.toDigits 10 k) 0 = k :=
    Nat.ofDigitChars_toDigits (by decide) (by decide)
  rw [← hvalue m, hdigits, hvalue]

def frameOf (p : Nat × Command) : Written :=
  .frame (Message.encodeCall (numberText p.1) p.2.target p.2.arguments)

theorem isCall_frameOf (p : Nat × Command) : (frameOf p).isCall = true := by
  simp [frameOf, Written.isCall, encodeCall_ne_encodedPing]

/-- The counter has not been used up. -/
def Few (h : List Note) : Prop := (Note.takings h).length < UInt64.size

theorem Few.of_append (few : Few (h ++ ns)) : Few h := by
  unfold Few at few ⊢
  rw [Note.takings_append, List.length_append] at few
  omega

/-- The task has counted what it took, and has written its invocations in order. -/
structure Numbered (h : List Note) (c : Connection) : Prop where
  count : c.lastId.toNat = (Note.takings h).length
  frames : c.sent.reverse.filter Written.isCall = (Note.written h).map frameOf

theorem Numbered.of_same (hc : Numbered h c) (hcount : v.lastId = c.lastId)
    (hsent : v.sent.reverse.filter Written.isCall = c.sent.reverse.filter Written.isCall)
    (quiet : Note.takings ns = []) : Numbered (h ++ ns) v where
  count := by rw [hcount, hc.count, Note.takings_append, quiet, List.append_nil]
  frames := by rw [hsent, hc.frames, Note.written_append_of_none quiet]

/-- The next number is one more, as long as there is one. -/
theorem Numbered.next (hc : Numbered h c) {command : Command} {written : Bool}
    (few : Few (h ++ [.taken command written])) :
    (c.lastId + 1).toNat = (Note.takings h).length + 1 := by
  have hroom : (Note.takings h).length + 1 < UInt64.size := by
    simpa [Few, Note.takings, Note.taking?] using few
  rw [UInt64.toNat_add, hc.count]
  exact Nat.mod_eq_of_lt hroom

theorem Change.numbered (hc : Numbered h c) (few : Few (h ++ ns)) (change : Change c ns v) :
    Numbered (h ++ ns) v := by
  cases change with
  | pinged running =>
    refine hc.of_same rfl ?_ rfl
    rw [List.reverse_cons, List.filter_append]
    exact List.append_nil _
  | closed running gone =>
    refine hc.of_same rfl ?_ rfl
    rw [List.reverse_cons, List.filter_append]
    exact List.append_nil _
  | @sent command rest running first =>
    constructor
    · rw [Note.takings_append, List.length_append]
      exact hc.next few
    · have hsent : ({ c with commands := rest }.send command true).sent =
          frameOf ((Note.takings h).length + 1, command) :: c.sent := by
        simp [send, frameOf, idText, hc.next few]
      rw [hsent, List.reverse_cons, List.filter_append, hc.frames, Note.written_append,
        List.map_append]
      simp [Note.takings, Note.taking?, isCall_frameOf, Nat.add_comm]
  | @unsent command rest running first =>
    constructor
    · rw [Note.takings_append, List.length_append]
      exact hc.next few
    · rw [Note.written_append, List.map_append]
      exact hc.frames.trans (List.append_nil _).symm
  | _ => exact hc.of_same rfl rfl rfl

theorem numbered_of_run {allowed : Connection → Action → Prop}
    (run : Run step? allowed (ofHandshake frames messages) as v)
    (few : Few (historyOf frames messages as)) : Numbered (historyOf frames messages as) v :=
  of_run (P := fun h c => Few h → Numbered h c) (fun _ _ => ⟨rfl, rfl⟩)
    (fun _ _ _ _ hc change few => change.numbered (hc few.of_append) few) run few

end Connection
end TokenWatch.Hub
