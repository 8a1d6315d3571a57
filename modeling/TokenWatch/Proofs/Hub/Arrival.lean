import TokenWatch.Proofs.Hub.Delivery
import TokenWatch.Proofs.Hub.History

/-!
Which invocations are dispatched: those that arrive before the end of the connection, as far as the
outbox has room for them.
-/
namespace TokenWatch.Hub

namespace Note

variable {h ns : List Note}

@[simp] theorem calls_append (h ns : List Note) : calls (h ++ ns) = calls h ++ calls ns :=
  List.filterMap_append

@[simp] theorem loss?_append (h ns : List Note) : loss? (h ++ ns) = (loss? h).or (loss? ns) :=
  List.findSome?_append

/-- Of the invocations up to a close message those are dispatched that find room. -/
theorem calls_ofMessages (room : Nat) (messages : List Message) :
    calls (ofMessages room messages) = (heard messages).1.take room := by
  induction messages generalizing room with
  | nil => exact List.take_nil.symm
  | cons m ms ih =>
    cases m with
    | invocation id target arguments =>
      cases room with
      | zero => rfl
      | succ room => exact congrArg _ (ih room)
    | close failure => exact List.take_nil.symm
    | completion id result failure => exact ih room
    | ping => exact ih room
    | other kind => exact ih room

theorem loss?_ofMessages (room : Nat) (messages : List Message) :
    loss? (ofMessages room messages) =
      if room < (heard messages).1.length then some .backlog
      else (heard messages).2.map .closed := by
  induction messages generalizing room with
  | nil => rfl
  | cons m ms ih =>
    cases m with
    | invocation id target arguments =>
      cases room with
      | zero => rfl
      | succ room =>
        simp only [heard, List.length_cons, Nat.add_lt_add_iff_right]
        exact ih room
    | close failure => rfl
    | completion id result failure => exact ih room
    | ping => exact ih room
    | other kind => exact ih room

/-- Where messages do not end a connection, what they tell comes before the rest. -/
theorem ofMessages_told {room : Nat} {messages : List Message}
    (hloss : loss? (ofMessages room messages) = none) (next : Told) :
    Told.ofMessages messages next = next.after (calls (ofMessages room messages)) := by
  rw [loss?_ofMessages] at hloss
  split at hloss
  · cases hloss
  · rename_i hroom
    rw [Option.map_eq_none_iff] at hloss
    rw [calls_ofMessages, List.take_of_length_le (Nat.not_lt.mp hroom)]
    simp only [Told.ofMessages, hloss]

/-- Where they end it, the rest is not told. -/
theorem ofMessages_lost {room : Nat} {messages : List Message} {e : Error}
    (hloss : loss? (ofMessages room messages) = some e) (next : Told) :
    calls (ofMessages room messages) <+: (Told.ofMessages messages next).calls ∧
      (e ≠ .backlog →
        calls (ofMessages room messages) = (Told.ofMessages messages next).calls) := by
  rw [calls_ofMessages]
  rw [loss?_ofMessages] at hloss
  split at hloss
  · cases hloss
    refine ⟨?_, fun he => absurd rfl he⟩
    unfold Told.ofMessages
    split
    · exact List.take_prefix _ _
    · exact (List.take_prefix _ _).trans (List.prefix_append _ _)
  · rename_i hroom
    obtain ⟨failure, hfailure, -⟩ := Option.map_eq_some_iff.mp hloss
    rw [List.take_of_length_le (Nat.not_lt.mp hroom)]
    simp only [Told.ofMessages, hfailure]
    exact ⟨List.prefix_rfl, fun _ => trivial⟩

end Note

namespace Connection

variable {c u v : Connection} {a : Action} {as : List Action} {i : Incoming} {h ns : List Note}
  {messages : List Message} {frames : OpenFrame}

/-- The invocations that arrived, in order, up to the end of the connection. A text that cannot be
read has none. -/
def arrived (frames : OpenFrame) (messages : List Message) (as : List Action) : List Call :=
  (Told.ofMessages messages (verdict frames (received as))).calls

@[simp] theorem frames_dispatch (c : Connection) (messages : List Message) :
    (c.dispatch messages).frames = c.frames :=
  congrArg Prod.fst (besides_dispatch c messages)

/-- What arrives without ending a connection is told before the rest. -/
theorem incoming_told (hloss : Note.loss? (c.notesOfIncoming i) = none) (rest : List Incoming) :
    verdict c.frames (i :: rest) =
      (verdict (c.receive i).frames rest).after (Note.calls (c.notesOfIncoming i)) := by
  cases i with
  | text cs =>
    rcases hpush : c.frames.push cs with ⟨frames, error | pieces⟩
    · simp [notesOfIncoming, hpush, Note.loss?, Note.error?] at hloss
    · rcases hparse : pieces.mapM Message.parse with error | messages
      · simp [notesOfIncoming, hpush, hparse, Note.loss?, Note.error?] at hloss
      · simp only [notesOfIncoming, hpush, hparse] at hloss
        simp only [verdict, notesOfIncoming, receive, hpush, hparse, frames_dispatch]
        exact Note.ofMessages_told hloss _
  | other => rfl
  | _ => cases hloss

/-- What ends a connection is the last that is told. -/
theorem incoming_lost {e : Error} (hloss : Note.loss? (c.notesOfIncoming i) = some e)
    (rest : List Incoming) :
    Note.calls (c.notesOfIncoming i) <+: (verdict c.frames (i :: rest)).calls ∧
      (e ≠ .backlog →
        Note.calls (c.notesOfIncoming i) = (verdict c.frames (i :: rest)).calls) := by
  cases i with
  | text cs =>
    rcases hpush : c.frames.push cs with ⟨frames, error | pieces⟩
    · simp only [notesOfIncoming, verdict, hpush]
      exact ⟨List.nil_prefix, fun _ => rfl⟩
    · rcases hparse : pieces.mapM Message.parse with error | messages
      · simp only [notesOfIncoming, verdict, hpush, hparse]
        exact ⟨List.nil_prefix, fun _ => rfl⟩
      · simp only [notesOfIncoming, hpush, hparse] at hloss
        simp only [verdict, notesOfIncoming, hpush, hparse]
        exact Note.ofMessages_lost hloss _
  | other => cases hloss
  | _ => exact ⟨List.nil_prefix, fun _ => rfl⟩

/-- A change to a connection that still runs ended nothing. -/
theorem Change.of_running (change : Change c ns v) (hrun : v.phase = .running) :
    c.phase = .running ∧ Note.loss? ns = none := by
  cases change with
  | lost e running => cases hrun
  | finished ending held empty => cases hrun
  | deserted ending gone => cases hrun
  | closed running gone => cases hrun
  | _ => exact ⟨hrun, rfl⟩

/-- A connection that does not run any more dispatches nothing and cannot be lost again. -/
theorem Change.idle (change : Change c ns v) (hstop : c.phase ≠ .running) :
    v.phase ≠ .running ∧ Note.calls ns = [] ∧ Note.loss? ns = none := by
  refine ⟨fun hrun => hstop (change.of_running hrun).1, ?_⟩
  cases change with
  | dispatched call running => exact absurd running hstop
  | lost e running => exact absurd running hstop
  | _ => exact ⟨rfl, rfl⟩

theorem Changes.of_running (changes : Changes c ns v) (hrun : v.phase = .running) :
    c.phase = .running ∧ Note.loss? ns = none := by
  induction changes with
  | nil => exact ⟨hrun, rfl⟩
  | cons first _ ih =>
    obtain ⟨hu, hms⟩ := ih hrun
    obtain ⟨hc, hns⟩ := first.of_running hu
    exact ⟨hc, by rw [Note.loss?_append, hns, hms, Option.or_none]⟩

theorem Changes.idle (changes : Changes c ns v) (hstop : c.phase ≠ .running) :
    v.phase ≠ .running ∧ Note.calls ns = [] ∧ Note.loss? ns = none := by
  induction changes with
  | nil => exact ⟨hstop, rfl, rfl⟩
  | cons first _ ih =>
    obtain ⟨hu, hcalls, hloss⟩ := first.idle hstop
    obtain ⟨hv, hcalls', hloss'⟩ := ih hu
    rw [Note.calls_append, Note.loss?_append, hcalls, hloss]
    exact ⟨hv, hcalls', hloss'⟩

/-- Nothing is dispatched where nothing arrives. -/
theorem step_aside (h : c.step? a = some v) (hinput : a.input? = none) :
    Note.calls (c.notes a) = [] ∧ v.frames = c.frames := by
  cases a with
  | ping written =>
    obtain ⟨-, rfl⟩ := ping_cases h
    cases written with
    | true => exact ⟨rfl, rfl⟩
    | false => exact ⟨rfl, rfl⟩
  | takeCommand written =>
    obtain ⟨command, rest, -, hcommands, rfl⟩ := takeCommand_cases h
    simp only [notes, hcommands]
    cases written with
    | true => exact ⟨rfl, rfl⟩
    | false => exact ⟨rfl, rfl⟩
  | forward =>
    obtain ⟨call, later, -, -, -, -, rfl⟩ := forward_cases h
    exact ⟨rfl, rfl⟩
  | receive i => cases hinput
  | close =>
    obtain ⟨-, -, rfl⟩ := close_cases h
    exact ⟨rfl, rfl⟩
  | handOver =>
    obtain ⟨e, -, ⟨-, rfl⟩ | ⟨-, -, ⟨call, later, -, rfl⟩ | ⟨-, rfl⟩⟩⟩ := handOver_cases h
    · exact ⟨rfl, rfl⟩
    · exact ⟨rfl, rfl⟩
    · exact ⟨rfl, rfl⟩
  | invoke command =>
    obtain ⟨-, ⟨-, rfl⟩ | ⟨-, -, rfl⟩⟩ := invoke_cases h
    · exact ⟨rfl, rfl⟩
    · exact ⟨rfl, rfl⟩
  | next =>
    obtain ⟨-, ⟨d, later, -, rfl⟩ | ⟨-, -, rfl⟩⟩ := next_cases h
    · exact ⟨rfl, rfl⟩
    · exact ⟨rfl, rfl⟩
  | drop =>
    obtain ⟨-, rfl⟩ := drop_cases h
    exact ⟨rfl, rfl⟩

/-- The invocations that a step dispatches are the next of those that arrive. -/
theorem step_arrived (h : c.step? a = some v) {rest : List Incoming}
    (ended : v.phase ≠ .running → rest = []) :
    Note.calls (c.notes a) ++ (verdict v.frames rest).calls <+:
        (verdict c.frames (a.input?.toList ++ rest)).calls ∧
      (Note.loss? (c.notes a) ≠ some .backlog →
        Note.calls (c.notes a) ++ (verdict v.frames rest).calls =
          (verdict c.frames (a.input?.toList ++ rest)).calls) := by
  cases a with
  | receive i =>
    have hstop : v.phase = .running → Note.loss? (c.notesOfIncoming i) = none :=
      fun hrun => ((step_changes h).of_running hrun).2
    obtain ⟨-, rfl⟩ := receive_cases h
    simp only [notes, Action.input?, Option.toList_some, List.singleton_append]
    cases hloss : Note.loss? (c.notesOfIncoming i) with
    | none =>
      rw [incoming_told hloss rest]
      exact ⟨List.prefix_rfl, fun _ => rfl⟩
    | some e =>
      obtain rfl : rest = [] := ended fun hrun => by simp [hstop hrun] at hloss
      simpa [verdict] using incoming_lost hloss []
  | _ =>
    obtain ⟨hcalls, hframes⟩ := step_aside h rfl
    rw [hcalls, hframes]
    exact ⟨List.prefix_rfl, fun _ => rfl⟩

/-- Nothing arrives any more at a connection that does not run. -/
theorem run_idle (run : Run step? Anything c as v) (hstop : c.phase ≠ .running) :
    received as = [] ∧ Note.calls (c.history as) = [] ∧ Note.loss? (c.history as) = none := by
  refine ⟨?_, ((run_changes run).idle hstop).2⟩
  induction run with
  | nil => rfl
  | @cons c u v a as _ step _ ih =>
    have hrest := ih ((step_changes step).idle hstop).1
    rw [received_cons, hrest]
    cases a with
    | receive i => exact absurd (receive_cases step).1 hstop
    | _ => rfl

/-- The invocations that a run dispatches are those that arrive, as far as there was room. -/
theorem run_arrived (run : Run step? Anything c as v) :
    Note.calls (c.history as) <+: (verdict c.frames (received as)).calls ∧
      (Note.loss? (c.history as) ≠ some .backlog →
        Note.calls (c.history as) = (verdict c.frames (received as)).calls) := by
  induction run with
  | nil c => exact ⟨List.nil_prefix, fun _ => rfl⟩
  | @cons c u v a as _ step rest ih =>
    have ended : u.phase ≠ .running → received as = [] := fun hstop => (run_idle rest hstop).1
    obtain ⟨hpart, hall⟩ := step_arrived step ended
    rw [history_cons step, received_cons, Note.calls_append, Note.loss?_append]
    refine ⟨?_, fun hloss => ?_⟩
    · exact ((List.prefix_append_right_inj _).mpr ih.1).trans hpart
    · -- The step and the rest of the run cannot both end the connection.
      have hfirst : Note.loss? (c.notes a) ≠ some .backlog := by
        intro hbacklog
        rw [hbacklog] at hloss
        exact hloss rfl
      have hlater : Note.loss? (u.history as) ≠ some .backlog := by
        intro hbacklog
        by_cases hrun : u.phase = .running
        · rw [((step_changes step).of_running hrun).2] at hloss
          exact hloss hbacklog
        · simp [(run_idle rest hrun).2.2] at hbacklog
      rw [ih.2 hlater]
      exact hall hfirst

/-- All that arrive are dispatched, except after a backlog. -/
theorem calls_arrived (run : Run step? Anything (ofHandshake frames messages) as v) :
    Note.calls (historyOf frames messages as) <+: arrived frames messages as ∧
      (Note.loss? (historyOf frames messages as) ≠ some .backlog →
        Note.calls (historyOf frames messages as) = arrived frames messages as) := by
  have hframes : (ofHandshake frames messages).frames = frames := frames_dispatch _ _
  obtain ⟨hpart, hall⟩ := run_arrived run
  rw [hframes] at hpart hall
  rw [historyOf, Note.calls_append, Note.loss?_append, arrived]
  cases hloss : Note.loss? (Note.ofMessages maxWaiting messages) with
  | none =>
    rw [Note.ofMessages_told hloss]
    exact ⟨(List.prefix_append_right_inj _).mpr hpart, fun hnone => congrArg _ (hall hnone)⟩
  | some e =>
    have hstop : (ofHandshake frames messages).phase ≠ .running := by
      intro hrun
      simp [((opening_changes frames messages).of_running hrun).2] at hloss
    obtain ⟨-, hcalls, -⟩ := run_idle run hstop
    rw [hcalls, List.append_nil]
    obtain ⟨hbefore, hequal⟩ := Note.ofMessages_lost hloss (verdict frames (received as))
    exact ⟨hbefore, fun hbacklog => hequal fun he => hbacklog (he ▸ rfl)⟩

end Connection
end TokenWatch.Hub
