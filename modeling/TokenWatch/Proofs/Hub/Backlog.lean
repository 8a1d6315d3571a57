import TokenWatch.Proofs.Hub.Conservation

/-!
How many server invocations wait for the caller. What was dispatched and not returned stands in the
channel and in the outbox, which have room for so many and no more, and a connection is lost for its
backlog only when more invocations wait than the outbox takes.
-/
namespace TokenWatch.Hub

theorem Note.loss?_eq_backlog_iff {room : Nat} {messages : List Message} :
    loss? (ofMessages room messages) = some .backlog ↔ room < (heard messages).1.length := by
  rw [loss?_ofMessages]
  split
  · rename_i hover
    exact ⟨fun _ => hover, fun _ => rfl⟩
  · rename_i hroom
    refine ⟨fun hclosed => ?_, fun hover => absurd hover hroom⟩
    obtain ⟨failure, -, hfailure⟩ := Option.map_eq_some_iff.mp hclosed
    cases hfailure

theorem ne_backlog_of_mapM {frames : List (List Char)} {e : Error}
    (h : frames.mapM Message.parse = .error e) : e ≠ .backlog := by
  induction frames with
  | nil => cases h
  | cons frame rest ih =>
    rw [mapM_parse_cons] at h
    split at h
    · rename_i hparse
      cases h
      rw [eq_json_of_parse hparse]
      exact nofun
    · rename_i hrest
      cases h
      exact ih hrest
    · cases h

/-- A text that is too long is refused as such. -/
theorem ne_backlog_of_push {b frames : OpenFrame} {cs : List Char} {e : Error}
    (h : b.push cs = (frames, .error e)) : e ≠ .backlog := by
  simp only [OpenFrame.push] at h
  split at h
  · intro hbacklog
    subst hbacklog
    cases h
  · cases h

namespace Connection

variable {c u v : Connection} {a : Action} {as bs : List Action} {i : Incoming}
  {h ns : List Note} {messages : List Message} {frames : OpenFrame}

section Bound

def channelCalls (c : Connection) : List Call := c.channel.filterMap Except.toOption

/-- The invocations that were dispatched and not returned, in order. -/
def outstanding (c : Connection) : List Call := c.channelCalls ++ c.outbox

theorem returned_append_outstanding (c : Connection) :
    c.returned ++ c.outstanding = c.line.filterMap Except.toOption ++ c.outbox := by
  rw [outstanding, ← List.append_assoc, line, List.filterMap_append]
  rfl

/-- What is outstanding has its place in the channel or in the outbox. -/
structure Tallied (h : List Note) (c : Connection) : Prop where
  conserved : c.returned ++ c.outstanding = Note.calls h
  channel : c.channelCalls.length ≤ channelSlots
  outbox : c.outbox.length ≤ maxWaiting

theorem Tallied.length_outstanding_le (hc : Tallied h c) :
    c.outstanding.length ≤ maxWaiting + channelSlots := by
  have hchannel := hc.channel
  have houtbox := hc.outbox
  rw [outstanding, List.length_append]
  omega

theorem tallied_blank (frames : OpenFrame) : Tallied [] (blank frames) :=
  ⟨rfl, Nat.zero_le _, Nat.zero_le _⟩

/-- What dispatches nothing, and at most takes something from the channel. -/
theorem Tallied.of_same (hc : Tallied h c)
    (same : (v.line.filterMap Except.toOption, v.outbox) =
      (c.line.filterMap Except.toOption, c.outbox))
    (shorter : v.channelCalls.length ≤ c.channelCalls.length) (quiet : Note.calls ns = []) :
    Tallied (h ++ ns) v := by
  obtain ⟨hline, houtbox⟩ := Prod.mk.inj same
  constructor
  · rw [Note.calls_append, quiet, List.append_nil, ← hc.conserved, returned_append_outstanding,
      returned_append_outstanding, hline, houtbox]
  · exact Nat.le_trans shorter hc.channel
  · rw [houtbox]
    exact hc.outbox

theorem Tallied.appendCall (hc : Tallied h c) (room : c.outbox.length < maxWaiting) (call : Call) :
    Tallied (h ++ [.dispatched call]) { c with outbox := c.outbox ++ [call] } := by
  refine ⟨?_, hc.channel, ?_⟩
  · rw [Note.calls_append, ← hc.conserved, returned_append_outstanding, returned_append_outstanding,
      List.append_assoc]
    rfl
  · rw [List.length_append, List.length_singleton]
    exact room

/-- The first of the outbox becomes the last of the channel. -/
theorem Tallied.passOn (hc : Tallied h c) {call : Call} {later : List Call}
    (first : c.outbox = call :: later) (free : c.channel.length < channelSlots) :
    Tallied h { c with outbox := later, channel := c.channel ++ [.ok call] } := by
  have hcalls : ({ c with outbox := later, channel := c.channel ++ [.ok call] }
      : Connection).channelCalls = c.channelCalls ++ [call] := List.filterMap_append
  refine ⟨?_, ?_, ?_⟩
  · rw [← hc.conserved, outstanding, outstanding, hcalls, first, List.append_assoc]
    rfl
  · have hlength : c.channelCalls.length ≤ c.channel.length := List.length_filterMap_le _ _
    rw [hcalls, List.length_append, List.length_singleton]
    omega
  · have houtbox := hc.outbox
    rw [first, List.length_cons] at houtbox
    exact Nat.le_of_succ_le houtbox

theorem Change.tallied (hc : Tallied h c) (change : Change c ns v) : Tallied (h ++ ns) v := by
  cases change with
  | dispatched call running room => exact hc.appendCall room call
  | passedOn going held first free => exact (List.append_nil h).symm ▸ hc.passOn first free
  | @finished e ending held empty =>
    have hline : ({ c with channel := c.channel ++ [Except.error e] } : Connection).finish.line =
        c.line ++ [.error e] := (List.append_assoc _ _ _).symm
    have hcalls : ({ c with channel := c.channel ++ [Except.error e] }
        : Connection).finish.channelCalls = c.channelCalls :=
      List.filterMap_append.trans (List.append_nil _)
    refine hc.of_same ?_ (Nat.le_of_eq (congrArg _ hcalls)) rfl
    rw [hline, List.filterMap_append]
    exact congrArg (·, c.outbox) (List.append_nil _)
  | @got d later held first =>
    have hline : ({ c with channel := later, delivered := d :: c.delivered } : Connection).line =
        c.line := by simp [line, first]
    refine hc.of_same (by rw [hline]) ?_ rfl
    have hpart : later.Sublist c.channel := first ▸ List.sublist_cons_self d later
    exact (hpart.filterMap _).length_le
  | gotNothing held empty ended =>
    refine hc.of_same ?_ (Nat.le_refl _) rfl
    simp [line, empty, Except.toOption]
  | _ => exact hc.of_same rfl (Nat.le_refl _) rfl

theorem tallied_of_run {allowed : Connection → Action → Prop}
    (run : Run step? allowed (ofHandshake frames messages) as v) :
    Tallied (historyOf frames messages as) v :=
  of_run tallied_blank (fun _ _ _ _ hc change => change.tallied hc) run

end Bound

section Overflow

/-- Messages with more invocations than find room end a connection with its outbox full. -/
theorem dispatch_overflow (hrun : c.phase = .running)
    (excess : maxWaiting - c.outbox.length < (heard messages).1.length) :
    (c.dispatch messages).phase = .ending .backlog ∧
      maxWaiting ≤ (c.dispatch messages).outbox.length := by
  induction messages generalizing c with
  | nil => cases excess
  | cons m ms ih =>
    cases m with
    | invocation id target arguments =>
      by_cases hfull : maxWaiting ≤ c.outbox.length
      · simp only [dispatch, if_pos hfull]
        exact ⟨rfl, hfull⟩
      · simp only [dispatch, if_neg hfull]
        refine ih hrun ?_
        simp only [heard, List.length_cons, List.length_append, List.length_nil] at excess ⊢
        omega
    | completion id result failure =>
      simp only [dispatch]
      split
      · exact ih hrun excess
      · exact ih hrun excess
    | close failure => cases excess
    | ping => exact ih hrun excess
    | other kind => exact ih hrun excess

/-- Only a text with too many invocations ends a connection for its backlog. -/
theorem exists_text_of_backlog (h : Note.loss? (c.notes a) = some .backlog) :
    ∃ cs frames pieces messages, a = .receive (.text cs) ∧ c.frames.push cs = (frames, .ok pieces) ∧
      pieces.mapM Message.parse = .ok messages ∧
      maxWaiting - c.outbox.length < (heard messages).1.length := by
  cases a with
  | ping written => cases written <;> cases h
  | takeCommand written =>
    simp only [notes] at h
    split at h
    · cases written <;> cases h
    · cases h
  | receive i =>
    cases i with
    | text cs =>
      rcases hpush : c.frames.push cs with ⟨frames, error | pieces⟩
      · simp only [notes, notesOfIncoming, hpush] at h
        cases h
        exact absurd rfl (ne_backlog_of_push hpush)
      · rcases hparse : pieces.mapM Message.parse with error | messages
        · simp only [notes, notesOfIncoming, hpush, hparse] at h
          cases h
          exact absurd rfl (ne_backlog_of_mapM hparse)
        · simp only [notes, notesOfIncoming, hpush, hparse] at h
          exact ⟨cs, frames, pieces, messages, rfl, hpush, hparse, Note.loss?_eq_backlog_iff.mp h⟩
    | _ => cases h
  | _ => cases h

theorem history_append {allowed : Connection → Action → Prop} (run : Run step? allowed c as v)
    (bs : List Action) : c.history (as ++ bs) = c.history as ++ v.history bs := by
  induction run with
  | nil => rfl
  | cons _ step _ ih => rw [List.cons_append, history_cons step, ih, history_cons step,
      List.append_assoc]

theorem historyOf_append {allowed : Connection → Action → Prop}
    (run : Run step? allowed (ofHandshake frames messages) as v) (bs : List Action) :
    historyOf frames messages (as ++ bs) = historyOf frames messages as ++ v.history bs := by
  rw [historyOf, history_append run, historyOf, List.append_assoc]

/-- While a connection runs, what arrived was dispatched. -/
theorem run_told (run : Run step? Anything c as v) (hrun : v.phase = .running)
    (rest : List Incoming) :
    (verdict c.frames (received as ++ rest)).calls =
      Note.calls (c.history as) ++ (verdict v.frames rest).calls := by
  induction run with
  | nil => rfl
  | @cons c u v a as _ step run ih =>
    obtain ⟨hu, -⟩ := (run_changes run).of_running hrun
    obtain ⟨-, hnone⟩ := (step_changes step).of_running hu
    have ended : u.phase ≠ .running → received as ++ rest = [] := fun hstop => absurd hu hstop
    obtain ⟨-, hstep⟩ := step_arrived step ended
    have hcalls := hstep (by rw [hnone]; exact nofun)
    rw [received_cons, history_cons step, Note.calls_append, List.append_assoc, List.append_assoc,
      ← hcalls, ih hrun]

theorem arrived_append (run : Run step? Anything (ofHandshake frames messages) as v)
    (hrun : v.phase = .running) (bs : List Action) :
    arrived frames messages (as ++ bs) =
      Note.calls (historyOf frames messages as) ++ (verdict v.frames (received bs)).calls := by
  obtain ⟨hstart, -⟩ := (run_changes run).of_running hrun
  obtain ⟨-, hnone⟩ := (opening_changes frames messages).of_running hstart
  have htold := run_told run hrun (received bs)
  have hframes : (ofHandshake frames messages).frames = frames := frames_dispatch _ _
  rw [hframes] at htold
  rw [arrived, received, List.filterMap_append, Note.ofMessages_told hnone, historyOf,
    Note.calls_append, List.append_assoc]
  exact congrArg _ htold

/-- A connection that has just been lost for its backlog: with the invocation that found no room
more are outstanding than the outbox takes. -/
structure Overflowed (frames : OpenFrame) (messages : List Message) (as : List Action)
    (c : Connection) : Prop where
  lost : c.phase = .ending .backlog
  excess : ∃ call rest, arrived frames messages as = c.returned ++ c.outstanding ++ call :: rest ∧
    maxWaiting < (c.outstanding ++ [call]).length

theorem heard_ofMessages_calls (messages : List Message) (e : Error) :
    (Told.ofMessages messages ⟨[], e⟩).calls = (heard messages).1 := by
  unfold Told.ofMessages
  split
  · rfl
  · exact List.append_nil _

/-- The invocation that finds no room follows those that were dispatched. -/
theorem Overflowed.of_dispatch {room : Nat} {past : List Call}
    (hc : Tallied h c) (lost : c.phase = .ending .backlog) (full : maxWaiting ≤ c.outbox.length)
    (hcalls : Note.calls h = past ++ (heard messages).1.take room)
    (excess : room < (heard messages).1.length) {first : List Message}
    (harrived : arrived frames first as = past ++ (heard messages).1) :
    Overflowed frames first as c := by
  refine ⟨lost, (heard messages).1[room], (heard messages).1.drop (room + 1), ?_, ?_⟩
  · rw [hc.conserved, hcalls, harrived, List.append_assoc, ← List.drop_eq_getElem_cons excess,
      List.take_append_drop]
  · rw [outstanding, List.length_append, List.length_append, List.length_singleton]
    omega

theorem overflowed_start (lost : Note.loss? (Note.ofMessages maxWaiting messages) = some .backlog) :
    Overflowed frames messages [] (ofHandshake frames messages) := by
  have excess := Note.loss?_eq_backlog_iff.mp lost
  have run : Run step? Anything (ofHandshake frames messages) [] (ofHandshake frames messages) :=
    .nil _
  obtain ⟨hphase, hfull⟩ := @dispatch_overflow (blank frames) messages rfl excess
  have hcalls : Note.calls (historyOf frames messages []) =
      [] ++ (heard messages).1.take maxWaiting := by
    rw [historyOf, history, List.append_nil, Note.calls_ofMessages, List.nil_append]
  exact .of_dispatch (tallied_of_run run) hphase hfull hcalls excess
    (heard_ofMessages_calls messages _)

theorem Overflowed.of_step (run : Run step? Anything (ofHandshake frames messages) as c)
    (step : c.step? a = some v) (lost : Note.loss? (c.notes a) = some .backlog) :
    Overflowed frames messages (as ++ [a]) v := by
  have hc : Tallied (historyOf frames messages (as ++ [a])) v :=
    tallied_of_run (run.append (.single trivial step))
  have harrived (hrun : c.phase = .running) := arrived_append run hrun [a]
  obtain ⟨cs, frames', pieces, ms, rfl, hpush, hparse, excess⟩ := exists_text_of_backlog lost
  obtain ⟨hrun, rfl⟩ := receive_cases step
  have hreceive :
      c.receive (.text cs) = ({ c with frames := frames' } : Connection).dispatch ms := by
    simp only [receive, hpush, hparse]
  obtain ⟨hphase, hfull⟩ := @dispatch_overflow { c with frames := frames' } ms hrun excess
  have hverdict : (verdict c.frames [.text cs]).calls = (heard ms).1 := by
    simp only [verdict, hpush, hparse]
    exact heard_ofMessages_calls ms _
  refine .of_dispatch hc (hreceive ▸ hphase) (hreceive ▸ hfull) ?_ excess
    ((harrived hrun).trans (congrArg _ hverdict))
  rw [historyOf_append run, Note.calls_append, history_cons step, history, List.append_nil]
  simp only [notes, notesOfIncoming, hpush, hparse, Note.calls_ofMessages]

def OverflowedWithin (frames : OpenFrame) (messages : List Message) (as : List Action)
    (v : Connection) : Prop :=
  ∃ before later u, as = before ++ later ∧
    Run step? Anything (ofHandshake frames messages) before u ∧ Run step? Anything u later v ∧
    Overflowed frames messages before u

theorem OverflowedWithin.concat (h : OverflowedWithin frames messages as c)
    (step : c.step? a = some v) : OverflowedWithin frames messages (as ++ [a]) v := by
  obtain ⟨before, later, u, rfl, hbefore, hlater, hu⟩ := h
  exact ⟨before, later ++ [a], u, List.append_assoc _ _ _, hbefore,
    hlater.append (.single trivial step), hu⟩

theorem overflowedWithin_of_run (run : Run step? Anything (ofHandshake frames messages) as v) :
    Run step? Anything (ofHandshake frames messages) as v ∧
      (Note.loss? (historyOf frames messages as) = some .backlog →
        OverflowedWithin frames messages as v) := by
  let P (as : List Action) (v : Connection) : Prop :=
    Run step? Anything (ofHandshake frames messages) as v ∧
      (Note.loss? (historyOf frames messages as) = some .backlog →
        OverflowedWithin frames messages as v)
  have hstart : P [] (ofHandshake frames messages) := by
    refine ⟨.nil _, fun lost => ⟨[], [], _, rfl, .nil _, .nil _, overflowed_start ?_⟩⟩
    rwa [historyOf, history, List.append_nil] at lost
  refine run.preserves_along (P := P) ?_ hstart
  rintro as c a v ⟨run, hlost⟩ _ step
  have hrun := run.append (.single trivial step)
  refine ⟨hrun, fun lost => ?_⟩
  rw [historyOf_append run, Note.loss?_append, history_cons step, history, List.append_nil] at lost
  cases hearlier : Note.loss? (historyOf frames messages as) with
  | some e =>
    rw [hearlier, Option.some_or] at lost
    exact (hlost (hearlier.trans lost)).concat step
  | none =>
    rw [hearlier, Option.none_or] at lost
    exact ⟨as ++ [a], [], v, (List.append_nil _).symm, hrun, .nil v, .of_step run step lost⟩

/-- Whenever a connection is lost for its backlog, it overflowed at some point of its run, after
which nothing is dispatched. -/
theorem exists_overflowed (run : Run step? Anything (ofHandshake frames messages) as v)
    (lost : Note.loss? (historyOf frames messages as) = some .backlog) :
    ∃ before later u, as = before ++ later ∧
      Run step? Anything (ofHandshake frames messages) before u ∧ Run step? Anything u later v ∧
      Overflowed frames messages before u ∧
      u.returned ++ u.outstanding = Note.calls (historyOf frames messages as) := by
  obtain ⟨before, later, u, rfl, hbefore, hlater, hu⟩ := (overflowedWithin_of_run run).2 lost
  refine ⟨before, later, u, rfl, hbefore, hlater, hu, ?_⟩
  obtain ⟨-, hquiet, -⟩ := run_idle hlater (by rw [hu.lost]; exact nofun)
  rw [historyOf_append hbefore, Note.calls_append, hquiet, List.append_nil]
  exact (tallied_of_run hbefore).conserved

end Overflow

section Reading

theorem held_of_reading (ok : Reading c a) (step : c.step? a = some v) (going : c.held = true) :
    v.held = true ∧ c.notes a = [] := by
  cases a with
  | handOver =>
    obtain ⟨e, -, ⟨-, rfl⟩ | ⟨-, -, ⟨call, later, -, rfl⟩ | ⟨-, rfl⟩⟩⟩ := handOver_cases step
    · exact ⟨going, rfl⟩
    · exact ⟨going, rfl⟩
    · exact ⟨going, rfl⟩
  | next =>
    obtain ⟨-, ⟨d, later, -, rfl⟩ | ⟨-, -, rfl⟩⟩ := next_cases step
    · exact ⟨going, rfl⟩
    · exact ⟨going, rfl⟩
  | _ => exact ok.elim

/-- After a loss a caller can go on asking for as long as it likes. -/
theorem Conserved.exists_reading {e : Error} (hc : Conserved h c) (lost : Note.loss? h = some e)
    (held : c.held = true) (n : Nat) : ∃ bs v, Run step? Reading c bs v ∧ n ≤ bs.length := by
  induction n generalizing c with
  | zero => exact ⟨[], c, .nil c, Nat.le_refl _⟩
  | succ n ih =>
    have hstep : ∃ a u, Reading c a ∧ c.step? a = some u := by
      cases hnext : c.step? .next with
      | some u => exact ⟨.next, u, trivial, hnext⟩
      | none =>
        obtain ⟨u, -, hhandOver, -⟩ := hc.next_of_lost lost held hnext
        exact ⟨.handOver, u, trivial, hhandOver⟩
    obtain ⟨a, u, ok, step⟩ := hstep
    obtain ⟨heldu, hquiet⟩ := held_of_reading ok step held
    have hu := (step_changes step).preserves (fun _ _ _ _ hc change => change.conserved hc) hc
    rw [hquiet, List.append_nil] at hu
    obtain ⟨bs, v, run, hlength⟩ := ih hu heldu
    exact ⟨a :: bs, v, .cons ok step run, Nat.succ_le_succ hlength⟩

end Reading

section Attained

theorem exists_forwarded (n : Nat) (hrun : c.phase = .running) (held : c.held = true)
    (enough : n ≤ c.outbox.length) (free : c.channel.length + n ≤ channelSlots) :
    ∃ v, Run step? Anything c (List.replicate n .forward) v ∧ v.phase = .running ∧
      v.frames = c.frames ∧ v.outbox.length = c.outbox.length - n ∧
      v.channelCalls.length = c.channelCalls.length + n := by
  induction n generalizing c with
  | zero => exact ⟨c, .nil c, hrun, rfl, rfl, rfl⟩
  | succ n ih =>
    obtain ⟨call, later, houtbox⟩ : ∃ call later, c.outbox = call :: later :=
      List.exists_cons_of_length_pos (Nat.lt_of_lt_of_le (Nat.succ_pos n) enough)
    let u : Connection := { c with outbox := later, channel := c.channel ++ [.ok call] }
    have step : c.step? .forward = some u := by
      have hfree : c.held = true ∧ c.channel.length < channelSlots := ⟨held, by omega⟩
      simp [step?, hrun, houtbox, hfree, u]
    have hcalls : u.channelCalls = c.channelCalls ++ [call] := List.filterMap_append
    rw [houtbox, List.length_cons] at enough
    obtain ⟨v, run, hrunv, hframes, hlength, hqueue⟩ := @ih u hrun held (by simp only [u]; omega)
      (by simp only [u, List.length_append, List.length_singleton]; omega)
    refine ⟨v, .cons trivial step run, hrunv, hframes, ?_, ?_⟩
    · rw [hlength, houtbox, List.length_cons]
      simp only [u]
      omega
    · rw [hqueue, hcalls, List.length_append, List.length_singleton]
      omega

def callText : List Char := "\x7b\"type\":1,\"target\":\"transfers\"\x7d\x1e".toList

theorem receive_callText (hframes : c.frames = .empty) :
    c.receive (.text callText) = c.dispatch [.invocation none "transfers" []] := by
  obtain ⟨frames⟩ := c
  cases hframes
  rfl

theorem exists_heard (n : Nat) (hrun : c.phase = .running) (hframes : c.frames = .empty)
    (room : c.outbox.length + n ≤ maxWaiting) :
    ∃ v, Run step? Anything c (List.replicate n (.receive (.text callText))) v ∧
      v.phase = .running ∧ v.outbox.length = c.outbox.length + n ∧
      v.channelCalls = c.channelCalls := by
  induction n generalizing c with
  | zero => exact ⟨c, .nil c, hrun, rfl, rfl⟩
  | succ n ih =>
    let u : Connection := { c with outbox := c.outbox ++ [⟨"transfers", []⟩] }
    have step : c.step? (.receive (.text callText)) = some u := by
      have hfree : ¬maxWaiting ≤ c.outbox.length := by omega
      simp only [step?, if_pos hrun, receive_callText hframes, dispatch, if_neg hfree]
      rfl
    have hlength : u.outbox.length = c.outbox.length + 1 := List.length_append
    obtain ⟨v, run, hrunv, hv, hcalls⟩ := @ih u hrun hframes (by omega)
    exact ⟨v, .cons trivial step run, hrunv, by omega, hcalls⟩

def replicated (n : Nat) : List Message := List.replicate n (.invocation none "transfers" [])

theorem heard_replicated (n : Nat) :
    (heard (replicated n)).1 = List.replicate n ⟨"transfers", []⟩ := by
  induction n with
  | zero => rfl
  | succ n ih => exact congrArg (⟨"transfers", []⟩ :: ·) ih

theorem length_arrived_replicated (n : Nat) : (arrived .empty (replicated n) []).length = n := by
  rw [arrived, received, List.filterMap_nil, verdict, heard_ofMessages_calls, heard_replicated,
    List.length_replicate]

/-- The outbox and the channel can both be full of invocations. -/
theorem exists_crowded :
    ∃ messages as v, Run step? Anything (ofHandshake .empty messages) as v ∧ v.phase = .running ∧
      v.outstanding.length = maxWaiting + channelSlots := by
  let messages := replicated channelSlots
  have hheard : (heard messages).1.length = channelSlots := by
    rw [heard_replicated, List.length_replicate]
  have hstart := @dispatch_heard (blank .empty) messages rfl (by rw [hheard]; decide)
  obtain ⟨houtbox, hphase, hbesides⟩ := hstart
  simp only [besides, Prod.mk.injEq] at hbesides
  obtain ⟨hframes, hchannel, -, hheld, -⟩ := hbesides
  have hrun : (ofHandshake .empty messages).phase = .running := hphase
  have hlength : (ofHandshake .empty messages).outbox.length = channelSlots :=
    (congrArg List.length houtbox).trans hheard
  have hempty : (ofHandshake .empty messages).channel.length = 0 := congrArg List.length hchannel
  obtain ⟨u, run, hrunu, hframesu, hout, hqueue⟩ :=
    exists_forwarded channelSlots hrun hheld (Nat.le_of_eq hlength.symm) (by omega)
  have hnone : (ofHandshake .empty messages).channelCalls.length = 0 :=
    congrArg (fun ds => (ds.filterMap Except.toOption).length) hchannel
  obtain ⟨v, run', hrunv, houtv, hcalls⟩ :=
    exists_heard maxWaiting hrunu (hframesu.trans hframes) (by omega)
  refine ⟨messages, _, v, run.append run', hrunv, ?_⟩
  rw [outstanding, List.length_append, hcalls]
  omega

/-- One invocation more than the outbox takes is enough to end a connection. -/
theorem overflowed_replicated :
    Overflowed .empty (replicated (maxWaiting + 1)) []
      (ofHandshake .empty (replicated (maxWaiting + 1))) := by
  refine overflowed_start (Note.loss?_eq_backlog_iff.mpr ?_)
  rw [heard_replicated, List.length_replicate]
  exact Nat.lt_succ_self _

end Attained

/-- Whatever the steps of a connection and its caller, the invocations that were dispatched are
those that were returned and those that are outstanding, which have room in the outbox and the
channel together. A connection that is lost for its backlog overflowed: at that moment, with the
invocation that found no room, more were outstanding than the outbox takes. The caller is told no
more than all that were dispatched, in order, and the backlog right after them; it never waits but
for one hand-over, and is told all of it if it asks often enough, as it can. So a connection whose
caller never lets more than the outbox takes arrive before it gets them is not lost for its
backlog. Both bounds are attained. -/
theorem backlog_limit_tight :
    (∀ frames messages as v, Run step? Anything (ofHandshake frames messages) as v →
      let h := historyOf frames messages as
      v.returned ++ v.outstanding = Note.calls h ∧
      v.outstanding.length ≤ maxWaiting + channelSlots ∧
      (Note.loss? h = some .backlog →
        (∃ before later u, as = before ++ later ∧
          Run step? Anything (ofHandshake frames messages) before u ∧ Run step? Anything u later v ∧
          Overflowed frames messages before u ∧ u.returned ++ u.outstanding = Note.calls h) ∧
        let told (n : Nat) : List Delivery :=
          (Note.calls h).map .ok ++ .error .backlog :: List.replicate n (.error (.closed none))
        (∃ n, v.delivered.reverse <+: told n) ∧
        (v.held = true →
          (v.step? .next = none → ∃ u w, v.step? .handOver = some u ∧ u.step? .next = some w) ∧
          (∀ n bs u, Run step? Reading v bs u →
            (Note.calls h).length + v.outbox.length + n + 2 ≤ bs.length →
            told n <+: u.delivered.reverse) ∧
          ∀ n, ∃ bs u, Run step? Reading v bs u ∧ told n <+: u.delivered.reverse)) ∧
      ((∀ before u, before <+: as → Run step? Anything (ofHandshake frames messages) before u →
          (arrived frames messages before).length ≤ u.returned.length + maxWaiting) →
        Note.loss? h ≠ some .backlog)) ∧
    (∃ messages as v, Run step? Anything (ofHandshake .empty messages) as v ∧ v.phase = .running ∧
      v.outstanding.length = maxWaiting + channelSlots) ∧
    ∃ messages, Overflowed .empty messages [] (ofHandshake .empty messages) ∧
      (arrived .empty messages []).length = maxWaiting + 1 := by
  refine ⟨fun frames messages as v run => ?_, exists_crowded, _, overflowed_replicated,
    length_arrived_replicated _⟩
  intro h
  have tallied : Tallied h v := tallied_of_run run
  have conserved : Conserved h v := conserved_of_run run
  refine ⟨tallied.conserved, tallied.length_outstanding_le, fun lost => ?_, fun modest lost => ?_⟩
  · have hscript (n : Nat) : script h n = (Note.calls h).map .ok ++
        .error .backlog :: List.replicate n (.error (.closed none)) := by rw [script, lost]
    refine ⟨exists_overflowed run lost, ?_⟩
    simp only [← hscript]
    refine ⟨conserved.delivered_isPrefix, fun held => ⟨conserved.next_of_lost lost held,
      fun n bs u reading enough => conserved.script_of_reading lost reading enough, fun n => ?_⟩⟩
    obtain ⟨bs, u, reading, enough⟩ := conserved.exists_reading lost held
      ((Note.calls h).length + v.outbox.length + n + 2)
    exact ⟨bs, u, reading, conserved.script_of_reading lost reading enough⟩
  · obtain ⟨before, later, u, rfl, hbefore, -, hu, -⟩ := exists_overflowed run lost
    obtain ⟨call, rest, harrived, hover⟩ := hu.excess
    have hfew := modest before u (List.prefix_append _ _) hbefore
    rw [harrived] at hfew
    simp only [List.length_append, List.length_cons, List.length_nil] at hfew hover
    omega

/-- With the answer to the handshake come as many invocations as the outbox takes, and one more. -/
theorem backlog_limit_tight_by_one :
    (Note.loss? (historyOf .empty (replicated maxWaiting) []) ≠ some .backlog) ∧
    ∃ bs u, Run step? Reading (ofHandshake .empty (replicated (maxWaiting + 1))) bs u ∧
      List.replicate maxWaiting (.ok ⟨"transfers", []⟩) ++ [.error .backlog] <+:
        u.delivered.reverse := by
  obtain ⟨hruns, -⟩ := backlog_limit_tight
  obtain ⟨-, -, -, hmodest⟩ := hruns .empty (replicated maxWaiting) [] _ (.nil _)
  obtain ⟨-, -, hlost, -⟩ := hruns .empty (replicated (maxWaiting + 1)) [] _ (.nil _)
  have hmany : maxWaiting < (heard (replicated (maxWaiting + 1))).1.length := by
    rw [heard_replicated, List.length_replicate]
    exact Nat.lt_succ_self _
  have hcalls : Note.calls (historyOf .empty (replicated (maxWaiting + 1)) []) =
      List.replicate maxWaiting ⟨"transfers", []⟩ := by
    rw [historyOf, history, List.append_nil, Note.calls_ofMessages, heard_replicated,
      List.take_replicate, Nat.min_eq_left (Nat.le_succ _)]
  have lost : Note.loss? (historyOf .empty (replicated (maxWaiting + 1)) []) = some .backlog := by
    rw [historyOf, history, List.append_nil]
    exact Note.loss?_eq_backlog_iff.mpr hmany
  have held : (ofHandshake .empty (replicated (maxWaiting + 1))).held = true := by
    have hbesides := besides_dispatch (blank .empty) (replicated (maxWaiting + 1))
    simp only [besides, Prod.mk.injEq] at hbesides
    exact hbesides.2.2.2.1
  obtain ⟨-, -, hheld⟩ := hlost lost
  obtain ⟨-, -, htold⟩ := hheld held
  obtain ⟨bs, u, reading, hpart⟩ := htold 0
  simp only [hcalls, List.map_replicate, List.replicate_zero] at hpart
  refine ⟨hmodest fun before u hbefore _ => ?_, bs, u, reading, hpart⟩
  rw [List.prefix_nil.mp hbefore, length_arrived_replicated]
  exact Nat.le_add_left _ _

end Connection
end TokenWatch.Hub
