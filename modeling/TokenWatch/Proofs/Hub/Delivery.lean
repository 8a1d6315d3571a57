import TokenWatch.Proofs.Hub.Step
import TokenWatch.Proofs.Hub.Verdict
import TokenWatch.Proofs.Run

/-!
From the socket to the caller: what is on its way and what is still to arrive make up one list that
every step of an open connection keeps, and the caller gets all of it.
-/
namespace TokenWatch.Hub.Connection

variable {c v : Connection} {act : Action} {as : List Action} {inputs rest : List Incoming}
  {i : Incoming} {messages : List Message}

def Action.input? : Action → Option Incoming
  | .receive i => some i
  | _ => none

def received (as : List Action) : List Incoming := as.filterMap Action.input?

theorem received_cons (act : Action) (as : List Action) :
    received (act :: as) = act.input?.toList ++ received as := by
  cases h : act.input? <;> simp [received, h]

/-- A caller that holds on to the connection and only asks for invocations. All writes succeed. -/
def Listening (_ : Connection) : Action → Prop
  | .ping written => written = true
  | .invoke _ | .drop => False
  | _ => True

section Dispatch

def besides (c : Connection) :
    OpenFrame × List Delivery × List Delivery × Bool × List Command :=
  (c.frames, c.channel, c.delivered, c.held, c.commands)

theorem besides_dispatch (c : Connection) (messages : List Message) :
    (c.dispatch messages).besides = c.besides := by
  induction messages generalizing c with
  | nil => rfl
  | cons m ms ih =>
    cases m with
    | invocation id target arguments =>
      simp only [dispatch]
      split
      · rfl
      · exact ih _
    | completion id result failure =>
      simp only [dispatch]
      split
      · exact ih c
      · exact ih _
    | close failure => rfl
    | ping => exact ih c
    | other kind => exact ih c

/-- While there is room, messages put their invocations into the outbox up to a close message. -/
theorem dispatch_heard (hrun : c.phase = .running)
    (room : c.outbox.length + (heard messages).1.length ≤ maxWaiting) :
    (c.dispatch messages).outbox = c.outbox ++ (heard messages).1 ∧
      (c.dispatch messages).phase =
        (match (heard messages).2 with
        | some failure => .ending (.closed failure)
        | none => .running) ∧
      (c.dispatch messages).besides = c.besides := by
  induction messages generalizing c with
  | nil => exact ⟨(List.append_nil _).symm, hrun, rfl⟩
  | cons m ms ih =>
    cases m with
    | invocation id target arguments =>
      simp only [heard, List.length_cons] at room
      have hroom : ¬maxWaiting ≤ c.outbox.length := by omega
      obtain ⟨houtbox, hphase, hbesides⟩ :=
        @ih { c with outbox := c.outbox ++ [⟨target, arguments⟩] } hrun
          (by simp only [List.length_append, List.length_singleton]; omega)
      simp only [dispatch, if_neg hroom, heard]
      refine ⟨?_, hphase, hbesides⟩
      rw [houtbox, List.append_assoc]
      rfl
    | completion id result failure =>
      simp only [dispatch, heard]
      split
      · exact ih hrun room
      · exact ih hrun room
    | ping => exact ih hrun room
    | close failure => exact ⟨(List.append_nil _).symm, rfl, rfl⟩
    | other kind => exact ih hrun room

end Dispatch

/-- What the caller has not got yet, if nothing but `inputs` arrives any more. -/
def forecast (c : Connection) (inputs : List Incoming) : List Delivery :=
  c.channel ++
    match c.phase with
    | .running => ((verdict c.frames inputs).after c.outbox).deliveries
    | .ending e => (⟨c.outbox, e⟩ : Told).deliveries
    | .ended => []

/-- A connection whose caller listens, with room for all invocations to come until the end of the
stream. -/
structure Open (c : Connection) (inputs : List Incoming) : Prop where
  held : c.held = true
  commands : c.commands = []
  ends : c.phase = .running → .ended ∈ inputs
  room : c.phase = .running →
    c.outbox.length + (verdict c.frames inputs).calls.length ≤ maxWaiting

/-- The loss of a connection is foreseen, whatever is left of an unfinished frame. -/
theorem lose_foreseen (hc : Open c inputs) (hrun : c.phase = .running) {e : Error}
    (hverdict : verdict c.frames inputs = ⟨[], e⟩) (frames : OpenFrame) :
    Open ({ c with frames }.lose e) rest ∧
      ({ c with frames }.lose e).forecast rest = c.forecast inputs ∧
      ({ c with frames }.lose e).delivered = c.delivered := by
  have hstop : ({ c with frames }.lose e).phase ≠ .running := by simp [lose]
  have hopen : Open ({ c with frames }.lose e) rest :=
    ⟨hc.held, hc.commands, fun hrun => absurd hrun hstop, fun hrun => absurd hrun hstop⟩
  refine ⟨hopen, ?_, rfl⟩
  simp [forecast, lose, hrun, hverdict, Told.after]

/-- Messages that arrive are foreseen. -/
theorem dispatch_foreseen (hheld : c.held = true) (hcommands : c.commands = [])
    (hends : .ended ∈ rest) (hrun : c.phase = .running)
    (room : c.outbox.length + (Told.ofMessages messages (verdict c.frames rest)).calls.length ≤
      maxWaiting) :
    Open (c.dispatch messages) rest ∧
      (c.dispatch messages).forecast rest =
        c.channel ++
          ((Told.ofMessages messages (verdict c.frames rest)).after c.outbox).deliveries ∧
      (c.dispatch messages).delivered = c.delivered := by
  have hshort : c.outbox.length + (heard messages).1.length ≤ maxWaiting := by
    unfold Told.ofMessages at room
    split at room
    · exact room
    · simp only [Told.after, List.length_append] at room
      omega
  obtain ⟨houtbox, hphase, hbesides⟩ := dispatch_heard hrun hshort
  simp only [besides, Prod.mk.injEq] at hbesides
  obtain ⟨hframes, hchannel, hdelivered, hheldv, hcommandsv⟩ := hbesides
  refine ⟨⟨hheldv.trans hheld, hcommandsv.trans hcommands, fun _ => hends, ?_⟩, ?_, hdelivered⟩
  · intro hrunv
    cases hclose : (heard messages).2 with
    | some failure =>
      rw [hphase, hclose] at hrunv
      cases hrunv
    | none =>
      simp only [Told.ofMessages, hclose, Told.after, List.length_append] at room
      rw [houtbox, hframes, List.length_append]
      omega
  · unfold forecast Told.ofMessages
    rw [hchannel, hphase, houtbox, hframes]
    cases (heard messages).2 with
    | some failure => rfl
    | none => simp [Told.after]

/-- What arrives is foreseen. -/
theorem receive_foreseen (hc : Open c (i :: rest)) (hrun : c.phase = .running) :
    Open (c.receive i) rest ∧ (c.receive i).forecast rest = c.forecast (i :: rest) ∧
      (c.receive i).delivered = c.delivered := by
  cases i with
  | text cs =>
    have hroom := hc.room hrun
    rcases hpush : c.frames.push cs with ⟨frames, error | pieces⟩
    · have hverdict : verdict c.frames (.text cs :: rest) = ⟨[], error⟩ := by
        simp only [verdict, hpush]
      simp only [receive, hpush]
      exact lose_foreseen hc hrun hverdict frames
    rcases hparse : pieces.mapM Message.parse with error | messages
    · have hverdict : verdict c.frames (.text cs :: rest) = ⟨[], error⟩ := by
        simp only [verdict, hpush, hparse]
      simp only [receive, hpush, hparse]
      exact lose_foreseen hc hrun hverdict frames
    simp only [receive, hpush, hparse]
    have hverdict : verdict c.frames (.text cs :: rest) =
        .ofMessages messages (verdict frames rest) := by
      simp only [verdict, hpush, hparse]
    rw [hverdict] at hroom
    have hends : .ended ∈ rest := by simpa using hc.ends hrun
    have hforeseen := @dispatch_foreseen { c with frames } _ _ hc.held hc.commands hends hrun hroom
    simp only [forecast, hrun, hverdict] at hforeseen ⊢
    exact hforeseen
  | close reason => exact lose_foreseen hc hrun rfl c.frames
  | other =>
    have hends : .ended ∈ rest := by simpa using hc.ends hrun
    refine ⟨⟨hc.held, hc.commands, fun _ => hends, hc.room⟩, ?_, rfl⟩
    simp only [forecast, receive, hrun, verdict]
  | failed cause => exact lose_foreseen hc hrun rfl c.frames
  | ended => exact lose_foreseen hc hrun rfl c.frames

def AfterEnd (d : Delivery) : Prop := d = .error (.closed none)

/-- Every step keeps what was delivered and what is foreseen as one list. Only calls after the end
add to it. -/
theorem step_foreseen (hc : Open c (act.input?.toList ++ rest)) (ok : Listening c act)
    (h : c.step? act = some v) :
    Open v rest ∧ ∃ more, (∀ d ∈ more, AfterEnd d) ∧
      v.delivered.reverse ++ v.forecast rest =
        c.delivered.reverse ++ c.forecast (act.input?.toList ++ rest) ++ more := by
  have nothing : ∀ d ∈ ([] : List Delivery), AfterEnd d := List.forall_mem_nil _
  cases act with
  | ping written =>
    obtain rfl : written = true := ok
    simp only [step?] at h
    split at h
    · cases h
      exact ⟨⟨hc.held, hc.commands, hc.ends, hc.room⟩, [], nothing, (List.append_nil _).symm⟩
    · cases h
  | takeCommand written => simp [step?, hc.commands] at h
  | forward =>
    obtain ⟨call, later, hrun, houtbox, -, -, rfl⟩ := forward_cases h
    have hroom := hc.room hrun
    simp only [houtbox, List.length_cons] at hroom
    refine ⟨⟨hc.held, hc.commands, hc.ends, fun _ => ?_⟩, [], nothing, ?_⟩
    · exact Nat.le_trans (Nat.add_le_add_right (Nat.le_succ _) _) hroom
    · simp [forecast, hrun, houtbox, Told.after, Told.deliveries, Action.input?]
  | receive i =>
    have hc : Open c (i :: rest) := hc
    obtain ⟨hrun, rfl⟩ := receive_cases h
    obtain ⟨hopen, hforecast, hdelivered⟩ := receive_foreseen hc hrun
    refine ⟨hopen, [], nothing, ?_⟩
    rw [hforecast, hdelivered, List.append_nil]
    rfl
  | close => simp [step?, hc.held] at h
  | handOver =>
    obtain ⟨e, hending, ⟨hgone, -⟩ | ⟨-, -, ⟨call, later, houtbox, rfl⟩ | ⟨houtbox, rfl⟩⟩⟩ :=
      handOver_cases h
    · simp [hc.held] at hgone
    · have hstop : c.phase ≠ .running := by simp [hending]
      refine ⟨⟨hc.held, hc.commands, hc.ends, fun hrun => absurd hrun hstop⟩, [], nothing, ?_⟩
      simp [forecast, hending, houtbox, Told.deliveries]
    · have hstop : ({ c with channel := c.channel ++ [Except.error e] } : Connection).finish.phase ≠
          .running := by simp [finish]
      refine ⟨⟨hc.held, rfl, fun hrun => absurd hrun hstop, fun hrun => absurd hrun hstop⟩, [],
        nothing, ?_⟩
      simp [forecast, hending, houtbox, Told.deliveries, finish]
  | invoke command => exact ok.elim
  | next =>
    obtain ⟨-, ⟨d, later, hchannel, rfl⟩ | ⟨hchannel, hended, rfl⟩⟩ := next_cases h
    · refine ⟨⟨hc.held, hc.commands, hc.ends, hc.room⟩, [], nothing, ?_⟩
      simp [forecast, hchannel, Action.input?]
    · refine ⟨⟨hc.held, hc.commands, hc.ends, hc.room⟩, [.error (.closed none)],
        by simp [AfterEnd], ?_⟩
      simp [forecast, hchannel, hended]
  | drop => exact ok.elim

theorem run_foreseen (run : Run step? Listening c as v) (hc : Open c (received as ++ rest)) :
    Open v rest ∧ ∃ more, (∀ d ∈ more, AfterEnd d) ∧
      v.delivered.reverse ++ v.forecast rest =
        c.delivered.reverse ++ c.forecast (received as ++ rest) ++ more := by
  induction run with
  | nil c => exact ⟨hc, [], by simp, (List.append_nil _).symm⟩
  | @cons c u v act as ok h _ ih =>
    rw [received_cons, List.append_assoc] at hc ⊢
    obtain ⟨hu, first, hfirst, hline⟩ := step_foreseen hc ok h
    obtain ⟨hv, later, hlater, hlines⟩ := ih hu
    refine ⟨hv, first ++ later, ?_, ?_⟩
    · intro d hd
      rcases List.mem_append.mp hd with hd | hd
      · exact hfirst d hd
      · exact hlater d hd
    · rw [hlines, hline, List.append_assoc]

section Progress

structure Finished (c : Connection) : Prop where
  phase : c.phase = .ended
  channel : c.channel = []

def leftOver (c : Connection) : Nat :=
  2 * c.outbox.length + c.channel.length + if c.phase = .ended then 0 else 2

theorem exists_leftOver_lt (hheld : c.held = true) (hstop : c.phase ≠ .running)
    (hc : ¬c.Finished) :
    ∃ act v, Listening c act ∧ act.input? = none ∧ c.step? act = some v ∧
      v.leftOver < c.leftOver ∧ v.held = true ∧ v.phase ≠ .running := by
  cases hchannel : c.channel with
  | cons d later =>
    have hstep : c.step? .next =
        some { c with channel := later, delivered := d :: c.delivered } := by
      simp [step?, hheld, hchannel]
    exact ⟨.next, _, trivial, rfl, hstep, by simp [leftOver, hchannel], hheld, hstop⟩
  | nil =>
    cases hphase : c.phase with
    | running => exact absurd hphase hstop
    | ended => exact absurd ⟨hphase, hchannel⟩ hc
    | ending e =>
      cases houtbox : c.outbox with
      | cons call later =>
        have hstep : c.step? .handOver =
            some { c with outbox := later, channel := [.ok call] } := by
          simp [step?, hphase, hheld, hchannel, houtbox, channelSlots]
        refine ⟨.handOver, _, trivial, rfl, hstep, ?_, hheld, hstop⟩
        simp [leftOver, hphase, hchannel, houtbox]
        omega
      | nil =>
        have hstep : c.step? .handOver =
            some { c with channel := [Except.error e] }.finish := by
          simp [step?, hphase, hheld, hchannel, houtbox, channelSlots]
        refine ⟨.handOver, _, trivial, rfl, hstep, ?_, hheld, by simp [finish]⟩
        simp [leftOver, finish, hphase, hchannel, houtbox]

/-- Once a connection is lost, a caller that keeps asking gets to its end. -/
theorem exists_finished_of_lost (hheld : c.held = true) (hstop : c.phase ≠ .running) :
    ∃ as v, Run step? Listening c as v ∧ received as = [] ∧ v.Finished := by
  induction hn : c.leftOver using Nat.strongRecOn generalizing c with
  | ind n ih =>
    by_cases hc : c.Finished
    · exact ⟨[], c, .nil c, rfl, hc⟩
    · obtain ⟨act, u, ok, hinput, h, hlt, hu, hstopu⟩ := exists_leftOver_lt hheld hstop hc
      obtain ⟨as, v, run, hreceived, hv⟩ := ih u.leftOver (hn ▸ hlt) hu hstopu rfl
      refine ⟨act :: as, v, .cons ok h run, ?_, hv⟩
      rw [received_cons, hinput, hreceived]
      rfl

/-- A caller that keeps asking can always get to the end. -/
theorem exists_finished (hc : Open c inputs) :
    ∃ as v, Run step? Listening c as v ∧ received as <+: inputs ∧ v.Finished := by
  induction inputs generalizing c with
  | nil =>
    have hstop : c.phase ≠ .running := fun hrun => by cases hc.ends hrun
    obtain ⟨as, v, run, hreceived, hv⟩ := exists_finished_of_lost hc.held hstop
    exact ⟨as, v, run, hreceived ▸ List.nil_prefix, hv⟩
  | cons i inputs ih =>
    by_cases hrun : c.phase = .running
    · obtain ⟨hopen, -⟩ := receive_foreseen hc hrun
      have hstep : c.step? (.receive i) = some (c.receive i) := if_pos hrun
      obtain ⟨as, v, run, hreceived, hv⟩ := ih hopen
      refine ⟨.receive i :: as, v, .cons trivial hstep run, ?_, hv⟩
      rw [received_cons]
      exact (List.prefix_cons_inj _).mpr hreceived
    · obtain ⟨as, v, run, hreceived, hv⟩ := exists_finished_of_lost hc.held hrun
      exact ⟨as, v, run, hreceived ▸ List.nil_prefix, hv⟩

end Progress

end TokenWatch.Hub.Connection
