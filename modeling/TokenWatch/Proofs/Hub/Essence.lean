import TokenWatch.Proofs.Hub.Clock

/-!
What a connection on the clock comes to, apart from the server's invocations. It is a function of
what the task turns to and when: what the caller reads, and when, has no part in it.
-/
namespace TokenWatch.Hub

namespace Connection

variable {c u v : Connection} {a : Action} {i : Incoming} {messages : List Message}
  {commands : List Command}

/-- A connection without the server's invocations, and with other ones of its caller queued. -/
def queueing (c : Connection) (commands : List Command) : Connection :=
  { c with outbox := [], channel := [], delivered := [], commands }

def bare (c : Connection) : Connection := c.queueing []

@[simp] theorem bare_sent (c : Connection) : c.bare.sent = c.sent := rfl

/-- Messages lead to the same with fewer invocations in the outbox, unless there are too many. -/
theorem dispatch_bare (fits : (c.dispatch messages).phase ≠ .ending .backlog)
    {outbox : List Call} (shorter : outbox.length ≤ c.outbox.length)
    (channel delivered : List Delivery) (commands : List Command) :
    (({ c with outbox, channel, delivered, commands } : Connection).dispatch messages).bare =
      (c.dispatch messages).bare := by
  induction messages generalizing c outbox with
  | nil => rfl
  | cons m ms ih =>
    cases m with
    | invocation id target arguments =>
      by_cases hfull : maxWaiting ≤ c.outbox.length
      · simp [dispatch, hfull, lose] at fits
      · -- Where the longer outbox has room the shorter one has, too.
        have hroom : ¬maxWaiting ≤ outbox.length := by omega
        simp only [dispatch, if_neg hfull, if_neg hroom] at fits ⊢
        refine ih fits ?_
        simp only [List.length_append]
        omega
    | completion id result failure =>
      simp only [dispatch] at fits ⊢
      cases hfound : takeWaiting id c.waiting with
      | none =>
        simp only [hfound] at fits ⊢
        exact ih fits shorter
      | some found =>
        simp only [hfound] at fits ⊢
        exact ih fits shorter
    | ping => exact ih fits shorter
    | close failure => rfl
    | other kind => exact ih fits shorter

theorem receive_queueing (fits : (c.receive i).phase ≠ .ending .backlog) (commands : List Command) :
    ((c.queueing commands).receive i).bare = (c.receive i).bare := by
  cases i with
  | text cs =>
    rcases hpush : c.frames.push cs with ⟨frames, error | pieces⟩
    · simp only [receive, queueing, hpush]
      rfl
    · rcases hparse : pieces.mapM Message.parse with error | messages
      · simp only [receive, queueing, hpush, hparse]
        rfl
      · simp only [receive, queueing, hpush, hparse] at fits ⊢
        exact dispatch_bare fits (Nat.zero_le _) [] [] commands
  | close reason => rfl
  | other => rfl
  | failed cause => rfl
  | ended => rfl

/-- Messages take no invocations from the caller and write nothing. -/
theorem dispatch_apart (c : Connection) (messages : List Message) :
    (c.dispatch messages).commands = c.commands ∧ (c.dispatch messages).sent = c.sent ∧
      (c.dispatch messages).held = c.held ∧
      ((c.dispatch messages).phase = c.phase ∨ ∃ e, (c.dispatch messages).phase = .ending e) := by
  induction messages generalizing c with
  | nil => exact ⟨rfl, rfl, rfl, .inl rfl⟩
  | cons m ms ih =>
    cases m with
    | invocation id target arguments =>
      simp only [dispatch]
      split
      · exact ⟨rfl, rfl, rfl, .inr ⟨.backlog, rfl⟩⟩
      · exact ih _
    | completion id result failure =>
      simp only [dispatch]
      split
      · exact ih c
      · exact ih _
    | ping => exact ih c
    | close failure => exact ⟨rfl, rfl, rfl, .inr ⟨.closed failure, rfl⟩⟩
    | other kind => exact ih c

theorem receive_apart (c : Connection) (i : Incoming) :
    (c.receive i).commands = c.commands ∧ (c.receive i).sent = c.sent ∧
      (c.receive i).held = c.held ∧
      ((c.receive i).phase = c.phase ∨ ∃ e, (c.receive i).phase = .ending e) := by
  cases i with
  | text cs =>
    simp only [receive]
    split
    · exact ⟨rfl, rfl, rfl, .inr ⟨_, rfl⟩⟩
    · split
      · exact ⟨rfl, rfl, rfl, .inr ⟨_, rfl⟩⟩
      · exact dispatch_apart _ _
  | close reason => exact ⟨rfl, rfl, rfl, .inr ⟨_, rfl⟩⟩
  | other => exact ⟨rfl, rfl, rfl, .inl rfl⟩
  | failed cause => exact ⟨rfl, rfl, rfl, .inr ⟨_, rfl⟩⟩
  | ended => exact ⟨rfl, rfl, rfl, .inr ⟨_, rfl⟩⟩

/-- The actions that an event may be for the connection. -/
def Driven : Action → Prop
  | .ping _ | .takeCommand _ | .receive _ => True
  | _ => False

/-- What comes of an event does not depend on the server's invocations, unless there are too many,
nor on those of the caller behind the ones in the queue. -/
theorem step_queueing (driven : Driven a) (h : c.step? a = some v)
    (fits : v.phase ≠ .ending .backlog) (queued : c.commands <+: commands) :
    ∃ u, (c.queueing commands).step? a = some u ∧ u.bare = v.bare := by
  cases a with
  | ping written =>
    obtain ⟨hrun, rfl⟩ := ping_cases h
    refine ⟨_, if_pos hrun, ?_⟩
    cases written <;> rfl
  | takeCommand written =>
    obtain ⟨command, rest, hrun, hcommands, rfl⟩ := takeCommand_cases h
    obtain ⟨later, rfl⟩ := queued
    refine ⟨(c.queueing (rest ++ later)).send command written, ?_, ?_⟩
    · simp only [step?, queueing, hrun, hcommands, List.cons_append]
    · cases written <;> rfl
  | receive i =>
    obtain ⟨hrun, rfl⟩ := receive_cases h
    exact ⟨_, if_pos hrun, receive_queueing fits commands⟩
  | _ => exact driven.elim

theorem held_of_driven (driven : Driven a) (h : c.step? a = some v) : v.held = c.held := by
  cases a with
  | ping written =>
    obtain ⟨-, rfl⟩ := ping_cases h
    cases written <;> rfl
  | takeCommand written =>
    obtain ⟨command, rest, -, -, rfl⟩ := takeCommand_cases h
    cases written <;> rfl
  | receive i =>
    obtain ⟨-, rfl⟩ := receive_cases h
    exact (receive_apart c i).2.2.1
  | _ => exact driven.elim

/-- An event happens to an open connection, and leaves it open or is its loss. -/
theorem running_of_driven (driven : Driven a) (h : c.step? a = some v) :
    c.phase = .running ∧ (v.phase = .running ∨ ∃ e, v.phase = .ending e) := by
  cases a with
  | ping written =>
    obtain ⟨hrun, rfl⟩ := ping_cases h
    cases written with
    | true => exact ⟨hrun, .inl hrun⟩
    | false => exact ⟨hrun, .inr ⟨writeFailure, rfl⟩⟩
  | takeCommand written =>
    obtain ⟨command, rest, hrun, -, rfl⟩ := takeCommand_cases h
    cases written with
    | true => exact ⟨hrun, .inl hrun⟩
    | false => exact ⟨hrun, .inr ⟨writeFailure, rfl⟩⟩
  | receive i =>
    obtain ⟨hrun, rfl⟩ := receive_cases h
    obtain ⟨-, -, -, hphase | hending⟩ := receive_apart c i
    · exact ⟨hrun, .inl (hphase.trans hrun)⟩
    · exact ⟨hrun, .inr hending⟩
  | _ => exact driven.elim

end Connection

namespace Clocked
open Connection

variable {script : Script} {s s' t : Clocked} {e : Event} {c u v : Connection}
  {a : Connection.Action} {y : Nat × Command}

theorem action?_driven (h : s.action? script e = some a) : Driven a := by
  cases e with
  | ping =>
    obtain ⟨-, rfl⟩ := action?_ping h
    trivial
  | take =>
    obtain rfl := action?_take h
    trivial
  | receive =>
    obtain ⟨moment, i, rest, -, -, rfl⟩ := action?_receive h
    trivial

/-- The state without its queues, its surroundings and the time of day. -/
def bare (s : Clocked) : Clocked :=
  { s with clock := 0, invokes := [], connection := s.connection.bare }

def answers (s : Clocked) : List (Nat × Reply) :=
  s.connection.replies.filter fun p => p.1 ∈ s.taken

/-- A connection that is lost, whatever was handed over and whatever was not taken. -/
def closing (s : Clocked) : Clocked :=
  if s.connection.phase = .running then s
  else { s with connection := { s.connection with phase := .ended, replies := s.answers } }

/-- What the events alone determine. -/
def essence (s : Clocked) : Clocked := s.bare.closing

def untaken (script : Script) (s : Clocked) : List (Nat × Command) :=
  script.invokes.drop s.taken.length

/-- An essence at a moment, with all that the task has not taken in its queue. -/
def resumed (script : Script) (s : Clocked) (n : Nat) : Clocked :=
  { s with clock := n, connection := s.connection.queueing ((s.untaken script).map (·.2)) }

/-- What an event makes of an essence. -/
def absorb (script : Script) (s : Clocked) (x : Nat × Event) : Clocked :=
  match (s.resumed script x.1).step? script (.event x.2) with
  | some t => t.essence
  | none => s

def Overflowed (s : Clocked) : Prop := ∃ moment, s.lost = some (moment, .backlog)

theorem essence_of_running (hrun : s.connection.phase = .running) : s.essence = s.bare :=
  if_pos hrun

theorem essence_of_lost (hlost : s.connection.phase ≠ .running) :
    s.essence =
      { s with
        clock := 0
        invokes := []
        connection := { s.connection.bare with phase := .ended, replies := s.answers } } :=
  if_neg hlost

def record (s : Clocked) : List (Nat × Written) × List Written × Option (Nat × Error) × Nat ×
    List (Nat × Incoming) × List Nat × List (Nat × Reply) :=
  (s.written, s.connection.sent, s.lost, s.due, s.arrivals, s.taken, s.answers)

theorem essence_record (s : Clocked) : s.essence.record = s.record := by
  by_cases hrun : s.connection.phase = .running
  · rw [essence_of_running hrun]
    rfl
  · have hanswers : (s.answers.filter fun p => p.1 ∈ s.taken) = s.answers :=
      List.filter_eq_self.mpr fun p hp => (List.mem_filter.mp hp).2
    rw [essence_of_lost hrun]
    simp only [record]
    exact congrArg (fun answers => (_, _, _, _, _, _, answers)) hanswers

/-- What two states with one essence have in common. -/
structure Alike (s t : Clocked) : Prop where
  written : s.written = t.written
  sent : s.connection.sent = t.connection.sent
  lost : s.lost = t.lost
  due : s.due = t.due
  arrivals : s.arrivals = t.arrivals
  taken : s.taken = t.taken
  answers : s.answers = t.answers

theorem alike_of_essence (h : s.essence = t.essence) : Alike s t := by
  have hrecord : s.record = t.record := by rw [← essence_record, h, essence_record]
  simp only [record, Prod.mk.injEq] at hrecord
  obtain ⟨hwritten, hsent, hlost, hdue, harrivals, htaken, hanswers⟩ := hrecord
  exact ⟨hwritten, hsent, hlost, hdue, harrivals, htaken, hanswers⟩

theorem running_of_essence (h : s.essence = t.essence) (hrun : s.connection.phase = .running) :
    t.connection.phase = .running := by
  refine Decidable.byContradiction fun hlost => ?_
  rw [essence_of_running hrun, essence_of_lost hlost] at h
  have hphase : s.connection.phase = .ended := congrArg (fun s => s.connection.phase) h
  rw [hrun] at hphase
  cases hphase

section Noted

theorem becomes_written (hsent : c.sent = s.connection.sent) :
    (s.becomes c).written = s.written := by
  simp [becomes, hsent]

theorem becomes_written_cons {w : Written} (hsent : c.sent = w :: s.connection.sent) :
    (s.becomes c).written = (s.clock, w) :: s.written := by
  simp [becomes, hsent]

theorem becomes_lost_of_lost (hlost : s.lost ≠ none) : (s.becomes c).lost = s.lost := by
  simp only [becomes]
  cases h : s.lost with
  | none => exact absurd h hlost
  | some x => rfl

theorem becomes_lost_of_open (hopen : s.lost = none) :
    (s.becomes c).lost = c.phase.error?.map (s.clock, ·) := by
  simp [becomes, hopen]

end Noted

section Event

theorem action?_resumed (script : Script) (s : Clocked) (e : Event) :
    (s.bare.resumed script s.clock).action? script e = s.action? script e := by
  cases e <;> rfl

theorem event_of_action? (haction : s.action? script e = some a)
    (hstep : s.connection.step? a = some c) :
    s.step? script (.event e) = some ((s.spend e).becomes c) := by
  simp only [step?, haction, bind, Option.bind_some, hstep, Option.map_some]

theorem becomes_bare (hsame : s'.bare = s.bare) (hclock : s'.clock = s.clock)
    (hbare : u.bare = c.bare) : (s'.becomes u).bare = (s.becomes c).bare := by
  have hsent : u.sent = c.sent := congrArg (·.sent) hbare
  have hphase : u.phase = c.phase := congrArg (·.phase) hbare
  have hsent' : s'.connection.sent = s.connection.sent := congrArg (·.connection.sent) hsame
  have hdue : s'.due = s.due := congrArg (·.due) hsame
  have harrivals : s'.arrivals = s.arrivals := congrArg (·.arrivals) hsame
  have htaken : s'.taken = s.taken := congrArg (·.taken) hsame
  have hwritten : s'.written = s.written := congrArg (·.written) hsame
  have hlost : s'.lost = s.lost := congrArg (·.lost) hsame
  simp only [bare, becomes, hbare, hsent, hphase, hsent', hdue, harrivals, htaken, hwritten, hlost,
    hclock]

/-- The caller's invocations that the task has not taken: the first ones are in the queue. -/
def Queued (script : Script) (s : Clocked) : Prop :=
  ∃ queue, s.untaken script = queue ++ s.invokes ∧ queue.map (·.2) = s.connection.commands ∧
    ∀ y ∈ queue, y.1 ≤ s.clock

theorem Queued.isPrefix (hs : Queued script s) :
    s.connection.commands <+: (s.untaken script).map (·.2) := by
  obtain ⟨queue, hsplit, hcommands, -⟩ := hs
  rw [hsplit, List.map_append, hcommands]
  exact List.prefix_append _ _

theorem Queued.spend_bare (hs : Queued script s) (haction : s.action? script e = some a)
    (hstep : s.connection.step? a = some c) :
    ((s.bare.resumed script s.clock).spend e).bare = (s.spend e).bare := by
  cases e with
  | ping => rfl
  | receive => rfl
  | take =>
    obtain rfl := action?_take haction
    obtain ⟨command, rest, -, hcommands, -⟩ := takeCommand_cases hstep
    obtain ⟨later, hqueue⟩ := hs.isPrefix
    have hfirst : ((s.untaken script).map (·.2)).take 1 = s.connection.commands.take 1 := by
      rw [← hqueue, hcommands]
      rfl
    let taking (first : List Command) : Clocked :=
      { s.bare with taken := first.map Command.ticket ++ s.taken }
    exact congrArg taking hfirst

/-- An event makes of the essence what it makes of the state. -/
theorem absorb_essence (hopen : s.lost = none) (hqueue : Queued script s)
    (h : s.step? script (.event e) = some t) (fits : ¬t.Overflowed) :
    absorb script s.essence (s.clock, e) = t.essence := by
  obtain ⟨a, c, haction, hstep, rfl⟩ := event_cases h
  have hdriven := action?_driven haction
  obtain ⟨hrun, -⟩ := running_of_driven hdriven hstep
  have hfits : c.phase ≠ .ending .backlog := by
    intro hbacklog
    refine fits ⟨s.clock, ?_⟩
    simp [becomes, hopen, hbacklog, Phase.error?]
  obtain ⟨u, hu, hbare⟩ := step_queueing hdriven hstep hfits hqueue.isPrefix
  have hevent : (s.bare.resumed script s.clock).step? script (.event e) =
      some (((s.bare.resumed script s.clock).spend e).becomes u) :=
    event_of_action? ((action?_resumed script s e).trans haction) hu
  have hclock : ((s.bare.resumed script s.clock).spend e).clock = (s.spend e).clock := by
    rw [spend_clock, spend_clock]
    rfl
  have hsame := becomes_bare (hqueue.spend_bare haction hstep) hclock hbare
  rw [essence_of_running hrun]
  simp only [absorb, hevent]
  exact congrArg closing hsame

end Event

section Quiet

/-- The tickets of the invocations that were taken, that are queued and that are to come. -/
def ledger (s : Clocked) : List Nat :=
  s.taken ++ (s.connection.commands.map (·.ticket) ++ s.invokes.map (·.2.ticket))

/-- The loss of the connection is noted, no ticket is used twice, the caller is still there, and
the task takes what it asked for in turn. -/
structure Kept (script : Script) (s : Clocked) : Prop where
  lost : s.lost = none ↔ s.connection.phase = .running
  distinct : s.ledger.Nodup
  held : s.connection.held = true
  queued : s.connection.phase = .running → Queued script s

theorem send_commands (c : Connection) (command : Command) (written : Bool) :
    (c.send command written).commands = c.commands := by
  cases written <;> rfl

/-- An event keeps the queue as it is, or takes its first invocation. -/
theorem queue_of_event (haction : s.action? script e = some a)
    (hstep : s.connection.step? a = some c) :
    c.commands = s.connection.commands ∧ (s.spend e).taken = s.taken ∨
      ∃ command, s.connection.commands = command :: c.commands ∧
        (s.spend e).taken = command.ticket :: s.taken := by
  cases e with
  | ping =>
    obtain ⟨-, rfl⟩ := action?_ping haction
    obtain ⟨-, rfl⟩ := ping_cases hstep
    refine .inl ⟨?_, rfl⟩
    cases s.writes script <;> rfl
  | take =>
    obtain rfl := action?_take haction
    obtain ⟨command, rest, -, hcommands, rfl⟩ := takeCommand_cases hstep
    refine .inr ⟨command, ?_, ?_⟩
    · rw [send_commands]
      exact hcommands
    · simp only [spend, hcommands]
      rfl
  | receive =>
    obtain ⟨moment, i, rest, -, -, rfl⟩ := action?_receive haction
    obtain ⟨-, rfl⟩ := receive_cases hstep
    exact .inl ⟨(receive_apart s.connection i).1, rfl⟩

@[simp] theorem spend_invokes (s : Clocked) (e : Event) : (s.spend e).invokes = s.invokes := by
  cases e <;> rfl

theorem ledger_event (hs : s.ledger.Nodup) (haction : s.action? script e = some a)
    (hstep : s.connection.step? a = some c) : ((s.spend e).becomes c).ledger.Nodup := by
  obtain ⟨hcommands, htaken⟩ | ⟨command, hcommands, htaken⟩ := queue_of_event haction hstep
  · simp only [ledger, becomes, hcommands, htaken, spend_invokes]
    exact hs
  · simp only [ledger, hcommands, List.map_cons, List.cons_append] at hs
    simp only [ledger, becomes, htaken, spend_invokes]
    exact List.perm_middle.nodup hs

/-- The task takes the invocations of the script in turn. -/
theorem untaken_of_event (script : Script) (haction : s.action? script e = some a)
    (hstep : s.connection.step? a = some c) :
    c.commands = s.connection.commands ∧
        ((s.spend e).becomes c).untaken script = s.untaken script ∨
      (∃ command, s.connection.commands = command :: c.commands) ∧
        ((s.spend e).becomes c).untaken script = (s.untaken script).tail := by
  have huntaken : ((s.spend e).becomes c).untaken script =
      script.invokes.drop (s.spend e).taken.length := rfl
  obtain ⟨hcommands, htaken⟩ | ⟨command, hcommands, htaken⟩ := queue_of_event haction hstep
  · exact .inl ⟨hcommands, by rw [huntaken, htaken, untaken]⟩
  · refine .inr ⟨⟨command, hcommands⟩, ?_⟩
    rw [huntaken, htaken, untaken, List.tail_drop, List.length_cons]

theorem Queued.event (hs : Queued script s) (haction : s.action? script e = some a)
    (hstep : s.connection.step? a = some c) : Queued script ((s.spend e).becomes c) := by
  obtain ⟨queue, hsplit, hqueue, hpast⟩ := hs
  have hclock : ((s.spend e).becomes c).clock = s.clock := spend_clock s e
  have hinvokes : ((s.spend e).becomes c).invokes = s.invokes := spend_invokes s e
  obtain ⟨hcommands, hsame⟩ | ⟨⟨command, hcommands⟩, hrest⟩ :=
    untaken_of_event script haction hstep
  · refine ⟨queue, ?_, hqueue.trans hcommands.symm, hclock ▸ hpast⟩
    rw [hsame, hinvokes, hsplit]
  · rw [hcommands] at hqueue
    cases queue with
    | nil => cases hqueue
    | cons y queue =>
      refine ⟨queue, ?_, (List.cons.inj hqueue).2, ?_⟩
      · rw [hrest, hsplit, hinvokes]
        rfl
      · rw [hclock]
        exact fun y hy => hpast y (List.mem_cons_of_mem _ hy)

theorem Kept.event (hs : Kept script s) (h : s.step? script (.event e) = some t) :
    Kept script t := by
  obtain ⟨a, c, haction, hstep, rfl⟩ := event_cases h
  have hdriven := action?_driven haction
  obtain ⟨hrun, hphase⟩ := running_of_driven hdriven hstep
  constructor
  · show _ ↔ c.phase = .running
    have hopen : (s.spend e).lost = none := (spend_lost s e).trans (hs.lost.mpr hrun)
    rw [becomes_lost_of_open hopen]
    obtain hphase | ⟨e', hphase⟩ := hphase
    · simp [hphase, Phase.error?]
    · simp [hphase, Phase.error?]
  · exact ledger_event hs.distinct haction hstep
  · exact (held_of_driven hdriven hstep).trans hs.held
  · exact fun _ => (hs.queued hrun).event haction hstep

/-- A change that is no loss notes none. -/
theorem becomes_lost (hnoted : s.lost = none ↔ s.connection.phase = .running)
    (hphase : c.phase = s.connection.phase ∨ c.phase = .ended) : (s.becomes c).lost = s.lost := by
  by_cases hopen : s.lost = none
  · rw [becomes_lost_of_open hopen, hopen]
    obtain hphase | hphase := hphase
    · rw [hphase, hnoted.mp hopen]
      rfl
    · rw [hphase]
      rfl
  · exact becomes_lost_of_lost hopen

/-- What leaves all but the queues as it is leaves the essence. -/
theorem becomes_bare_same (hnoted : s.lost = none ↔ s.connection.phase = .running)
    (hbare : c.bare = s.connection.bare) : (s.becomes c).bare = s.bare := by
  have hsent : c.sent = s.connection.sent := congrArg (·.sent) hbare
  have hphase : c.phase = s.connection.phase := congrArg (·.phase) hbare
  have hwritten := becomes_written hsent
  have hlost := becomes_lost hnoted (.inl hphase)
  simp only [becomes] at hwritten hlost
  simp only [bare, becomes, hbare, hwritten, hlost]

/-- What the task does not take is answered apart from what it took. -/
theorem Kept.finish_answers (hs : Kept script s) :
    s.connection.finish.replies.filter (fun p => p.1 ∈ s.taken) = s.answers := by
  have hapart := (List.nodup_append.mp hs.distinct).2.2
  have hnone : (s.connection.commands.map fun command =>
      (command.ticket, (Except.error (.closed none) : Reply))).filter (fun p => p.1 ∈ s.taken) =
        [] := by
    refine List.filter_eq_nil_iff.mpr fun p hp => ?_
    obtain ⟨command, hcommand, rfl⟩ := List.mem_map.mp hp
    have hqueued : command.ticket ∈ s.connection.commands.map (·.ticket) :=
      List.mem_map_of_mem hcommand
    have hnot : command.ticket ∉ s.taken := fun htaken =>
      hapart _ htaken _ (List.mem_append_left _ hqueued) rfl
    simpa using hnot
  rw [finish, List.filter_append, hnone]
  rfl

/-- Moving the server's invocations changes nothing else, unless the task comes to its end. -/
theorem Moves.bare {b : Connection.Action} {x : Action} (moves : Moves x b)
    (h : c.step? b = some v) :
    v.bare = c.bare ∧ v.commands = c.commands ∨
      (∃ e, c.phase = .ending e) ∧ v.bare = c.finish.bare ∧ v.commands = [] := by
  cases moves with
  | forward =>
    obtain ⟨call, later, -, -, -, -, rfl⟩ := forward_cases h
    exact .inl ⟨rfl, rfl⟩
  | handOver =>
    obtain ⟨e, hending, ⟨-, rfl⟩ | ⟨-, -, ⟨call, later, -, rfl⟩ | ⟨-, rfl⟩⟩⟩ := handOver_cases h
    · exact .inr ⟨⟨e, hending⟩, rfl, rfl⟩
    · exact .inl ⟨rfl, rfl⟩
    · exact .inr ⟨⟨e, hending⟩, rfl, rfl⟩
  | next =>
    obtain ⟨-, ⟨d, later, -, rfl⟩ | ⟨-, -, rfl⟩⟩ := next_cases h
    · exact .inl ⟨rfl, rfl⟩
    · exact .inl ⟨rfl, rfl⟩

theorem Kept.finish_essence (hs : Kept script s) {e : Error}
    (hending : s.connection.phase = .ending e) (hbare : c.bare = s.connection.finish.bare)
    (hcommands : c.commands = []) :
    Kept script (s.becomes c) ∧ (s.becomes c).essence = s.essence := by
  have hphase : c.phase = .ended := congrArg (·.phase) hbare
  have held : c.held = true := (congrArg (·.held) hbare).trans hs.held
  have hsent : c.sent = s.connection.sent := congrArg (·.sent) hbare
  have hreplies : c.replies = s.connection.finish.replies := congrArg (·.replies) hbare
  have hwritten := becomes_written hsent
  have hlost := becomes_lost hs.lost (.inr hphase)
  have idle : s.connection.phase ≠ .running := by simp [hending]
  have idle' : (s.becomes c).connection.phase ≠ .running := by
    show c.phase ≠ .running
    simp [hphase]
  constructor
  · constructor
    · rw [hlost, hs.lost]
      exact iff_of_false idle idle'
    · have hsub : (s.becomes c).ledger.Sublist s.ledger := by
        simp only [ledger, becomes, hcommands, List.map_nil, List.nil_append]
        exact (List.sublist_append_right _ _).append_left _
      exact hsub.nodup hs.distinct
    · exact held
    · exact fun hrun => absurd hrun idle'
  · have hanswers : (s.becomes c).answers = s.answers := by
      simp only [answers, becomes, hreplies]
      exact hs.finish_answers
    rw [essence_of_lost idle, essence_of_lost idle', hanswers]
    simp only [becomes] at hwritten hlost
    simp only [becomes, hbare, hwritten, hlost]
    rfl

theorem Kept.move (hs : Kept script s) {x : Action} {b : Connection.Action} (moves : Moves x b)
    (h : s.step? script x = some t) : Kept script t ∧ t.essence = s.essence := by
  obtain ⟨c, hstep, rfl⟩ := moves.cases h
  obtain ⟨hbare, hcommands⟩ | ⟨⟨e, hending⟩, hbare, hcommands⟩ := moves.bare hstep
  · have hsame := becomes_bare_same hs.lost hbare
    have hlost : (s.becomes c).lost = s.lost := congrArg (·.lost) hsame
    have hphase : c.phase = s.connection.phase := congrArg (·.phase) hbare
    refine ⟨⟨?_, ?_, (congrArg (·.held) hbare).trans hs.held, fun hrun => ?_⟩,
      congrArg closing hsame⟩
    · rw [hlost, hs.lost, ← hphase]
      rfl
    · simp only [ledger, becomes, hcommands]
      exact hs.distinct
    · obtain ⟨queue, hsplit, hqueue, hpast⟩ := hs.queued (hphase.symm.trans hrun)
      exact ⟨queue, hsplit, hqueue.trans hcommands.symm, hpast⟩
  · exact hs.finish_essence hending hbare hcommands

/-- What the caller asks for after the end is refused, which is nothing to the essence. -/
theorem Kept.refused (hs : Kept script s) (hended : s.connection.phase = .ended)
    {rest : List (Nat × Command)} (hinvokes : s.invokes = y :: rest)
    (hc : c = { s.connection with
      replies := (y.2.ticket, .error (.closed none)) :: s.connection.replies }) :
    Kept script ({ s with invokes := rest }.becomes c) ∧
      ({ s with invokes := rest }.becomes c).essence = s.essence := by
  have hdistinct := hs.distinct
  simp only [ledger, hinvokes, List.map_cons] at hdistinct
  have hnot : y.2.ticket ∉ s.taken := fun htaken => by
    refine (List.nodup_append.mp hdistinct).2.2 _ htaken _ (List.mem_append_right _ ?_) rfl
    exact List.mem_cons_self
  have idle : s.connection.phase ≠ .running := by simp [hended]
  have hphase : c.phase = s.connection.phase := by rw [hc]
  have idle' : ({ s with invokes := rest }.becomes c).connection.phase ≠ .running := hphase ▸ idle
  have hwritten := @becomes_written { s with invokes := rest } c (by rw [hc])
  have hlost := @becomes_lost { s with invokes := rest } c hs.lost (.inl hphase)
  constructor
  · refine ⟨?_, ?_, ?_, fun hrun => absurd hrun idle'⟩
    · rw [hlost, becomes, hphase]
      exact hs.lost
    · have hsub := List.sublist_cons_self y.2.ticket (rest.map (·.2.ticket))
      rw [hc]
      exact ((hsub.append_left _).append_left _).nodup hdistinct
    · rw [hc]
      exact hs.held
  · have hanswers : ({ s with invokes := rest }.becomes c).answers = s.answers := by
      rw [hc]
      exact List.filter_cons_of_neg (by simpa [becomes] using hnot)
    have hbare : c.bare = { s.connection.bare with replies := c.replies } := by rw [hc]; rfl
    rw [essence_of_lost idle', essence_of_lost idle, hanswers]
    simp only [becomes] at hwritten hlost
    simp only [becomes, hbare, hwritten, hlost]

/-- What the caller asks for before it is nothing to the essence until the task takes it. -/
theorem Kept.asked (hs : Kept script s) {rest : List (Nat × Command)}
    (hinvokes : s.invokes = y :: rest) (hcome : y.1 ≤ s.clock)
    (hc : c = { s.connection with commands := s.connection.commands ++ [y.2] }) :
    Kept script ({ s with invokes := rest }.becomes c) ∧
      ({ s with invokes := rest }.becomes c).essence = s.essence := by
  have hbare : c.bare = s.connection.bare := by rw [hc]; rfl
  have hsame := @becomes_bare_same { s with invokes := rest } c hs.lost hbare
  have hlost : ({ s with invokes := rest }.becomes c).lost = s.lost := congrArg (·.lost) hsame
  have hphase : c.phase = s.connection.phase := by rw [hc]
  refine ⟨⟨?_, ?_, ?_, fun hrun => ?_⟩, congrArg closing hsame⟩
  · rw [hlost, becomes, hphase]
    exact hs.lost
  · have hdistinct := hs.distinct
    simp only [ledger, hinvokes, List.map_cons] at hdistinct
    simp only [ledger, becomes, hc, List.map_append, List.append_assoc]
    exact hdistinct
  · rw [hc]
    exact hs.held
  · obtain ⟨queue, hsplit, hqueue, hpast⟩ := hs.queued (hphase.symm.trans hrun)
    refine ⟨queue ++ [y], ?_, ?_, ?_⟩
    · show s.untaken script = queue ++ [y] ++ rest
      rw [hsplit, hinvokes, List.append_assoc]
      rfl
    · show (queue ++ [y]).map (·.2) = c.commands
      rw [List.map_append, hqueue, hc]
      rfl
    · intro z hz
      obtain hz | hz := List.mem_append.mp hz
      · exact hpast z hz
      · obtain rfl := List.mem_singleton.mp hz
        exact hcome

theorem Kept.invoke (hs : Kept script s) (h : s.step? script .invoke = some t) :
    Kept script t ∧ t.essence = s.essence := by
  obtain ⟨moment, command, rest, c, hinvokes, hcome, hstep, rfl⟩ := asking_cases h
  obtain ⟨-, ⟨hended, hc⟩ | ⟨-, -, hc⟩⟩ := invoke_cases hstep
  · exact hs.refused hended hinvokes hc
  · exact hs.asked hinvokes hcome hc

end Quiet

section Runs

variable {frames : OpenFrame} {messages : List Message} {x : Action}

/-- Every action is some time that passes, an event, the caller's asking, or moves the server's
invocations. -/
theorem Action.split (x : Action) :
    (∃ n, x = .elapse n) ∨ (∃ e, x = .event e) ∨ x = .invoke ∨ ∃ b, Moves x b := by
  cases x with
  | elapse n => exact .inl ⟨n, rfl⟩
  | event e => exact .inr (.inl ⟨e, rfl⟩)
  | invoke => exact .inr (.inr (.inl rfl))
  | forward => exact .inr (.inr (.inr ⟨.forward, .forward⟩))
  | handOver => exact .inr (.inr (.inr ⟨.handOver, .handOver⟩))
  | next => exact .inr (.inr (.inr ⟨.next, .next⟩))

theorem kept_start (script : Script) (frames : OpenFrame) (messages : List Message) :
    Kept script (start script frames messages) := by
  have hopening : (ofHandshake frames messages).commands = [] ∧
      (ofHandshake frames messages).sent = [] ∧ (ofHandshake frames messages).held = true ∧
      ((ofHandshake frames messages).phase = .running ∨
        ∃ e, (ofHandshake frames messages).phase = .ending e) :=
    dispatch_apart (blank frames) messages
  obtain ⟨hcommands, -, held, hphase⟩ := hopening
  constructor
  · rw [start, becomes_lost_of_open rfl]
    show _ ↔ (ofHandshake frames messages).phase = .running
    obtain hphase | ⟨e, hphase⟩ := hphase
    · simp [hphase, Phase.error?]
    · simp [hphase, Phase.error?]
  · simp only [ledger, start, becomes, hcommands]
    exact script.tickets_nodup
  · exact held
  · exact fun _ => ⟨[], rfl, hcommands.symm, List.forall_mem_nil _⟩

/-- A step is an event of an open connection, or it keeps the essence. -/
theorem Kept.step_cases (hs : Kept script s) (h : s.step? script x = some t) :
    (∃ e, x = .event e ∧ s.connection.phase = .running ∧ s.moments x = [(s.clock, e)]) ∨
      s.moments x = [] ∧ Kept script t ∧ t.essence = s.essence ∧
        ((∃ n, x = .elapse n) ∨ t.clock = s.clock) := by
  obtain ⟨n, rfl⟩ | ⟨e, rfl⟩ | rfl | ⟨b, moves⟩ := x.split
  · obtain ⟨-, rfl⟩ := elapse_cases h
    refine .inr ⟨rfl, ⟨hs.lost, hs.distinct, hs.held, fun hrun => ?_⟩, rfl, .inl ⟨n, rfl⟩⟩
    obtain ⟨queue, hsplit, hqueue, hpast⟩ := hs.queued hrun
    exact ⟨queue, hsplit, hqueue, fun y hy => Nat.le_add_right_of_le (hpast y hy)⟩
  · obtain ⟨a, c, haction, hstep, -⟩ := event_cases h
    exact .inl ⟨e, rfl, (running_of_driven (action?_driven haction) hstep).1, rfl⟩
  · obtain ⟨hkept, hessence⟩ := hs.invoke h
    obtain ⟨moment, command, rest, c, -, -, -, rfl⟩ := asking_cases h
    exact .inr ⟨rfl, hkept, hessence, .inr rfl⟩
  · obtain ⟨hkept, hessence⟩ := hs.move moves h
    obtain ⟨c, -, rfl⟩ := moves.cases h
    have hquiet : s.moments x = [] := by cases moves <;> rfl
    exact .inr ⟨hquiet, hkept, hessence, .inr rfl⟩

theorem Kept.step (hs : Kept script s) (h : s.step? script x = some t) : Kept script t := by
  obtain ⟨e, rfl, -⟩ | ⟨-, hkept, -⟩ := hs.step_cases h
  · exact hs.event h
  · exact hkept

theorem Kept.step_essence (hs : Kept script s) (h : s.step? script x = some t)
    (fits : ¬t.Overflowed) : t.essence = (s.moments x).foldl (absorb script) s.essence := by
  obtain ⟨e, rfl, hrun, hmoments⟩ | ⟨hquiet, -, hessence, -⟩ := hs.step_cases h
  · rw [hmoments]
    exact (absorb_essence (hs.lost.mpr hrun) (hs.queued hrun) h fits).symm
  · rw [hquiet]
    exact hessence

/-- What was noted of the loss stays. -/
theorem lost_step (h : s.step? script x = some t) (hlost : s.lost ≠ none) : t.lost = s.lost := by
  obtain ⟨n, rfl⟩ | ⟨e, rfl⟩ | rfl | ⟨b, moves⟩ := x.split
  · obtain ⟨-, rfl⟩ := elapse_cases h
    rfl
  · obtain ⟨a, c, -, -, rfl⟩ := event_cases h
    have hsome : (s.spend e).lost ≠ none := by rwa [spend_lost]
    rw [becomes_lost_of_lost hsome, spend_lost]
  · obtain ⟨moment, command, rest, c, -, -, -, rfl⟩ := asking_cases h
    exact @becomes_lost_of_lost { s with invokes := rest } c hlost
  · obtain ⟨c, -, rfl⟩ := moves.cases h
    exact becomes_lost_of_lost hlost

theorem Overflowed.step (hs : s.Overflowed) (h : s.step? script x = some t) : t.Overflowed := by
  obtain ⟨moment, hlost⟩ := hs
  exact ⟨moment, (lost_step h (by simp [hlost])).trans hlost⟩

theorem Overflowed.run {as : List Action} {allowed : Clocked → Action → Prop}
    (run : Run (step? script) allowed s as t) (hs : s.Overflowed) : t.Overflowed :=
  run.preserves (fun _ _ _ hs _ h => hs.step h) hs

/-- Without an overflow the essence is made by the course of the events. -/
theorem essence_of_run {as : List Action} {allowed : Clocked → Action → Prop}
    (run : Run (step? script) allowed (start script frames messages) as s) :
    Kept script s ∧ (¬s.Overflowed → s.essence =
      (course script (start script frames messages) as).foldl (absorb script)
        (start script frames messages).essence) := by
  let Made (ns : List (Nat × Event)) (s : Clocked) : Prop :=
    Kept script s ∧ (¬s.Overflowed →
      s.essence = ns.foldl (absorb script) (start script frames messages).essence)
  have each (ns : List (Nat × Event)) (s : Clocked) (x : Action) (t : Clocked) (hs : Made ns s)
      (_ : allowed s x) (h : s.step? script x = some t) : Made (ns ++ s.moments x) t := by
    refine ⟨hs.1.step h, fun fits => ?_⟩
    -- A loss is noted for good, so that nothing has overflowed before.
    have hfits : ¬s.Overflowed := fun hover => fits (hover.step h)
    rw [List.foldl_append, ← hs.2 hfits]
    exact hs.1.step_essence h fits
  have hstart : Made [] (start script frames messages) := ⟨kept_start _ _ _, fun _ => rfl⟩
  exact run.preserves_noted each hstart

end Runs

end Clocked
end TokenWatch.Hub
