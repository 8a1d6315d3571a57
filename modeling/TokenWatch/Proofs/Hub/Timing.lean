import TokenWatch.Proofs.Hub.Essence
import TokenWatch.Proofs.Hub.Numbering

/-!
When the events of a connection on the clock happen. While the connection is open nothing is late:
every event has one moment at which it falls, which the state foretells whatever the caller has
read.
-/
namespace TokenWatch.Hub.Clocked
open Connection

variable {script : Script} {s t : Clocked} {e : Event} {n moment : Nat} {c : Connection}
  {a : Connection.Action} {x : Action} {ns : List (Nat × Event)}

section Foretold

/-- When an event falls. The task takes an invocation at the moment at which the caller asks. -/
def Falls (script : Script) (s : Clocked) : Event → Nat → Prop
  | .ping, moment => moment = s.due
  | .take, moment => (s.untaken script).head?.map (·.1) = some moment
  | .receive, moment => s.arrivals.head?.map (·.1) = some moment

theorem untaken_eq_of_essence (h : s.essence = t.essence) :
    s.untaken script = t.untaken script := by
  rw [untaken, untaken, (alike_of_essence h).taken]

/-- The server's invocations have no part in it. -/
theorem Falls.of_essence (falls : Falls script s e moment) (h : s.essence = t.essence) :
    Falls script t e moment := by
  have alike := alike_of_essence h
  cases e with
  | ping => exact Eq.trans falls alike.due
  | take => rwa [Falls, ← untaken_eq_of_essence h]
  | receive => rwa [Falls, ← alike.arrivals]

/-- Nothing is late at an open connection. -/
structure Waiting (script : Script) (s : Clocked) : Prop where
  due : s.clock ≤ s.due ∧ s.due ≤ s.clock + pingPeriod
  arrivals : ∀ y ∈ s.arrivals, s.clock ≤ y.1
  untaken : ∀ y ∈ s.untaken script, s.clock ≤ y.1

theorem Waiting.of_essence (hs : Waiting script s) (h : t.essence = s.essence)
    (hclock : t.clock = s.clock) : Waiting script t := by
  have alike := alike_of_essence h
  constructor
  · rw [hclock, alike.due]
    exact hs.due
  · rw [hclock, alike.arrivals]
    exact hs.arrivals
  · rw [hclock, untaken_eq_of_essence h]
    exact hs.untaken

structure Timely (script : Script) (ns : List (Nat × Event)) (s : Clocked) : Prop where
  past : ∀ y ∈ ns, y.1 ≤ s.clock
  arrivals : s.arrivals <:+ script.arrivals
  waiting : s.connection.phase = .running → Waiting script s

/-- The first of a sorted list is the first to come. -/
theorem le_of_head {α : Type} {later : List (Nat × α)}
    (sorted : later.Pairwise fun y z => y.1 ≤ z.1) (first : ∀ y ∈ later.head?, n ≤ y.1) :
    ∀ y ∈ later, n ≤ y.1 := by
  cases sorted with
  | nil => exact List.forall_mem_nil _
  | @cons z rest hfirst _ =>
    have hz : n ≤ z.1 := first z rfl
    intro y hy
    obtain rfl | hy := List.mem_cons.mp hy
    · exact hz
    · exact Nat.le_trans hz (hfirst y hy)

/-- With an empty queue what the task has not taken is still to come. -/
theorem Queued.untaken_eq (hs : Queued script s) (hempty : s.connection.commands = []) :
    s.untaken script = s.invokes := by
  obtain ⟨queue, hsplit, hqueue, -⟩ := hs
  rw [hempty] at hqueue
  rw [hsplit, List.map_eq_nil_iff.mp hqueue, List.nil_append]

theorem Timely.elapse (hs : Timely script ns s) (hkept : Kept script s) (may : s.MayElapse n) :
    Timely script ns { s with clock := s.clock + n } where
  past y hy := Nat.le_add_right_of_le (hs.past y hy)
  arrivals := hs.arrivals
  waiting hrun := by
    obtain ⟨-, -, hmay⟩ := may
    obtain ⟨hcommands, hdue, harrivals, hinvokes⟩ := hmay hrun
    have hlast := (hs.waiting hrun).due.2
    have hqueue := (hkept.queued hrun).untaken_eq hcommands
    constructor
    · exact ⟨hdue, by simp only; omega⟩
    · exact le_of_head (script.arrivals_sorted.sublist hs.arrivals.sublist) harrivals
    · refine le_of_head (script.invokes_sorted.sublist (List.drop_sublist _ _)) ?_
      intro y hy
      exact hinvokes y (hqueue ▸ hy)

theorem Timely.of_essence (hs : Timely script ns s) (h : t.essence = s.essence)
    (hclock : t.clock = s.clock) : Timely script ns t := by
  refine ⟨hclock ▸ hs.past, ?_, fun hrun => ?_⟩
  · rw [(alike_of_essence h).arrivals]
    exact hs.arrivals
  · exact (hs.waiting (running_of_essence h hrun)).of_essence h hclock

theorem Waiting.event (hs : Waiting script s) (haction : s.action? script e = some a)
    (hstep : s.connection.step? a = some c) : Waiting script ((s.spend e).becomes c) := by
  constructor
  · cases e with
    | ping => exact ⟨Nat.le_add_right _ _, Nat.le_refl _⟩
    | take | receive => exact hs.due
  · cases e with
    | receive => exact fun y hy => hs.arrivals y (List.mem_of_mem_tail hy)
    | ping | take => exact hs.arrivals
  · intro y hy
    show (s.spend e).clock ≤ y.1
    rw [spend_clock]
    obtain ⟨-, hsame⟩ | ⟨-, hrest⟩ := untaken_of_event script haction hstep
    · exact hs.untaken y (hsame ▸ hy)
    · exact hs.untaken y (List.mem_of_mem_tail (hrest ▸ hy))

theorem Timely.event (hs : Timely script ns s) (h : s.step? script (.event e) = some t) :
    Timely script (ns ++ s.moments (.event e)) t := by
  obtain ⟨a, c, haction, hstep, rfl⟩ := event_cases h
  have hrun := (running_of_driven (action?_driven haction) hstep).1
  have harrivals : ((s.spend e).becomes c).arrivals <:+ s.arrivals := by
    cases e <;> first | exact List.suffix_rfl | exact List.tail_suffix _
  refine ⟨?_, harrivals.trans hs.arrivals, fun _ => (hs.waiting hrun).event haction hstep⟩
  intro y hy
  show y.1 ≤ (s.spend e).clock
  rw [spend_clock]
  obtain hy | hy := List.mem_append.mp hy
  · exact hs.past y hy
  · obtain rfl := List.mem_singleton.mp hy
    exact Nat.le_refl _

theorem Timely.step (hs : Timely script ns s) (hkept : Kept script s)
    (h : s.step? script x = some t) : Timely script (ns ++ s.moments x) t := by
  obtain ⟨e, rfl, -⟩ | ⟨hquiet, -, hessence, ⟨n, rfl⟩ | hclock⟩ := hkept.step_cases h
  · exact hs.event h
  · obtain ⟨hmay, rfl⟩ := elapse_cases h
    rw [hquiet, List.append_nil]
    exact hs.elapse hkept hmay
  · rw [hquiet, List.append_nil]
    exact hs.of_essence hessence hclock

/-- An event happens when it falls. -/
theorem Waiting.falls (hs : Waiting script s) (hqueue : Queued script s)
    (h : s.step? script (.event e) = some t) : Falls script s e s.clock := by
  obtain ⟨a, c, haction, hstep, -⟩ := event_cases h
  cases e with
  | ping =>
    obtain ⟨hdue, -⟩ := action?_ping haction
    exact Nat.le_antisymm hs.due.1 hdue
  | take =>
    obtain rfl := action?_take haction
    obtain ⟨command, rest, -, hcommands, -⟩ := takeCommand_cases hstep
    obtain ⟨queue, hsplit, hqueue, hpast⟩ := hqueue
    cases queue with
    | nil =>
      rw [hcommands] at hqueue
      cases hqueue
    | cons y queue =>
      have hmem : y ∈ s.untaken script := by simp [hsplit]
      have hmoment := Nat.le_antisymm (hpast y List.mem_cons_self) (hs.untaken y hmem)
      simp [Falls, hsplit, hmoment]
  | receive =>
    obtain ⟨moment, i, rest, hfirst, hcome, -⟩ := action?_receive haction
    have hmoment := Nat.le_antisymm hcome (hs.arrivals (moment, i) (hfirst ▸ List.mem_cons_self))
    simp [Falls, hfirst, hmoment]

/-- No event has fallen before. -/
theorem Waiting.le_of_falls (hs : Waiting script s) (falls : Falls script s e moment) :
    s.clock ≤ moment := by
  cases e with
  | ping =>
    obtain rfl : moment = s.due := falls
    exact hs.due.1
  | take =>
    obtain ⟨y, hy, rfl⟩ := Option.map_eq_some_iff.mp falls
    exact hs.untaken y (List.mem_of_head? hy)
  | receive =>
    obtain ⟨y, hy, rfl⟩ := Option.map_eq_some_iff.mp falls
    exact hs.arrivals y (List.mem_of_head? hy)

end Foretold

section Pings

/-- When pings were written, newest first. -/
def pings (s : Clocked) : List Nat :=
  (s.written.filter fun w => w.2 = .frame Message.encodedPing).map (·.1)

/-- A ping was written at the end of every period while the connection was open. -/
structure Punctual (s : Clocked) : Prop where
  stamped : s.written.map (·.2) = s.connection.sent
  pings : s.pings.reverse = (List.range s.pings.length).map fun k => pingPeriod * (k + 1)
  due : s.connection.phase = .running → s.due = pingPeriod * (s.pings.length + 1)
  lost : ∀ moment e, s.lost = some (moment, e) →
    pingPeriod * s.pings.length ≤ moment ∧ moment ≤ pingPeriod * (s.pings.length + 1)

theorem Punctual.of_essence (hs : Punctual s) (h : t.essence = s.essence) : Punctual t := by
  have alike := alike_of_essence h
  have hpings : t.pings = s.pings := by rw [Clocked.pings, alike.written, Clocked.pings]
  constructor
  · rw [alike.written, alike.sent]
    exact hs.stamped
  · rw [hpings]
    exact hs.pings
  · intro hrun
    rw [alike.due, hpings]
    exact hs.due (running_of_essence h hrun)
  · rw [alike.lost, hpings]
    exact hs.lost

/-- What an event writes, and when it is not a ping that fails. -/
theorem sent_of_event (haction : s.action? script e = some a)
    (hstep : s.connection.step? a = some c) :
    (c.sent = s.connection.sent ∧ (e = .ping → c.phase ≠ .running)) ∨
      (e = .ping ∧ c.sent = .frame Message.encodedPing :: s.connection.sent ∧
        c.phase = .running) ∨
      ∃ w, e ≠ .ping ∧ w ≠ .frame Message.encodedPing ∧ c.sent = w :: s.connection.sent := by
  cases e with
  | ping =>
    obtain ⟨-, rfl⟩ := action?_ping haction
    obtain ⟨hrun, rfl⟩ := ping_cases hstep
    cases s.writes script with
    | true => exact .inr (.inl ⟨rfl, rfl, hrun⟩)
    | false => exact .inl ⟨rfl, fun _ => nofun⟩
  | take =>
    obtain rfl := action?_take haction
    obtain ⟨command, rest, -, -, rfl⟩ := takeCommand_cases hstep
    cases s.writes script with
    | true =>
      refine .inr (.inr ⟨_, nofun, fun heq => ?_, rfl⟩)
      exact encodeCall_ne_encodedPing _ _ _ (Written.frame.inj heq)
    | false => exact .inl ⟨rfl, nofun⟩
  | receive =>
    obtain ⟨moment, i, rest, -, -, rfl⟩ := action?_receive haction
    obtain ⟨-, rfl⟩ := receive_cases hstep
    exact .inl ⟨(receive_apart _ i).2.1, nofun⟩

theorem eq_clock_of_lost {e' : Error} (hopen : s.lost = none)
    (hlost : ((s.spend e).becomes c).lost = some (moment, e')) : moment = s.clock := by
  rw [becomes_lost_of_open (by rwa [spend_lost])] at hlost
  obtain ⟨e'', -, heq⟩ := Option.map_eq_some_iff.mp hlost
  cases heq
  exact spend_clock s e

/-- An event that writes no ping leaves the next one to come, unless it ends the connection. -/
theorem Punctual.unpinged (hs : Punctual s) (hwaiting : Waiting script s)
    (hrun : s.connection.phase = .running) (hopen : s.lost = none)
    (hpings : ((s.spend e).becomes c).pings = s.pings)
    (hstamped : ((s.spend e).becomes c).written.map (·.2) = c.sent)
    (hfired : e = .ping → c.phase ≠ .running) : Punctual ((s.spend e).becomes c) := by
  have hdue := hs.due hrun
  have hlast := hwaiting.due
  rw [hdue] at hlast
  refine ⟨hstamped, ?_, fun hrunning => ?_, fun moment e' hlost => ?_⟩
  · rw [hpings]
    exact hs.pings
  · rw [hpings, ← hdue]
    cases e with
    | ping => exact absurd hrunning (hfired rfl)
    | take | receive => rfl
  · rw [eq_clock_of_lost hopen hlost, hpings]
    refine ⟨?_, hlast.1⟩
    rw [Nat.mul_succ] at hlast
    omega

/-- A ping is written at the end of a period. -/
theorem Punctual.pinged (hs : Punctual s) (hopen : s.lost = none)
    (hclock : s.clock = pingPeriod * (s.pings.length + 1))
    (hsent : c.sent = .frame Message.encodedPing :: s.connection.sent)
    (hphase : c.phase = .running) : Punctual ((s.spend .ping).becomes c) := by
  have hwritten := @becomes_written_cons (s.spend .ping) c _ hsent
  rw [spend_written, spend_clock] at hwritten
  have hpings : ((s.spend .ping).becomes c).pings = s.clock :: s.pings := by
    rw [Clocked.pings, hwritten, List.filter_cons_of_pos (by simp), List.map_cons, Clocked.pings]
  refine ⟨?_, ?_, fun _ => ?_, fun moment e' hlost => ?_⟩
  · rw [hwritten, List.map_cons, hs.stamped]
    exact hsent.symm
  · rw [hpings, List.reverse_cons, hs.pings, List.length_cons, List.range_succ, List.map_append,
      hclock]
    rfl
  · rw [hpings, List.length_cons, Nat.mul_succ, ← hclock]
    rfl
  · rw [becomes_lost_of_open (by rwa [spend_lost]), hphase] at hlost
    cases hlost

theorem Punctual.event (hs : Punctual s) (hwaiting : Waiting script s)
    (hrun : s.connection.phase = .running) (hopen : s.lost = none)
    (h : s.step? script (.event e) = some t) : Punctual t := by
  obtain ⟨a, c, haction, hstep, rfl⟩ := event_cases h
  obtain ⟨hsent, hfired⟩ | ⟨rfl, hsent, hphase⟩ | ⟨w, hne, hw, hsent⟩ := sent_of_event haction hstep
  · have hwritten := @becomes_written (s.spend e) c (by rwa [spend_connection])
    rw [spend_written] at hwritten
    refine hs.unpinged hwaiting hrun hopen ?_ ?_ hfired
    · rw [Clocked.pings, hwritten, Clocked.pings]
    · rw [hwritten, hs.stamped, hsent]
  · obtain ⟨hfired, -⟩ := action?_ping haction
    have hclock : s.clock = s.due := Nat.le_antisymm hwaiting.due.1 hfired
    exact hs.pinged hopen (hclock.trans (hs.due hrun)) hsent hphase
  · have hwritten := @becomes_written_cons (s.spend e) c w (by rwa [spend_connection])
    rw [spend_written] at hwritten
    refine hs.unpinged hwaiting hrun hopen ?_ ?_ fun heq => absurd heq hne
    · rw [Clocked.pings, hwritten, List.filter_cons_of_neg (by simpa using hw), Clocked.pings]
    · rw [hwritten, List.map_cons, hs.stamped, hsent]

theorem punctual_start (script : Script) (frames : OpenFrame) (messages : List Message) :
    Punctual (start script frames messages) := by
  have hsent : (ofHandshake frames messages).sent = [] :=
    (dispatch_apart (blank frames) messages).2.1
  have hwritten : (start script frames messages).written = [] := becomes_written hsent
  have hpings : (start script frames messages).pings = [] := by rw [Clocked.pings, hwritten]; rfl
  constructor
  · rw [hwritten]
    exact hsent.symm
  · rw [hpings]
    rfl
  · rw [hpings]
    exact fun _ => rfl
  · intro moment e hlost
    rw [start, becomes_lost_of_open rfl] at hlost
    obtain ⟨e', -, heq⟩ := Option.map_eq_some_iff.mp hlost
    cases heq
    exact ⟨by rw [hpings]; exact Nat.le_refl _, Nat.zero_le _⟩

end Pings

section Runs

variable {frames : OpenFrame} {messages : List Message} {as : List Action}
  {allowed : Clocked → Action → Prop}

theorem timely_start (script : Script) (frames : OpenFrame) (messages : List Message) :
    Timely script [] (start script frames messages) where
  past := List.forall_mem_nil _
  arrivals := List.suffix_rfl
  waiting _ :=
    ⟨⟨Nat.zero_le _, Nat.le_add_left _ _⟩, fun _ _ => Nat.zero_le _, fun _ _ => Nat.zero_le _⟩

/-- All that holds of a state that a run has led to, with the course of the run. -/
structure Tracked (script : Script) (ns : List (Nat × Event)) (s : Clocked) : Prop where
  kept : Kept script s
  timely : Timely script ns s
  punctual : Punctual s

theorem Tracked.step (hs : Tracked script ns s) (h : s.step? script x = some t) :
    Tracked script (ns ++ s.moments x) t := by
  refine ⟨hs.kept.step h, hs.timely.step hs.kept h, ?_⟩
  obtain ⟨e, rfl, hrun, -⟩ | ⟨-, -, hessence, -⟩ := hs.kept.step_cases h
  · exact hs.punctual.event (hs.timely.waiting hrun) hrun (hs.kept.lost.mpr hrun) h
  · exact hs.punctual.of_essence hessence

theorem tracked_of_run (run : Run (step? script) allowed (start script frames messages) as s) :
    Tracked script (course script (start script frames messages) as) s := by
  have hstart : Tracked script [] (start script frames messages) :=
    ⟨kept_start _ _ _, timely_start _ _ _, punctual_start _ _ _⟩
  exact run.preserves_noted (fun _ _ _ _ hs _ h => hs.step h) hstart

end Runs

end TokenWatch.Hub.Clocked
