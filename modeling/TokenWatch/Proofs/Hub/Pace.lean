import TokenWatch.Proofs.Hub.Course

/-!
The pace of a caller. What the server sees of a connection, when the connection ends, and what comes
of the invocations that the task took do not depend on when the caller reads, or on whether it does.
They do depend on what the task turns to first where several things fall on one moment.
-/
namespace TokenWatch.Hub

/-- Nothing arrives when something is invoked, and neither happens when the timer fires. -/
structure Script.Untied (script : Script) : Prop where
  apart : ∀ x ∈ script.arrivals, ∀ y ∈ script.invokes, x.1 ≠ y.1
  arrivals : ∀ x ∈ script.arrivals, ∀ k, x.1 ≠ pingPeriod * (k + 1)
  invokes : ∀ y ∈ script.invokes, ∀ k, y.1 ≠ pingPeriod * (k + 1)

namespace Connection

variable {c v : Connection} {a : Action} {ns : List Note}

theorem Changes.replies_suffix (changes : Changes c ns v) : c.replies <:+ v.replies := by
  induction changes with
  | nil => exact List.suffix_rfl
  | cons first _ ih =>
    refine List.IsSuffix.trans ?_ ih
    cases first with
    | answered | unsent | refused => exact List.suffix_cons _ _
    | lost | finished | deserted => exact List.suffix_append _ _
    | _ => exact List.suffix_rfl

/-- Answers are only added. -/
theorem replies_suffix (h : c.step? a = some v) : c.replies <:+ v.replies :=
  (step_changes h).replies_suffix

end Connection

namespace Clocked
open Connection

variable {script : Script} {s t u : Clocked} {e e' : Event} {ns ms : List (Nat × Event)}
  {frames : OpenFrame} {messages : List Message} {as bs : List Action} {x : Action} {moment : Nat}

section Untied

/-- An event falls at the moment of something in the script, or when the timer fires. -/
theorem Tracked.moment_of_falls (hs : Tracked script ns s) (hrun : s.connection.phase = .running)
    (falls : Falls script s e moment) :
    match e with
    | .ping => ∃ k, moment = pingPeriod * (k + 1)
    | .take => ∃ y ∈ script.invokes, y.1 = moment
    | .receive => ∃ y ∈ script.arrivals, y.1 = moment := by
  cases e with
  | ping => exact ⟨s.pings.length, Eq.trans falls (hs.punctual.due hrun)⟩
  | take =>
    obtain ⟨y, hy, hmoment⟩ := Option.map_eq_some_iff.mp falls
    exact ⟨y, List.mem_of_mem_drop (List.mem_of_head? hy), hmoment⟩
  | receive =>
    obtain ⟨y, hy, hmoment⟩ := Option.map_eq_some_iff.mp falls
    exact ⟨y, hs.timely.arrivals.subset (List.mem_of_head? hy), hmoment⟩

/-- In an untied script no two events fall on one moment. -/
theorem event_eq_of_untied (untied : script.Untied) (hs : Tracked script ns s)
    (hrun : s.connection.phase = .running) (falls : Falls script s e moment)
    (falls' : Falls script s e' moment) : e = e' := by
  have hmoment := hs.moment_of_falls hrun falls
  have hmoment' := hs.moment_of_falls hrun falls'
  cases e <;> cases e' <;> simp only at hmoment hmoment'
  case ping.ping | take.take | receive.receive => rfl
  case ping.take =>
    obtain ⟨k, rfl⟩ := hmoment
    obtain ⟨y, hy, heq⟩ := hmoment'
    exact absurd heq (untied.invokes y hy k)
  case take.ping =>
    obtain ⟨y, hy, heq⟩ := hmoment
    obtain ⟨k, rfl⟩ := hmoment'
    exact absurd heq (untied.invokes y hy k)
  case ping.receive =>
    obtain ⟨k, rfl⟩ := hmoment
    obtain ⟨y, hy, heq⟩ := hmoment'
    exact absurd heq (untied.arrivals y hy k)
  case receive.ping =>
    obtain ⟨y, hy, heq⟩ := hmoment
    obtain ⟨k, rfl⟩ := hmoment'
    exact absurd heq (untied.arrivals y hy k)
  case take.receive =>
    obtain ⟨y, hy, rfl⟩ := hmoment
    obtain ⟨z, hz, heq⟩ := hmoment'
    exact absurd heq (untied.apart z hz y hy)
  case receive.take =>
    obtain ⟨z, hz, rfl⟩ := hmoment
    obtain ⟨y, hy, heq⟩ := hmoment'
    exact absurd heq.symm (untied.apart z hz y hy)

theorem tiesAlike_of_untied (untied : script.Untied) (hs : Reached script frames messages ns s)
    (ht : Reached script frames messages ms t) : TiesAlike ns ms := by
  rintro p y z rest rest' rfl rfl hmoment
  obtain ⟨u, u', -, hu, hy, step, -⟩ := hs.split
  obtain ⟨v, v', -, hv, hz, step', -⟩ := ht.split
  have hfalls := hu.falls step hu
  have hfalls' := hv.falls step' hu
  rw [hz, ← hmoment, ← hy] at hfalls'
  exact Prod.ext hmoment
    (event_eq_of_untied untied hu.tracked (running_of_event step) hfalls hfalls')

end Untied

section Pace

/-- What the server sees and what comes of the invocations that the task took is the same. -/
structure Agree (s t : Clocked) : Prop where
  running : s.connection.phase = .running ↔ t.connection.phase = .running
  lost : s.lost = t.lost
  arrivals : s.arrivals = t.arrivals
  sent : s.connection.sent = t.connection.sent
  written : s.written = t.written
  taken : s.taken = t.taken
  outcomes : ∀ ticket ∈ s.taken, ∀ r,
    (ticket, r) ∈ s.connection.replies ↔ (ticket, r) ∈ t.connection.replies

theorem agree_of_essence (h : s.essence = t.essence) : Agree s t := by
  have alike := alike_of_essence h
  refine ⟨⟨running_of_essence h, running_of_essence h.symm⟩, alike.lost, alike.arrivals, alike.sent,
    alike.written, alike.taken, fun ticket hticket r => ?_⟩
  have hanswer (s : Clocked) (hticket : ticket ∈ s.taken) :
      (ticket, r) ∈ s.connection.replies ↔ (ticket, r) ∈ s.answers := by
    simp [answers, hticket]
  rw [hanswer s hticket, alike.answers, hanswer t (alike.taken ▸ hticket)]

/-- What the server saw, whether the connection was lost, and what came of the invocations that the
task took is the beginning of what another one comes to. -/
structure Behind (s t : Clocked) : Prop where
  lost : s.lost = none ∨ s.lost = t.lost
  written : s.written <:+ t.written
  taken : s.taken <:+ t.taken
  outcomes : ∀ ticket ∈ s.taken, ∀ r,
    (ticket, r) ∈ s.connection.replies → (ticket, r) ∈ t.connection.replies

theorem Agree.behind (agree : Agree s t) : Behind s t where
  lost := .inr agree.lost
  written := agree.written ▸ List.suffix_rfl
  taken := agree.taken ▸ List.suffix_rfl
  outcomes ticket hticket r := (agree.outcomes ticket hticket r).mp

theorem Behind.trans (h : Behind s t) (h' : Behind t u) : Behind s u where
  lost := h.lost.elim .inl fun hlost => hlost ▸ h'.lost
  written := h.written.trans h'.written
  taken := h.taken.trans h'.taken
  outcomes ticket hticket r hreply :=
    h'.outcomes ticket (h.taken.subset hticket) r (h.outcomes ticket hticket r hreply)

theorem behind_becomes {c : Connection} (hreplies : s.connection.replies <:+ c.replies) :
    Behind s (s.becomes c) where
  lost := by
    by_cases hlost : s.lost = none
    · exact .inl hlost
    · exact .inr (becomes_lost_of_lost hlost).symm
  written := List.suffix_append _ _
  taken := List.suffix_rfl
  outcomes _ _ _ hreply := hreplies.subset hreply

theorem behind_step (h : s.step? script x = some t) : Behind s t := by
  obtain ⟨n, rfl⟩ | ⟨e, rfl⟩ | rfl | ⟨b, moves⟩ := x.split
  · obtain ⟨-, rfl⟩ := elapse_cases h
    exact ⟨.inr rfl, List.suffix_rfl, List.suffix_rfl, fun _ _ _ hreply => hreply⟩
  · obtain ⟨a, c, -, hstep, rfl⟩ := event_cases h
    have hspent : Behind s (s.spend e) := by
      cases e with
      | take =>
        exact ⟨.inr rfl, List.suffix_rfl, List.suffix_append _ _, fun _ _ _ hreply => hreply⟩
      | ping | receive =>
        exact ⟨.inr rfl, List.suffix_rfl, List.suffix_rfl, fun _ _ _ hreply => hreply⟩
    refine hspent.trans (behind_becomes ?_)
    rw [spend_connection]
    exact replies_suffix hstep
  · obtain ⟨moment, command, rest, c, -, -, hstep, rfl⟩ := asking_cases h
    have hasked : Behind s { s with invokes := rest } :=
      ⟨.inr rfl, List.suffix_rfl, List.suffix_rfl, fun _ _ _ hreply => hreply⟩
    exact hasked.trans (behind_becomes (replies_suffix hstep))
  · obtain ⟨c, hstep, rfl⟩ := moves.cases h
    exact behind_becomes (replies_suffix hstep)

/-- Nothing that happened is taken back. -/
theorem behind_of_run {allowed : Clocked → Action → Prop}
    (run : Run (step? script) allowed s as t) : Behind s t := by
  have hstart : Behind s s := (agree_of_essence rfl).behind
  exact run.preserves (fun _ _ _ hs _ h => hs.trans (behind_step h)) hstart

theorem Reached.behind (hs : Reached script frames messages ns s)
    (ht : Reached script frames messages ms t) (hfront : ns <+: ms) : Behind s t := by
  obtain ⟨rest, rfl⟩ := hfront
  obtain ⟨u, as, hu, run⟩ := ht.exists_before
  exact (agree_of_essence (hs.essence_eq hu)).behind.trans (behind_of_run run)

def openUntil (s : Clocked) : Nat :=
  match s.lost with
  | some (moment, _) => moment
  | none => s.clock

theorem Tracked.open_for_pings (hs : Tracked script ns s) :
    pingPeriod * s.pings.length ≤ s.openUntil ∧
      s.openUntil ≤ pingPeriod * (s.pings.length + 1) := by
  cases hlost : s.lost with
  | some loss =>
    obtain ⟨moment, e⟩ := loss
    rw [openUntil, hlost]
    exact hs.punctual.lost moment e hlost
  | none =>
    have hrun := hs.kept.lost.mp hlost
    have hdue := (hs.timely.waiting hrun).due
    rw [hs.punctual.due hrun, Nat.mul_succ] at hdue
    rw [openUntil, hlost, Nat.mul_succ]
    simp only
    omega

/-- A caller that is slow to read, or never reads, does not disturb a connection. Take two runs that
differ only in their callers' reading and do not overflow, and let the task turn to the same thing
first wherever several fall on one moment, as it does where none do. Then what the server sees, the
loss of the connection and the outcomes of the invocations that the task took are in one run the
beginning of what they are in the other, and the same when both have come to the same moment.
However the task chooses, whatever happens in one run can happen without any more reading in the
other, unless this overflows: an event that one run comes to, be it a ping or a completion, the
other one comes to at the same moment, and no open connection stands still for want of reading.
While a connection is open a ping is written at the end of each period, and at no other moment. -/
theorem reading_leaves_connection_alone
    (first : Run (step? script) Anything (start script frames messages) as s)
    (second : Run (step? script) Anything (start script frames messages) bs t)
    (fits : ¬s.Overflowed) (fits' : ¬t.Overflowed) :
    let course := course script (start script frames messages)
    (TiesAlike (course as) (course bs) →
      (course as <+: course bs ∧ Behind s t ∨ course bs <+: course as ∧ Behind t s) ∧
      (s.Settled → t.Settled → s.clock = t.clock → course as = course bs ∧ Agree s t)) ∧
    (script.Untied → TiesAlike (course as) (course bs)) ∧
    (course as = course bs → Agree s t) ∧
    (course bs <+: course as →
      ∃ cs u, Run (step? script) Anything t cs u ∧ (∀ x ∈ cs, x ≠ .next) ∧
        (u.Overflowed ∨ course (bs ++ cs) = course as ∧ Agree s u)) ∧
    (∀ y rest, course as = course bs ++ y :: rest →
      ∃ cs u, Run (step? script) Anything t cs u ∧ (∀ x ∈ cs, Idles x) ∧ u.clock = y.1 ∧
        (u.step? script (.event y.2)).isSome) ∧
    (s.connection.phase = .running →
      ∃ cs u, Run (step? script) Anything s cs u ∧ (∀ x ∈ cs, Idles x) ∧
        ((∃ e, (u.step? script (.event e)).isSome) ∨ u.MayElapse 1)) ∧
    (s.lost = none ↔ s.connection.phase = .running) ∧
    s.written.map (·.2) = s.connection.sent ∧
    s.pings.reverse = ((List.range s.pings.length).map fun k => pingPeriod * (k + 1)) ∧
    pingPeriod * s.pings.length ≤ s.openUntil ∧
    s.openUntil ≤ pingPeriod * (s.pings.length + 1) := by
  intro course
  have hs : Reached script frames messages (course as) s := ⟨fits, as, first, rfl⟩
  have ht : Reached script frames messages (course bs) t := ⟨fits', bs, second, rfl⟩
  have agree (hcourse : course as = course bs) : Agree s t := by
    have ht' : Reached script frames messages (course as) t := hcourse ▸ ht
    exact agree_of_essence (hs.essence_eq ht')
  refine ⟨fun alike => ⟨?_, fun settled settled' hclock => ?_⟩,
    fun untied => tiesAlike_of_untied untied hs ht, agree, ?_, ?_, hs.goes_on,
    hs.tracked.kept.lost, hs.tracked.punctual.stamped, hs.tracked.punctual.pings,
    hs.tracked.open_for_pings⟩
  · obtain hfront | hfront := hs.prefixes ht alike
    · exact .inl ⟨hfront, hs.behind ht hfront⟩
    · exact .inr ⟨hfront, ht.behind hs hfront⟩
  · have hcourse := hs.course_eq ht settled settled' hclock alike
    exact ⟨hcourse, agree hcourse⟩
  · rintro ⟨rest, hcourse⟩
    have hlonger : Reached script frames messages (course bs ++ rest) s := hcourse ▸ hs
    obtain ⟨cs, u, run, hread, hend⟩ := hlonger.follows ht
    refine ⟨cs, u, run, hread, hend.imp id fun ⟨hrest, hu⟩ => ⟨?_, ?_⟩⟩
    · rw [← hcourse, ← hrest]
      exact Run.noted_append second cs
    · exact agree_of_essence (hlonger.essence_eq hu)
  · intro y rest hcourse
    have hlonger : Reached script frames messages (course bs ++ y :: rest) s := hcourse ▸ hs
    obtain ⟨u, v, -, hu, hmoment, step, -⟩ := hlonger.split
    obtain ⟨cs, w, run, hidles, hclock, -, hpossible⟩ := hu.comes step ht
    exact ⟨cs, w, run, hidles, hclock.trans hmoment, hpossible⟩

/-- The hub completes an invocation and later closes the connection. -/
def sample : Script where
  arrivals :=
    [(2000, .text "\x7b\"type\":3,\"invocationId\":\"1\"\x7d\x1e".toList), (20000, .close none)]
  invokes := [(500, ⟨0, "SubscribeToTokenTransfers", []⟩)]
  writable _ _ := true
  arrivals_sorted := by simp
  invokes_sorted := by simp
  tickets_nodup := by simp

def sampleStart : Clocked := start sample .empty [.invocation none "transfers" []]

def sampleOpening : List Action :=
  [.forward, .elapse 500, .invoke, .event .take, .elapse 1500, .event .receive]

def sampleClosing : List Action := [.elapse 13000, .event .ping, .elapse 5000, .event .receive]

/-- The state between the two, with what the caller has not read and what it has read. -/
def opened (channel delivered : List Delivery) : Clocked where
  connection :=
    { frames := .empty, outbox := [], waiting := [], lastId := 1, commands := [], channel,
      phase := .running, held := true,
      sent := [.frame (Message.encodeCall "1" "SubscribeToTokenTransfers" [])],
      replies := [(0, .ok none)], delivered }
  clock := 2000
  due := 15000
  arrivals := [(20000, .close none)]
  invokes := []
  taken := [0]
  written := [(500, .frame (Message.encodeCall "1" "SubscribeToTokenTransfers" []))]
  lost := none

def offered : Delivery := .ok ⟨"transfers", []⟩

theorem sample_opens :
    sampleOpening.foldlM (step? sample) sampleStart = some (opened [offered] []) :=
  rfl

def Closes (s t : Clocked) : Prop :=
  sampleClosing.foldlM (step? sample) s = some t ∧ t.clock = 20000 ∧
    t.connection.phase = .ending (.closed none) ∧ t.lost = some (20000, .closed none) ∧
    t.connection.replies = [(0, .ok none)] ∧ t.connection.delivered = s.connection.delivered

theorem sample_closes :
    (∃ s, Closes (opened [offered] []) s) ∧ ∃ t, Closes (opened [] [offered]) t :=
  ⟨⟨_, rfl, rfl, rfl, rfl, rfl, rfl⟩, ⟨_, rfl, rfl, rfl, rfl, rfl, rfl⟩⟩

theorem untied_sample : sample.Untied where
  apart := by simp [sample]
  arrivals x hx k := by
    simp only [sample, List.mem_cons, List.not_mem_nil, or_false] at hx
    simp only [pingPeriod]
    obtain rfl | rfl := hx <;> omega
  invokes y hy k := by
    obtain rfl := List.mem_singleton.mp hy
    simp only [pingPeriod]
    omega

/-- One caller reads the server's invocation, the other one reads nothing. Its own invocation is
completed behind that one, a ping is written, and the connection ends. -/
theorem reading_leaves_connection_alone_unread :
    ∃ s t, Run (step? sample) Anything sampleStart (sampleOpening ++ sampleClosing) s ∧
      Run (step? sample) Anything sampleStart (sampleOpening ++ .next :: sampleClosing) t ∧
      Agree s t ∧ s.lost = some (20000, .closed none) ∧ s.pings = [15000] ∧
      s.connection.replies = [(0, .ok none)] ∧ s.connection.delivered = [] ∧
      t.connection.delivered = [offered] := by
  obtain ⟨⟨s, hs, hclock, hending, hlost, hreplies, hunread⟩,
    t, ht, hclock', hending', hlost', -, hread⟩ := sample_closes
  have first : Run (step? sample) Anything sampleStart (sampleOpening ++ sampleClosing) s :=
    .of_foldlM ((Run.foldlM_append sample_opens _).trans hs)
  have second : Run (step? sample) Anything sampleStart (sampleOpening ++ .next :: sampleClosing)
      t :=
    .of_foldlM ((Run.foldlM_append sample_opens _).trans ((Run.foldlM_cons rfl _).trans ht))
  have fits (u : Clocked) (hlost : u.lost = some (20000, .closed none)) : ¬u.Overflowed := by
    rintro ⟨moment, hbacklog⟩
    cases hlost.symm.trans hbacklog
  have settled : s.Settled := fun hrun => by cases hending.symm.trans hrun
  have settled' : t.Settled := fun hrun => by cases hending'.symm.trans hrun
  obtain ⟨halike, huntied, -, -, -, -, -, -, hpings, hleast, hmost⟩ :=
    reading_leaves_connection_alone first second (fits s hlost) (fits t hlost')
  obtain ⟨-, hsame⟩ := halike (huntied untied_sample)
  have hagree := (hsame settled settled' (hclock.trans hclock'.symm)).2
  -- The connection was open for one period and a part of the next.
  have hone : s.pings.length = 1 := by
    rw [openUntil, hlost] at hleast hmost
    simp only [pingPeriod] at hleast hmost
    omega
  have hping : s.pings = [15000] := by
    rw [hone] at hpings
    exact List.reverse_eq_iff.mp hpings
  exact ⟨s, t, first, second, hagree, hlost, hping, hreplies, hunread, hread⟩

/-- An invocation that its caller asks for when the timer fires. -/
def tied : Script where
  arrivals := []
  invokes := [(15000, ⟨0, "SubscribeToTokenTransfers", []⟩)]
  writable _ _ := true
  arrivals_sorted := .nil
  invokes_sorted := by simp
  tickets_nodup := by simp

/-- At a tie the frames come in one order or in the other, also if nobody reads. -/
theorem ping_and_call_part :
    let pingFirst : List Action := [.elapse 15000, .event .ping, .invoke, .event .take]
    let callFirst : List Action := [.elapse 15000, .invoke, .event .take, .event .ping]
    ∃ s t, Run (step? tied) Anything (start tied .empty []) pingFirst s ∧
      Run (step? tied) Anything (start tied .empty []) callFirst t ∧
      (∀ x ∈ pingFirst ++ callFirst, x ≠ .next) ∧ ¬s.Overflowed ∧ ¬t.Overflowed ∧
      s.Settled ∧ t.Settled ∧ s.clock = t.clock ∧ s.connection.sent ≠ t.connection.sent := by
  intro pingFirst callFirst
  let call : List Char := Message.encodeCall "1" "SubscribeToTokenTransfers" []
  obtain ⟨s, hs, hopen, hsettled, hclock, hsent⟩ : ∃ s : Clocked,
      pingFirst.foldlM (step? tied) (start tied .empty []) = some s ∧ s.lost = none ∧
        (s.connection.commands = [] ∧ s.due = 30000 ∧ s.arrivals = [] ∧ s.invokes = []) ∧
        s.clock = 15000 ∧ s.connection.sent = [.frame call, .frame Message.encodedPing] :=
    ⟨_, rfl, rfl, ⟨rfl, rfl, rfl, rfl⟩, rfl, rfl⟩
  obtain ⟨t, ht, hopen', hsettled', hclock', hsent'⟩ : ∃ t : Clocked,
      callFirst.foldlM (step? tied) (start tied .empty []) = some t ∧ t.lost = none ∧
        (t.connection.commands = [] ∧ t.due = 30000 ∧ t.arrivals = [] ∧ t.invokes = []) ∧
        t.clock = 15000 ∧ t.connection.sent = [.frame Message.encodedPing, .frame call] :=
    ⟨_, rfl, rfl, ⟨rfl, rfl, rfl, rfl⟩, rfl, rfl⟩
  have settled (s : Clocked) (hs : s.connection.commands = [] ∧ s.due = 30000 ∧ s.arrivals = [] ∧
      s.invokes = []) (hclock : s.clock = 15000) : s.Settled := by
    obtain ⟨hcommands, hdue, harrivals, hinvokes⟩ := hs
    intro _
    simp [hcommands, hdue, harrivals, hinvokes, hclock]
  have fits (s : Clocked) (hopen : s.lost = none) : ¬s.Overflowed := by
    rintro ⟨moment, hbacklog⟩
    cases hopen.symm.trans hbacklog
  refine ⟨s, t, .of_foldlM hs, .of_foldlM ht, ?_, fits s hopen, fits t hopen',
    settled s hsettled hclock, settled t hsettled' hclock', hclock.trans hclock'.symm, ?_⟩
  · simp [pingFirst, callFirst]
  · rw [hsent, hsent']
    intro heq
    obtain ⟨hcall, -⟩ := List.cons.inj heq
    exact encodeCall_ne_encodedPing _ _ _ (Written.frame.inj hcall)

end Pace

end Clocked
end TokenWatch.Hub
