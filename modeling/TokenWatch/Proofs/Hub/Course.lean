import TokenWatch.Proofs.Hub.Timing

/-!
The courses of two runs whose callers read at different paces. What comes next after a course comes
at the same moment for every caller, so that only the order of events of one moment can part them.
-/
namespace TokenWatch.Hub.Clocked
open Connection

variable {script : Script} {s t u v : Clocked} {e e' : Event} {moment n : Nat} {x : Action}
  {ns ms p rest : List (Nat × Event)} {y : Nat × Event} {frames : OpenFrame}
  {messages : List Message}

section Courses

/-- A state to which a course leads without an overflow. -/
def Reached (script : Script) (frames : OpenFrame) (messages : List Message)
    (ns : List (Nat × Event)) (s : Clocked) : Prop :=
  ¬s.Overflowed ∧ ∃ as, Run (step? script) Anything (start script frames messages) as s ∧
    course script (start script frames messages) as = ns

namespace Reached

theorem tracked (hs : Reached script frames messages ns s) : Tracked script ns s := by
  obtain ⟨-, as, run, rfl⟩ := hs
  exact tracked_of_run run

/-- The course makes the essence. -/
theorem essence_eq (hs : Reached script frames messages ns s)
    (ht : Reached script frames messages ns t) : s.essence = t.essence := by
  obtain ⟨fits, as, run, hcourse⟩ := hs
  obtain ⟨fits', bs, run', hcourse'⟩ := ht
  rw [(essence_of_run run).2 fits, (essence_of_run run').2 fits', hcourse, hcourse']

theorem running (hs : Reached script frames messages ns s)
    (ht : Reached script frames messages ns t) (hrun : s.connection.phase = .running) :
    t.connection.phase = .running :=
  running_of_essence (hs.essence_eq ht) hrun

theorem waiting (hs : Reached script frames messages ns s)
    (hrun : s.connection.phase = .running) : Waiting script s ∧ Queued script s :=
  ⟨hs.tracked.timely.waiting hrun, hs.tracked.kept.queued hrun⟩

theorem step (hs : Reached script frames messages ns s) (h : s.step? script x = some t)
    (fits : ¬t.Overflowed) : Reached script frames messages (ns ++ s.moments x) t := by
  obtain ⟨-, as, run, rfl⟩ := hs
  refine ⟨fits, as ++ [x], run.append (.single trivial h), ?_⟩
  rw [course, Run.noted_append run, Run.noted_cons h]
  simp only [Run.noted, List.append_nil]
  rfl

/-- What is quiet leads no further. -/
theorem quiet (hs : Reached script frames messages ns s) (h : s.step? script x = some t)
    (hquiet : s.moments x = []) : Reached script frames messages ns t := by
  obtain ⟨e, -, -, hmoments⟩ | ⟨-, -, hessence, -⟩ := hs.tracked.kept.step_cases h
  · rw [hquiet] at hmoments
    cases hmoments
  · have fits : ¬t.Overflowed := by
      rw [Overflowed, (alike_of_essence hessence).lost]
      exact hs.1
    have hreached := hs.step h fits
    rwa [hquiet, List.append_nil] at hreached

/-- Each event of a course happened in a state that the events before led to. -/
theorem split (hs : Reached script frames messages (p ++ y :: rest) s) :
    ∃ u v as, Reached script frames messages p u ∧ u.clock = y.1 ∧
      u.step? script (.event y.2) = some v ∧ Run (step? script) Anything u as s := by
  obtain ⟨fits, as, run, hcourse⟩ := hs
  obtain ⟨xs, a, ys, u, v, before, after, run', step, rest, hnoted, hpast⟩ :=
    run.exists_of_noted hcourse
  have hfits : ¬u.Overflowed := fun hover => fits ((hover.step step).run rest)
  obtain ⟨e, rfl, -, hmoments⟩ | ⟨hquiet, -⟩ := (tracked_of_run run').kept.step_cases step
  · rw [hmoments] at hnoted
    cases before with
    | nil =>
      obtain ⟨rfl, -⟩ := List.cons.inj hnoted
      rw [List.append_nil] at hpast
      exact ⟨u, v, .event e :: ys, ⟨hfits, xs, run', hpast.symm⟩, rfl, step,
        .cons trivial step rest⟩
    | cons m before => simp at hnoted
  · rw [hquiet] at hnoted
    simp at hnoted

/-- A run has come through every beginning of its course. -/
theorem exists_before (hs : Reached script frames messages (p ++ rest) s) :
    ∃ u as, Reached script frames messages p u ∧ Run (step? script) Anything u as s := by
  cases rest with
  | nil => exact ⟨s, [], by rwa [List.append_nil] at hs, .nil s⟩
  | cons y rest =>
    obtain ⟨u, -, as, hu, -, -, run⟩ := hs.split
    exact ⟨u, as, hu, run⟩

end Reached

end Courses

section Meeting

theorem running_of_event (h : s.step? script (.event e) = some u) :
    s.connection.phase = .running := by
  obtain ⟨a, c, haction, hstep, -⟩ := event_cases h
  exact (running_of_driven (action?_driven haction) hstep).1

theorem Reached.falls (hs : Reached script frames messages ns s)
    (h : s.step? script (.event e) = some u) (ht : Reached script frames messages ns t) :
    Falls script t e s.clock := by
  obtain ⟨hwaiting, hqueue⟩ := hs.waiting (running_of_event h)
  exact (hwaiting.falls hqueue h).of_essence (hs.essence_eq ht)

/-- What comes next after a course comes for every caller at the same moment. -/
theorem Reached.clock_eq (hs : Reached script frames messages ns s)
    (ht : Reached script frames messages ns t) (h : s.step? script (.event e) = some u)
    (h' : t.step? script (.event e') = some v) : s.clock = t.clock := by
  have hle : t.clock ≤ s.clock :=
    (ht.waiting (running_of_event h')).1.le_of_falls (hs.falls h ht)
  have hge : s.clock ≤ t.clock :=
    (hs.waiting (running_of_event h)).1.le_of_falls (ht.falls h' hs)
  exact Nat.le_antisymm hge hle

def Idles (x : Action) : Prop := x = .forward ∨ x = .invoke ∨ ∃ n, x = .elapse n

theorem Idles.moments (idles : Idles x) (s : Clocked) : s.moments x = [] := by
  obtain rfl | rfl | ⟨n, rfl⟩ := idles <;> rfl

/-- The task fills the channel as far as it has room. -/
theorem Reached.exists_filled (hs : Reached script frames messages ns s) :
    ∃ as t, Run (step? script) Anything s as t ∧ (∀ x ∈ as, Idles x) ∧
      Reached script frames messages ns t ∧ t.clock = s.clock ∧
      t.connection.step? .forward = none := by
  induction houtbox : s.connection.outbox generalizing s with
  | nil =>
    have full : s.connection.step? .forward = none := by
      refine Option.eq_none_iff_forall_ne_some.mpr fun c hforward => ?_
      obtain ⟨call, later, -, houtbox', -⟩ := forward_cases hforward
      rw [houtbox] at houtbox'
      cases houtbox'
    exact ⟨[], s, .nil s, List.forall_mem_nil _, hs, rfl, full⟩
  | cons call later ih =>
    cases hforward : s.connection.step? .forward with
    | none => exact ⟨[], s, .nil s, List.forall_mem_nil _, hs, rfl, hforward⟩
    | some c =>
      have step : s.step? script .forward = some (s.becomes c) := by
        rw [step?, hforward, Option.map_some]
      obtain ⟨call', later', -, houtbox', -, -, rfl⟩ := forward_cases hforward
      obtain ⟨rfl, rfl⟩ := List.cons.inj (houtbox.symm.trans houtbox')
      obtain ⟨as, t, run, hidles, ht, hclock, hfull⟩ := ih (hs.quiet step rfl) rfl
      refine ⟨.forward :: as, t, .cons trivial step run, ?_, ht, hclock, hfull⟩
      exact List.forall_mem_cons.mpr ⟨.inl rfl, hidles⟩

/-- With the channel filled, time passes until the next event. -/
theorem Reached.mayElapse (hs : Reached script frames messages ns s)
    (hrun : s.connection.phase = .running) (ht : Reached script frames messages ns t)
    (hadd : t.clock + n = s.clock) (later : t.clock < s.clock)
    (hfull : t.connection.step? .forward = none) : t.MayElapse n := by
  have hessence := ht.essence_eq hs
  have alike := alike_of_essence hessence
  have hwaiting := (hs.waiting hrun).1
  have hrun' := hs.running ht hrun
  obtain ⟨queue, hsplit, hqueue, hpast⟩ := (ht.waiting hrun').2
  have huntaken : ∀ y ∈ queue ++ t.invokes, s.clock ≤ y.1 := by
    rw [← hsplit, untaken_eq_of_essence hessence]
    exact hwaiting.untaken
  refine ⟨hfull, by simp only [Connection.step?, hrun'], fun _ => ⟨?_, ?_, ?_, ?_⟩⟩
  · -- The caller would have asked for an invocation in the queue at both clocks.
    cases queue with
    | nil => exact hqueue.symm
    | cons y queue =>
      have hlate := huntaken y (by simp)
      have hearly := hpast y List.mem_cons_self
      omega
  · rw [hadd, alike.due]
    exact hwaiting.due.1
  · rw [hadd, alike.arrivals]
    exact fun y hy => hwaiting.arrivals y (List.mem_of_head? hy)
  · rw [hadd]
    exact fun y hy => huntaken y (List.mem_append_right _ (List.mem_of_head? hy))

theorem isSome_event {a : Connection.Action} (haction : s.action? script e = some a)
    (hpossible : (s.connection.step? a).isSome) : (s.step? script (.event e)).isSome := by
  obtain ⟨c, hstep⟩ := Option.isSome_iff_exists.mp hpossible
  rw [event_of_action? haction hstep]
  rfl

theorem ping_possible (script : Script) (hrun : s.connection.phase = .running)
    (hdue : s.due ≤ s.clock) : (s.step? script (.event .ping)).isSome := by
  have haction : s.action? script .ping = some (.ping (s.writes script)) := if_pos hdue
  exact isSome_event haction (by simp [Connection.step?, hrun])

theorem receive_possible (script : Script) (hrun : s.connection.phase = .running)
    {y : Nat × Incoming} (hy : y ∈ s.arrivals.head?) (hcome : y.1 ≤ s.clock) :
    (s.step? script (.event .receive)).isSome := by
  cases harrivals : s.arrivals with
  | nil =>
    rw [harrivals] at hy
    cases hy
  | cons z later =>
    obtain rfl : z = y := by simpa [harrivals] using hy
    have haction : s.action? script .receive = some (.receive z.2) := by
      simp only [action?, harrivals, if_pos hcome]
    exact isSome_event haction (by simp [Connection.step?, hrun])

theorem take_possible (script : Script) (hrun : s.connection.phase = .running)
    (hqueued : s.connection.commands ≠ []) : (s.step? script (.event .take)).isSome := by
  cases hcommands : s.connection.commands with
  | nil => exact absurd hcommands hqueued
  | cons command later => exact isSome_event rfl (by simp [Connection.step?, hrun, hcommands])

/-- With an empty queue the caller asks, and the task may take what it asks for. -/
theorem Kept.exists_asked (hs : Kept script s) (hrun : s.connection.phase = .running)
    (hempty : s.connection.commands = []) {y : Nat × Command} (hy : y ∈ s.invokes.head?)
    (hcome : y.1 ≤ s.clock) :
    ∃ t, s.step? script .invoke = some t ∧ t.clock = s.clock ∧
      (t.step? script (.event .take)).isSome := by
  cases hinvokes : s.invokes with
  | nil =>
    rw [hinvokes] at hy
    cases hy
  | cons z later =>
    obtain rfl : z = y := by simpa [hinvokes] using hy
    let c : Connection := { s.connection with commands := [z.2] }
    have hstep : s.connection.step? (.invoke z.2) = some c := by
      simp [Connection.step?, hs.held, hrun, hempty, channelSlots, c]
    have step : s.step? script .invoke = some ({ s with invokes := later }.becomes c) := by
      simp only [step?, hinvokes, if_pos hcome, hstep, Option.map_some]
    have hqueued : c.commands ≠ [] := List.cons_ne_nil _ _
    exact ⟨_, step, rfl, take_possible script hrun hqueued⟩

/-- At its moment an event is possible, once the caller has asked for what the task takes. -/
theorem Reached.comes_now (hs : Reached script frames messages ns s)
    (hrun : s.connection.phase = .running) (falls : Falls script s e s.clock) :
    ∃ cs w, Run (step? script) Anything s cs w ∧ (∀ x ∈ cs, Idles x) ∧ w.clock = s.clock ∧
      Reached script frames messages ns w ∧ (w.step? script (.event e)).isSome := by
  have still (hpossible : (s.step? script (.event e)).isSome) :
      ∃ cs w, Run (step? script) Anything s cs w ∧ (∀ x ∈ cs, Idles x) ∧ w.clock = s.clock ∧
        Reached script frames messages ns w ∧ (w.step? script (.event e)).isSome :=
    ⟨[], s, .nil s, List.forall_mem_nil _, rfl, hs, hpossible⟩
  cases e with
  | ping => exact still (ping_possible script hrun (Nat.le_of_eq falls.symm))
  | receive =>
    obtain ⟨y, hy, hmoment⟩ := Option.map_eq_some_iff.mp falls
    exact still (receive_possible script hrun hy (Nat.le_of_eq hmoment))
  | take =>
    by_cases hempty : s.connection.commands = []
    · obtain ⟨y, hy, hmoment⟩ := Option.map_eq_some_iff.mp falls
      rw [(hs.waiting hrun).2.untaken_eq hempty] at hy
      obtain ⟨w, step, hclock, hpossible⟩ :=
        hs.tracked.kept.exists_asked hrun hempty hy (Nat.le_of_eq hmoment)
      refine ⟨[.invoke], w, .single trivial step, ?_, hclock, hs.quiet step rfl, hpossible⟩
      exact List.forall_mem_singleton.mpr (.inr (.inl rfl))
    · exact still (take_possible script hrun hempty)

/-- What comes next for one caller comes at the same moment for any other, also if it does not read
until then. -/
theorem Reached.comes (hs : Reached script frames messages ns s)
    (h : s.step? script (.event e) = some u) (ht : Reached script frames messages ns t) :
    ∃ cs w, Run (step? script) Anything t cs w ∧ (∀ x ∈ cs, Idles x) ∧ w.clock = s.clock ∧
      Reached script frames messages ns w ∧ (w.step? script (.event e)).isSome := by
  have hrun := running_of_event h
  have hle : t.clock ≤ s.clock :=
    (ht.waiting (hs.running ht hrun)).1.le_of_falls (hs.falls h ht)
  -- Time passes in the second run, if it has to.
  obtain ⟨as, v, run, hidles, hv, hclock⟩ : ∃ as v, Run (step? script) Anything t as v ∧
      (∀ x ∈ as, Idles x) ∧ Reached script frames messages ns v ∧ v.clock = s.clock := by
    by_cases hnow : t.clock = s.clock
    · exact ⟨[], t, .nil t, List.forall_mem_nil _, ht, hnow⟩
    · obtain ⟨as, w, run, hidles, hw, hclock, hfull⟩ := ht.exists_filled
      have hadd : w.clock + (s.clock - t.clock) = s.clock := by omega
      have elapse : w.step? script (.elapse (s.clock - t.clock)) =
          some { w with clock := w.clock + (s.clock - t.clock) } :=
        if_pos (hs.mayElapse hrun hw hadd (by omega) hfull)
      refine ⟨as ++ [.elapse (s.clock - t.clock)], _, run.append (.single trivial elapse), ?_,
        hw.quiet elapse rfl, hadd⟩
      exact List.forall_mem_append.mpr
        ⟨hidles, List.forall_mem_singleton.mpr (.inr (.inr ⟨_, rfl⟩))⟩
  have falls : Falls script v e v.clock := hclock ▸ hs.falls h hv
  obtain ⟨cs, w, run', hidles', hclock', hw, hpossible⟩ :=
    hv.comes_now (hs.running hv hrun) falls
  exact ⟨as ++ cs, w, run.append run', List.forall_mem_append.mpr ⟨hidles, hidles'⟩,
    hclock'.trans hclock, hw, hpossible⟩

/-- An open connection never stands still for want of reading. -/
theorem Reached.goes_on (hs : Reached script frames messages ns s)
    (hrun : s.connection.phase = .running) :
    ∃ cs u, Run (step? script) Anything s cs u ∧ (∀ x ∈ cs, Idles x) ∧
      ((∃ e, (u.step? script (.event e)).isSome) ∨ u.MayElapse 1) := by
  obtain ⟨cs, u, run, hidles, hu, -, hfull⟩ := hs.exists_filled
  have hrun' := hs.running hu hrun
  have event (e : Event) (hpossible : (u.step? script (.event e)).isSome) :
      ∃ cs u, Run (step? script) Anything s cs u ∧ (∀ x ∈ cs, Idles x) ∧
        ((∃ e, (u.step? script (.event e)).isSome) ∨ u.MayElapse 1) :=
    ⟨cs, u, run, hidles, .inl ⟨e, hpossible⟩⟩
  by_cases hempty : u.connection.commands = []
  case neg => exact event .take (take_possible script hrun' hempty)
  by_cases hfired : u.due ≤ u.clock
  case pos => exact event .ping (ping_possible script hrun' hfired)
  by_cases harrivals : ∃ y ∈ u.arrivals.head?, y.1 ≤ u.clock
  case pos =>
    obtain ⟨y, hy, hcome⟩ := harrivals
    exact event .receive (receive_possible script hrun' hy hcome)
  by_cases hinvokes : ∃ y ∈ u.invokes.head?, y.1 ≤ u.clock
  case pos =>
    obtain ⟨y, hy, hcome⟩ := hinvokes
    obtain ⟨w, step, -, hpossible⟩ := hu.tracked.kept.exists_asked hrun' hempty hy hcome
    refine ⟨cs ++ [.invoke], w, run.append (.single trivial step), ?_, .inl ⟨.take, hpossible⟩⟩
    exact List.forall_mem_append.mpr
      ⟨hidles, List.forall_mem_singleton.mpr (.inr (.inl rfl))⟩
  refine ⟨cs, u, run, hidles, .inr ⟨hfull, by simp only [Connection.step?, hrun'], fun _ => ?_⟩⟩
  refine ⟨hempty, Nat.not_le.mp hfired, fun y hy => ?_, fun y hy => ?_⟩
  · exact Nat.not_le.mp fun hcome => harrivals ⟨y, hy, hcome⟩
  · exact Nat.not_le.mp fun hcome => hinvokes ⟨y, hy, hcome⟩

theorem course_idle {cs : List Action} (hidles : ∀ x ∈ cs, Idles x) (s : Clocked) :
    course script s cs = [] := by
  induction cs generalizing s with
  | nil => rfl
  | cons x cs ih =>
    obtain ⟨hx, hcs⟩ := List.forall_mem_cons.mp hidles
    rw [course, Run.noted, hx.moments, List.nil_append]
    cases s.step? script x with
    | none => rfl
    | some t => exact ih hcs t

theorem Idles.ne_next (idles : Idles x) : x ≠ .next := by
  obtain rfl | rfl | ⟨n, rfl⟩ := idles <;> exact nofun

/-- Whatever course one caller's connection takes, another one's can take without any further
reading, unless it overflows on the way. -/
theorem Reached.follows (hs : Reached script frames messages (ns ++ rest) s)
    (ht : Reached script frames messages ns t) :
    ∃ cs w, Run (step? script) Anything t cs w ∧ (∀ x ∈ cs, x ≠ .next) ∧
      (w.Overflowed ∨
        course script t cs = rest ∧ Reached script frames messages (ns ++ rest) w) := by
  induction rest generalizing ns t with
  | nil =>
    have ht' : Reached script frames messages (ns ++ []) t := by rwa [List.append_nil]
    exact ⟨[], t, .nil t, List.forall_mem_nil _, .inr ⟨rfl, ht'⟩⟩
  | cons y rest ih =>
    obtain ⟨u, v, -, hu, hmoment, step, -⟩ := hs.split
    obtain ⟨cs, w, run, hidles, hclock, hw, hpossible⟩ := hu.comes step ht
    obtain ⟨w', step'⟩ := Option.isSome_iff_exists.mp hpossible
    have hnow : w.moments (.event y.2) = [y] :=
      congrArg (fun moment => [(moment, y.2)]) (hclock.trans hmoment)
    have hrun' : Run (step? script) Anything t (cs ++ [.event y.2]) w' :=
      run.append (.single trivial step')
    have hread : ∀ x ∈ cs ++ [.event y.2], x ≠ .next := List.forall_mem_append.mpr
      ⟨fun x hx => (hidles x hx).ne_next, List.forall_mem_singleton.mpr nofun⟩
    have hcourse : course script t (cs ++ [.event y.2]) = [y] := by
      rw [course, Run.noted_append run, Run.noted_cons step', hnow]
      exact congrArg (· ++ [y]) (course_idle hidles t)
    by_cases fits : w'.Overflowed
    · exact ⟨_, w', hrun', hread, .inl fits⟩
    have hnext : Reached script frames messages (ns ++ [y]) w' := by
      have hreached := hw.step step' fits
      rwa [hnow] at hreached
    have hlonger : Reached script frames messages (ns ++ [y] ++ rest) s := by
      rwa [List.append_assoc]
    obtain ⟨cs', w'', run'', hread', hend⟩ := ih hlonger hnext
    refine ⟨cs ++ [.event y.2] ++ cs', w'', hrun'.append run'',
      List.forall_mem_append.mpr ⟨hread, hread'⟩, hend.imp id fun ⟨hrest, hw''⟩ => ⟨?_, ?_⟩⟩
    · rw [course, Run.noted_append hrun']
      exact (congrArg (· ++ _) hcourse).trans (congrArg ([y] ++ ·) hrest)
    · rwa [List.append_assoc] at hw''

end Meeting

section Ties

/-- Nothing is left to happen at this moment. -/
def Settled (s : Clocked) : Prop :=
  s.connection.phase = .running →
    s.connection.commands = [] ∧ s.clock < s.due ∧ (∀ y ∈ s.arrivals.head?, s.clock < y.1) ∧
      ∀ y ∈ s.invokes.head?, s.clock < y.1

theorem Settled.lt_of_falls (hs : s.Settled) (hrun : s.connection.phase = .running)
    (hqueue : Queued script s) (falls : Falls script s e moment) : s.clock < moment := by
  obtain ⟨hcommands, hdue, harrivals, hinvokes⟩ := hs hrun
  cases e with
  | ping =>
    obtain rfl : moment = s.due := falls
    exact hdue
  | take =>
    obtain ⟨y, hy, rfl⟩ := Option.map_eq_some_iff.mp falls
    exact hinvokes y (hqueue.untaken_eq hcommands ▸ hy)
  | receive =>
    obtain ⟨y, hy, rfl⟩ := Option.map_eq_some_iff.mp falls
    exact harrivals y hy

/-- A course goes on only later. -/
theorem Reached.lt_of_extended (hs : Reached script frames messages ns s) (settled : s.Settled)
    (ht : Reached script frames messages (ns ++ y :: rest) t) : s.clock < t.clock := by
  obtain ⟨u, v, -, hu, hclock, step, -⟩ := ht.split
  have hrun := hu.running hs (running_of_event step)
  have hlater : s.clock < u.clock :=
    settled.lt_of_falls hrun (hs.waiting hrun).2 (hu.falls step hs)
  have hpast : y.1 ≤ t.clock := ht.tracked.timely.past y (by simp)
  omega

/-- Where two courses come to events of one moment, they take the same one first. -/
def TiesAlike (ns ms : List (Nat × Event)) : Prop :=
  ∀ p y z rest rest', ns = p ++ y :: rest → ms = p ++ z :: rest' → y.1 = z.1 → y = z

/-- Two lists are the same, or one goes on after the other, or they part somewhere. -/
theorem eq_or_parts {α : Type} (xs ys : List α) :
    xs = ys ∨ (∃ x rest, xs = ys ++ x :: rest) ∨ (∃ y rest, ys = xs ++ y :: rest) ∨
      ∃ p x y rest rest', x ≠ y ∧ xs = p ++ x :: rest ∧ ys = p ++ y :: rest' := by
  induction xs generalizing ys with
  | nil =>
    cases ys with
    | nil => exact .inl rfl
    | cons y ys => exact .inr (.inr (.inl ⟨y, ys, rfl⟩))
  | cons x xs ih =>
    cases ys with
    | nil => exact .inr (.inl ⟨x, xs, rfl⟩)
    | cons y ys =>
      by_cases heq : x = y
      · subst heq
        obtain rfl | ⟨z, rest, rfl⟩ | ⟨z, rest, rfl⟩ | ⟨p, y, z, rest, rest', hne, rfl, rfl⟩ :=
          ih ys
        · exact .inl rfl
        · exact .inr (.inl ⟨z, rest, rfl⟩)
        · exact .inr (.inr (.inl ⟨z, rest, rfl⟩))
        · exact .inr (.inr (.inr ⟨x :: p, y, z, rest, rest', hne, rfl, rfl⟩))
      · exact .inr (.inr (.inr ⟨[], x, y, xs, ys, heq, rfl, rfl⟩))

/-- If ties are alike, one of two courses goes on where the other one ends. -/
theorem Reached.prefixes (hs : Reached script frames messages ns s)
    (ht : Reached script frames messages ms t) (alike : TiesAlike ns ms) :
    ns <+: ms ∨ ms <+: ns := by
  obtain rfl | ⟨y, rest, rfl⟩ | ⟨z, rest, rfl⟩ | ⟨p, y, z, rest, rest', hne, rfl, rfl⟩ :=
    eq_or_parts ns ms
  · exact .inl (List.prefix_refl ns)
  · exact .inr (List.prefix_append _ _)
  · exact .inl (List.prefix_append _ _)
  · obtain ⟨u, u', -, hu, hy, step, -⟩ := hs.split
    obtain ⟨v, v', -, hv, hz, step', -⟩ := ht.split
    have hmeet : u.clock = v.clock := hu.clock_eq hv step step'
    exact absurd (alike p y z rest rest' rfl rfl (hy.symm.trans (hmeet.trans hz))) hne

/-- Until the same moment a course does not go on. -/
theorem Reached.eq_of_prefix (hs : Reached script frames messages ns s)
    (ht : Reached script frames messages ms t) (settled : s.Settled) (hclock : s.clock = t.clock)
    (hfront : ns <+: ms) : ns = ms := by
  obtain ⟨rest, rfl⟩ := hfront
  cases rest with
  | nil => rw [List.append_nil]
  | cons y rest => exact absurd hclock (Nat.ne_of_lt (hs.lt_of_extended settled ht))

theorem Reached.course_eq (hs : Reached script frames messages ns s)
    (ht : Reached script frames messages ms t) (settled : s.Settled) (settled' : t.Settled)
    (hclock : s.clock = t.clock) (alike : TiesAlike ns ms) : ns = ms := by
  obtain hfront | hfront := hs.prefixes ht alike
  · exact hs.eq_of_prefix ht settled hclock hfront
  · exact (ht.eq_of_prefix hs settled' hclock.symm hfront).symm

end Ties

end TokenWatch.Hub.Clocked
