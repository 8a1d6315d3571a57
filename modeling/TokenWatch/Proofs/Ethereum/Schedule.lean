import TokenWatch.Proofs.Ethereum.Signals

/-!
When an Ethereum watcher calls for a subscription: at its start, at the end of the delay that the
schedule has for the number of waits since the last success, and at once when a change of the
shutdown channel ends a wait or a pending call.
-/
namespace TokenWatch.Ethereum.Watcher

variable {w v u : Watcher} {a : Action} {as bs : List Action} {retry : RetrySchedule} {value : Bool}
  {t due : Nat}

inductive Beat where
  /-- It called for a subscription. -/
  | called
  /-- It saw a change of the shutdown channel that does not mean to stop. -/
  | woken
  | stopped
deriving DecidableEq

def beats (w : Watcher) : Action → List (Nat × Beat)
  | .call => [(w.clock, .called)]
  | .notice => [(w.clock, if w.shutdown.notice.2 then .stopped else .woken)]
  | _ => []

def course (w : Watcher) (as : List Action) : List (Nat × Beat) := Run.noted step? beats w as

/-- The moments of the calls, newest first. -/
def callTimes (course : List (Nat × Beat)) : List Nat :=
  (course.filterMap fun (t, b) => if b = .called then some t else none).reverse

theorem callTimes_append (xs ys : List (Nat × Beat)) :
    callTimes (xs ++ ys) = callTimes ys ++ callTimes xs := by
  rw [callTimes, List.filterMap_append, List.reverse_append]
  rfl

theorem course_cons (step : w.step? a = some v) (as : List Action) :
    w.course (a :: as) = w.beats a ++ v.course as :=
  Run.noted_cons step as

namespace Action

/-- The end of a call or of a stream after which the task waits. -/
def Fails : Action → Prop
  | .subscribed (.error _) | .hear none => True
  | _ => False

def waits (n : Nat) : Action → Nat
  | .subscribed (.ok ()) => 0
  | .subscribed (.error _) | .hear none => n + 1
  | _ => n

def attempts (n : UInt32) : Action → UInt32
  | .subscribed (.ok ()) => 0
  | .subscribed (.error _) | .hear none => nextAttempt n
  | _ => n

def millis : Action → Nat
  | .elapse millis => millis
  | _ => 0

end Action

/-- How many waits there were since the last subscription that succeeded, or since the start. -/
def waits (as : List Action) : Nat := as.foldl Action.waits 0

section Pace

/-- Each step counts waits, moves the clock and calls as its action tells. -/
theorem pace_step (h : w.step? a = some v) :
    v.retry = w.retry ∧ v.attempt = a.attempts w.attempt ∧ v.clock = w.clock + a.millis ∧
      v.calls = callTimes (w.beats a) ++ w.calls := by
  cases a with
  | call =>
    obtain ⟨-, -, rfl⟩ := call_cases h
    exact ⟨rfl, rfl, rfl, rfl⟩
  | subscribed answer =>
    obtain ⟨-, -, rfl⟩ := subscribed_cases h
    cases answer <;> exact ⟨rfl, rfl, rfl, rfl⟩
  | hear log =>
    obtain ⟨-, -, rfl⟩ := hear_cases h
    cases log <;> exact ⟨rfl, rfl, rfl, rfl⟩
  | enqueue =>
    obtain ⟨log, -, -, rfl⟩ := enqueue_cases h
    exact ⟨rfl, rfl, rfl, rfl⟩
  | resubscribe =>
    obtain ⟨due, -, -, -, rfl⟩ := resubscribe_cases h
    exact ⟨rfl, rfl, rfl, rfl⟩
  | notice =>
    obtain ⟨-, -, rfl⟩ := notice_cases h
    refine ⟨rfl, rfl, rfl, ?_⟩
    simp only [beats]
    split <;> rfl
  | take =>
    obtain ⟨log, rest, -, -, rfl⟩ := take_cases h
    exact ⟨rfl, rfl, rfl, rfl⟩
  | handle =>
    obtain ⟨log, -, rfl⟩ := handle_cases h
    exact ⟨rfl, rfl, rfl, rfl⟩
  | close =>
    obtain ⟨-, -, -, rfl⟩ := close_cases h
    exact ⟨rfl, rfl, rfl, rfl⟩
  | elapse millis =>
    obtain ⟨-, rfl⟩ := elapse_cases h
    exact ⟨rfl, rfl, rfl, rfl⟩
  | send value | dropSender =>
    cases h
    exact ⟨rfl, rfl, rfl, rfl⟩

theorem calls_of_run (run : Run step? Anything w as v) :
    v.calls = callTimes (w.course as) ++ w.calls := by
  induction run with
  | nil => rfl
  | cons _ step _ ih =>
    obtain ⟨-, -, -, hcalls⟩ := pace_step step
    rw [course_cons step, callTimes_append, ih, hcalls, List.append_assoc]

def counted (n : Nat) : UInt32 := UInt32.ofNat (min n (UInt32.size - 1))

theorem toNat_counted (n : Nat) : (counted n).toNat = min n (UInt32.size - 1) := by
  have hlt : min n (UInt32.size - 1) < UInt32.size :=
    Nat.lt_of_le_of_lt (Nat.min_le_right _ _) (by decide)
  exact UInt32.toNat_ofNat_of_lt' hlt

theorem nextAttempt_counted (n : Nat) : nextAttempt (counted n) = counted (n + 1) := by
  have hsize : UInt32.size = 4294967296 := rfl
  apply UInt32.toNat_inj.mp
  unfold nextAttempt
  split
  · rename_i hlt
    rw [toNat_counted] at hlt
    rw [toNat_counted, UInt32.toNat_add, toNat_counted, UInt32.toNat_one]
    omega
  · rename_i hge
    rw [toNat_counted] at hge ⊢
    rw [toNat_counted]
    omega

theorem attempts_counted (a : Action) (n : Nat) : a.attempts (counted n) = counted (a.waits n) := by
  cases a with
  | subscribed answer =>
    cases answer with
    | ok _ => rfl
    | error _ => exact nextAttempt_counted n
  | hear log =>
    cases log with
    | some _ => rfl
    | none => exact nextAttempt_counted n
  | _ => rfl

/-- The task counts the waits of its run. -/
theorem attempt_of_run (run : Run step? Anything (start retry (.start value)) as w) :
    w.attempt = counted (waits as) ∧ w.retry = retry := by
  let P (as : List Action) (w : Watcher) : Prop := w.attempt = counted (waits as) ∧ w.retry = retry
  have hstart : P [] (start retry (.start value)) := ⟨rfl, rfl⟩
  refine run.preserves_along (P := P) ?_ hstart
  rintro as w a v ⟨hattempt, hretry⟩ _ step
  obtain ⟨hretry', hattempt', -⟩ := pace_step step
  refine ⟨?_, hretry'.trans hretry⟩
  rw [hattempt', hattempt, attempts_counted, waits, waits, List.foldl_append]
  rfl

end Pace

section Following

/-- What may follow where a call is to be made at the moment `t`: the call, unless the task is told
to stop. A change that is seen at that moment does not put it off. -/
inductive Prompt (t : Nat) (w : Watcher) : List (Nat × Beat) → Prop where
  | pending (ready : w.receiver = .ready) (now : w.clock = t) : Prompt t w []
  | called (later : List (Nat × Beat)) : Prompt t w ((t, .called) :: later)
  | woken {later : List (Nat × Beat)} (prompt : Prompt t w later) :
      Prompt t w ((t, .woken) :: later)
  | stopped : Prompt t w [(t, .stopped)]

/-- What may follow a wait that begins at the moment `t`: at the moment `due` a call, or one as soon
as a change is seen before that. -/
inductive Delayed (t due : Nat) (w : Watcher) : List (Nat × Beat) → Prop where
  | waiting (wait : w.receiver = .waiting due) (now : w.clock ≤ due) : Delayed t due w []
  | elapsed {later : List (Nat × Beat)} (prompt : Prompt due w later) : Delayed t due w later
  | woken {early : Nat} {later : List (Nat × Beat)} (after : t ≤ early) (before : early ≤ due)
      (prompt : Prompt early w later) : Delayed t due w ((early, .woken) :: later)
  | stopped {early : Nat} (after : t ≤ early) (before : early ≤ due) :
      Delayed t due w [(early, .stopped)]

theorem beats_of_not_receives (w : Watcher) (ha : ¬a.Receives) : w.beats a = [] := by
  cases a with
  | call | notice => exact absurd trivial ha
  | _ => rfl

/-- A task that is over does nothing more. -/
theorem course_of_done (run : Run step? Anything w as v) (hr : w.receiver = .done) :
    w.course as = [] := by
  induction run with
  | nil => rfl
  | @cons w u v a as _ step _ ih =>
    have ha := not_receives_of_done hr step
    obtain ⟨hreceiver, -⟩ := Prod.mk.inj (receiveSide_of_not_receives ha step)
    rw [course_cons step, beats_of_not_receives w ha, ih (hreceiver.trans hr)]
    rfl

/-- A look at the channel stops the task or wakes it. -/
theorem notice_beats (h : w.step? .notice = some v) :
    (w.shutdown.notice.2 = true ∧ v.receiver = .done ∧ w.beats .notice = [(w.clock, .stopped)]) ∨
    (w.shutdown.notice.2 = false ∧ v.receiver = w.receiver.wake ∧ v.clock = w.clock ∧
      w.beats .notice = [(w.clock, .woken)]) := by
  obtain ⟨-, -, rfl⟩ := notice_cases h
  cases hstop : w.shutdown.notice.2 with
  | true => exact .inl ⟨rfl, rfl, by simp only [beats, hstop, if_true]⟩
  | false => exact .inr ⟨rfl, rfl, rfl, by simp only [beats, hstop, Bool.false_eq_true, if_false]⟩

theorem receives_of_ready (h : w.step? a = some v) (ready : w.receiver = .ready)
    (ha : a.Receives) : a = .call ∨ a = .notice := by
  have hat : a.At .ready := ready ▸ at_of_step h
  cases a with
  | call => exact .inl rfl
  | notice => exact .inr rfl
  | subscribed answer | hear log => cases hat
  | enqueue | resubscribe =>
    obtain ⟨_, hat⟩ := hat
    cases hat
  | _ => cases ha

theorem receives_of_waiting (h : w.step? a = some v) (wait : w.receiver = .waiting due)
    (ha : a.Receives) : a = .resubscribe ∨ a = .notice := by
  have hat : a.At (.waiting due) := wait ▸ at_of_step h
  cases a with
  | resubscribe => exact .inl rfl
  | notice => exact .inr rfl
  | call | subscribed answer | hear log => cases hat
  | enqueue =>
    obtain ⟨_, hat⟩ := hat
    cases hat
  | _ => cases ha

/-- Where a call is to be made, time stands still until it is. -/
theorem prompt_of_ready (run : Run step? Anything w as v) (ready : w.receiver = .ready) :
    Prompt w.clock v (w.course as) := by
  induction run with
  | nil => exact .pending ready rfl
  | @cons w u v a as _ step rest ih =>
    rw [course_cons step]
    by_cases ha : a.Receives
    · rcases receives_of_ready step ready ha with rfl | rfl
      · exact .called _
      · rcases notice_beats step with ⟨-, hdone, hbeat⟩ | ⟨-, hwake, hclock, hbeat⟩
        · rw [hbeat, course_of_done rest hdone]
          exact .stopped
        · rw [hbeat]
          exact .woken (hclock ▸ ih (hwake.trans (congrArg Receiver.wake ready)))
    · obtain ⟨-, -, hclock, -⟩ := pace_step step
      have hstill : a.millis = 0 := by
        cases a with
        | elapse millis =>
          obtain ⟨hmay, -⟩ := elapse_cases step
          simp only [MayElapse, ready] at hmay
        | _ => rfl
      obtain ⟨hreceiver, -⟩ := Prod.mk.inj (receiveSide_of_not_receives ha step)
      rw [hstill, Nat.add_zero] at hclock
      rw [beats_of_not_receives w ha, ← hclock]
      exact ih (hreceiver.trans ready)

/-- A wait ends with its delay or with a change that is seen, and the call follows. -/
theorem delayed_of_waiting (run : Run step? Anything w as v) (wait : w.receiver = .waiting due)
    (begun : t ≤ w.clock) (now : w.clock ≤ due) : Delayed t due v (w.course as) := by
  induction run with
  | nil => exact .waiting wait now
  | @cons w u v a as _ step rest ih =>
    rw [course_cons step]
    by_cases ha : a.Receives
    · rcases receives_of_waiting step wait ha with rfl | rfl
      · obtain ⟨due', hr, -, hdue, rfl⟩ := resubscribe_cases step
        have hsame : due' = due := Receiver.waiting.inj (hr.symm.trans wait)
        have hend : w.clock = due := Nat.le_antisymm now (hsame ▸ hdue)
        exact .elapsed (hend ▸ prompt_of_ready rest rfl)
      · rcases notice_beats step with ⟨-, hdone, hbeat⟩ | ⟨-, hwake, hclock, hbeat⟩
        · rw [hbeat, course_of_done rest hdone]
          exact .stopped begun now
        · rw [hbeat]
          have hready : u.receiver = .ready := hwake.trans (congrArg Receiver.wake wait)
          exact .woken begun now (hclock ▸ prompt_of_ready rest hready)
    · obtain ⟨-, -, hclock, -⟩ := pace_step step
      have hwithin : w.clock + a.millis ≤ due := by
        cases a with
        | elapse millis =>
          obtain ⟨hmay, -⟩ := elapse_cases step
          simp only [MayElapse, wait] at hmay
          exact hmay.2
        | _ => exact now
      obtain ⟨hreceiver, -⟩ := Prod.mk.inj (receiveSide_of_not_receives ha step)
      rw [beats_of_not_receives w ha]
      refine ih (hreceiver.trans wait) ?_ ?_
      · omega
      · omega

/-- A call or a stream that ends otherwise than by a stop begins a wait. -/
theorem await_of_fails (h : u.step? a = some v) (fails : a.Fails) :
    v = u.await ∧ ¬u.shutdown.IsReady := by
  cases a with
  | subscribed answer =>
    obtain ⟨-, quiet, rfl⟩ := subscribed_cases h
    cases answer with
    | ok _ => cases fails
    | error _ => exact ⟨rfl, quiet⟩
  | hear log =>
    obtain ⟨-, quiet, rfl⟩ := hear_cases h
    cases log with
    | some _ => cases fails
    | none => exact ⟨rfl, quiet⟩
  | _ => cases fails

/-- A wait that nothing ends before lasts for its delay, and then the call is made. -/
theorem exists_call_of_await (w : Watcher) (quiet : ¬w.shutdown.IsReady) :
    let millis := w.retry.delay w.attempt
    ∃ x, Run step? Anything w.await [.elapse millis, .resubscribe, .call] x ∧
      x.calls = (w.clock + millis) :: w.calls := by
  intro millis
  let later : Watcher := { w.await with clock := w.clock + millis }
  have hmay : w.await.MayElapse millis := ⟨quiet, Nat.le_refl _⟩
  have helapse : w.await.step? (.elapse millis) = some later := if_pos hmay
  obtain ⟨x, run, -, hcalls⟩ :=
    @exists_call_of_due later (w.clock + millis) rfl quiet (Nat.le_refl _)
  exact ⟨x, .cons trivial helapse run, hcalls⟩

/-- A task that sees that it is to stop makes no call from then on. -/
theorem halts_of_stop (h : u.step? .notice = some v) (stop : u.shutdown.notice.2 = true)
    (after : Run step? Anything v bs w) : v.course bs = [] ∧ w.calls = v.calls := by
  obtain ⟨-, -, rfl⟩ := notice_cases h
  have hnone := course_of_done after (if_pos stop)
  have hcalls := calls_of_run after
  rw [hnone] at hcalls
  exact ⟨hnone, hcalls⟩

/-- A change that does not mean to stop leaves a task that listens as it is. -/
theorem listens_of_going (h : u.step? .notice = some v) (going : u.shutdown.notice.2 = false)
    (listen : u.receiver = .listen) : v = { u with shutdown := u.shutdown.notice.1 } := by
  obtain ⟨-, -, rfl⟩ := notice_cases h
  simp only [going, Bool.false_eq_true, if_false, listen, Receiver.wake]

theorem exists_call_of_ready (ready : w.receiver = .ready) (quiet : ¬w.shutdown.IsReady) :
    ∃ x, w.step? .call = some x ∧ x.calls = w.clock :: w.calls := by
  refine ⟨{ w with receiver := .calling, calls := w.clock :: w.calls }, ?_, rfl⟩
  simp only [step?, ready, if_neg quiet]

/-- Anywhere else it makes the task call at once. -/
theorem prompt_of_going (h : u.step? .notice = some v) (going : u.shutdown.notice.2 = false)
    (idle : u.receiver ≠ .listen) (after : Run step? Anything v bs w) :
    Prompt u.clock w (v.course bs) ∧
      (v.shutdown.senderGone = false →
        ∃ x, v.step? .call = some x ∧ x.calls = u.clock :: v.calls) := by
  obtain ⟨hheeds, -, rfl⟩ := notice_cases h
  have hwake : u.receiver.wake = .ready := by
    cases hr : u.receiver with
    | listen => exact absurd hr idle
    | sending log | done =>
      rw [hr] at hheeds
      cases hheeds
    | ready | calling | waiting due => rfl
  have hready : (if u.shutdown.notice.2 then Receiver.done else u.receiver.wake) = .ready := by
    rw [if_neg (Bool.eq_false_iff.mp going), hwake]
  refine ⟨prompt_of_ready after hready, fun sender => ?_⟩
  exact exists_call_of_ready hready
    (not_or.mpr ⟨Bool.false_ne_true, Bool.eq_false_iff.mp sender⟩)

end Following

/-- Where a call for a subscription fails or a stream ends, the next call comes after the delay
that the schedule has for the waits there were since the last success, or at once when a change is
seen before, and comes then if nothing else happens. A change that does not mean to stop is no
wait; where the task listens nothing comes of it, and anywhere else a call does, at once. Once the
task has seen that it is to stop it calls no more. From the start on all calls are made so. -/
theorem resubscribes_on_schedule
    (before : Run step? Anything (start retry (.start value)) as u) (step : u.step? a = some v)
    (after : Run step? Anything v bs w) :
    let delay := retry.delay (counted (waits as))
    (Prompt 0 u ((start retry (.start value)).course as) ∧
      u.calls = callTimes ((start retry (.start value)).course as)) ∧
    (a.Fails → waits (as ++ [a]) = waits as + 1 ∧
      Delayed u.clock (u.clock + delay) w (v.course bs) ∧
      ∃ x, Run step? Anything v [.elapse delay, .resubscribe, .call] x ∧
        x.calls = (u.clock + delay) :: v.calls) ∧
    (a = .notice → waits (as ++ [a]) = waits as ∧ v.attempt = u.attempt ∧ v.calls = u.calls ∧
      (u.shutdown.notice.2 = true → v.course bs = [] ∧ w.calls = v.calls) ∧
      (u.shutdown.notice.2 = false → u.receiver = .listen →
        v = { u with shutdown := u.shutdown.notice.1 }) ∧
      (u.shutdown.notice.2 = false → u.receiver ≠ .listen →
        Prompt u.clock w (v.course bs) ∧
          (v.shutdown.senderGone = false →
            ∃ x, v.step? .call = some x ∧ x.calls = u.clock :: v.calls))) := by
  intro delay
  obtain ⟨hattempt, hretry⟩ := attempt_of_run before
  have hcalls := calls_of_run before
  have hwaits : waits (as ++ [a]) = a.waits (waits as) := List.foldl_append
  refine ⟨⟨prompt_of_ready before rfl, ?_⟩, fun fails => ?_, ?_⟩
  · exact hcalls.trans (List.append_nil _)
  · have hcount : a.waits (waits as) = waits as + 1 := by
      unfold Action.Fails at fails
      split at fails
      · rfl
      · rfl
      · cases fails
    have hdelay : u.retry.delay u.attempt = delay := by rw [hattempt, hretry]
    obtain ⟨rfl, quiet⟩ := await_of_fails step fails
    rw [hwaits, ← hdelay]
    exact ⟨hcount, delayed_of_waiting after rfl (Nat.le_refl _) (Nat.le_add_right _ _),
      exists_call_of_await u quiet⟩
  · rintro rfl
    obtain ⟨-, hsame, -⟩ := pace_step step
    refine ⟨hwaits, hsame, ?_, fun stop => halts_of_stop step stop after,
      fun going listen => listens_of_going step going listen,
      fun going idle => prompt_of_going step going idle after⟩
    obtain ⟨-, -, rfl⟩ := notice_cases step
    rfl

/-- After a refusal, a wait that ends early and a call that is made anew, another refusal leads to
the second delay. -/
theorem resubscribes_on_schedule_after_two :
    let as : List Action := [.call, .subscribed (.error "refused"), .elapse 300, .send false,
      .notice, .call, .elapse 500, .send false, .notice, .call]
    ∃ u v x, Run step? Anything (start (.doubling 1000 60000) (.start false)) as u ∧
      u.step? (.subscribed (.error "refused")) = some v ∧ u.calls = [800, 300, 0] ∧
      Delayed 800 2800 v [] ∧ Run step? Anything v [.elapse 2000, .resubscribe, .call] x ∧
      x.calls = [2800, 800, 300, 0] := by
  intro as
  have before : Run step? Anything (start (.doubling 1000 60000) (.start false)) as _ :=
    .of_foldlM rfl
  obtain ⟨-, hfails, -⟩ :=
    resubscribes_on_schedule (a := .subscribed (.error "refused")) before rfl (.nil _)
  obtain ⟨-, hdelayed, x, run, hcalls⟩ := hfails trivial
  exact ⟨_, _, x, before, rfl, rfl, hdelayed, run, hcalls⟩

end TokenWatch.Ethereum.Watcher
