import TokenWatch.Proofs.Ethereum.Rounds
import TokenWatch.Proofs.Ethereum.Signals

/-!
Every log that an Ethereum watcher takes from its streams is handled once and in order, whatever
the node does and whenever the watcher is told to stop.
-/
namespace TokenWatch.Ethereum.Attended
open Watcher

variable {σ : Type} {around : Handler.Surroundings (StateM σ)} {script : Nat → Offer}
  {s t : Attended σ} {a : Action} {as bs : List Action} {world : σ} {retry : RetrySchedule}
  {value : Bool} {w : Watcher}

structure Kept (around : Handler.Surroundings (StateM σ)) (script : Nat → Offer) (world : σ)
    (s : Attended σ) : Prop where
  orderly : s.watcher.Orderly
  listening : Listening script s
  worked : Worked around world s

theorem kept_of_run
    (run : Run (act? around) (Scripted script) (start retry (.start value) world) as s) :
    Kept around script world s := by
  refine run.preserves (fun s a t hs ok step => ?_)
    ⟨orderly_start _ _, listening_start _ _ _ _, worked_start _ _ _⟩
  obtain ⟨w, hstep, ht⟩ := act_cases step
  have horderly : t.watcher.Orderly := by
    rw [ht]
    exact hs.orderly.step hstep
  exact ⟨horderly, hs.listening.step ok step, hs.worked.step step⟩

section Stopping

/-- Nothing is heard after the receiving task has ended. -/
theorem quiet_of_done (hr : s.watcher.receiver = .done) (step : act? around s a = some t) :
    t.watcher.receiver = .done ∧ t.rounds = s.rounds := by
  obtain ⟨w, hstep, rfl⟩ := act_cases step
  have ha : ¬a.Receives := not_receives_of_done hr hstep
  obtain ⟨hreceiver, -⟩ := Prod.mk.inj (receiveSide_of_not_receives ha hstep)
  exact ⟨hreceiver.trans hr, rounds_attend around s ha⟩

/-- The receiving task ended on a look at the shutdown channel, told to stop, and nothing was heard
after that. -/
def Stopped (around : Handler.Surroundings (StateM σ)) (script : Nat → Offer) (origin : Attended σ)
    (as : List Action) (s : Attended σ) : Prop :=
  ∃ before after u, as = before ++ .notice :: after ∧
    Run (act? around) (Scripted script) origin before u ∧ ToldToStop before ∧ u.rounds = s.rounds

/-- A watcher stops for no other reason. -/
structure Heeding (around : Handler.Surroundings (StateM σ)) (script : Nat → Offer)
    (origin : Attended σ) (as : List Action) (s : Attended σ) : Prop where
  run : Run (act? around) (Scripted script) origin as s
  signalled : Signalled as s.watcher.shutdown
  stopped : s.watcher.receiver = .done → Stopped around script origin as s

theorem Heeding.step {origin : Attended σ} (h : Heeding around script origin as s)
    (ok : Scripted script s a) (step : act? around s a = some t) :
    Heeding around script origin (as ++ [a]) t := by
  obtain ⟨w, hstep, ht⟩ := act_cases step
  have hw : t.watcher = w := by rw [ht]
  refine ⟨h.run.append (.single ok step), hw ▸ h.signalled.step hstep, fun hdone => ?_⟩
  by_cases hr : s.watcher.receiver = .done
  · obtain ⟨before, after, u, rfl, hrun, htold, hrounds⟩ := h.stopped hr
    obtain ⟨-, hsame⟩ := quiet_of_done hr step
    refine ⟨before, after ++ [a], u, ?_, hrun, htold, hrounds.trans hsame.symm⟩
    rw [List.append_assoc, List.cons_append]
  · obtain ⟨rfl, hstop⟩ := notice_of_done hstep hr (hw ▸ hdone)
    have hrounds : t.rounds = s.rounds := by
      rw [ht]
      rfl
    exact ⟨as, [], s, rfl, h.run, h.signalled.toldToStop hstop, hrounds.symm⟩

theorem heeding_of_run
    (run : Run (act? around) (Scripted script) (start retry (.start value) world) as s) :
    Heeding around script (start retry (.start value) world) as s := by
  have hstart : Heeding around script (start retry (.start value) world) []
    (start retry (.start value) world) := ⟨.nil _, signalled_start value, nofun⟩
  exact run.preserves_along (fun _ _ _ _ h ok step => Heeding.step h ok step) hstart

end Stopping

section Passing

theorem scripted_of_passes (s : Attended σ) (h : a.Passes) : Scripted script s a := by
  cases a with
  | enqueue | take | handle | close => trivial
  | _ => cases h

theorem rounds_of_passes (h : a.Passes) : (s.attend around a).rounds = s.rounds := by
  cases a with
  | enqueue | take | close => rfl
  | handle => exact rounds_work around s
  | _ => cases h

/-- What the watcher can do without the node it does with any handler. -/
theorem exists_run_of_passes (run : Run step? Anything s.watcher bs w)
    (passes : ∀ b ∈ bs, b.Passes) :
    ∃ t, Run (act? around) (Scripted script) s bs t ∧ t.watcher = w ∧ t.rounds = s.rounds := by
  induction bs generalizing s with
  | nil =>
    cases run
    exact ⟨s, .nil s, rfl, rfl⟩
  | cons b bs ih =>
    obtain ⟨hb, hbs⟩ := List.forall_mem_cons.mp passes
    cases run with
    | cons _ step rest =>
      obtain ⟨t, hrun, hw, hrounds⟩ := ih (s := { s.attend around b with watcher := _ }) rest hbs
      refine ⟨t, .cons (scripted_of_passes s hb) (act_of_step step) hrun, hw, ?_⟩
      exact hrounds.trans (rounds_of_passes hb)

end Passing

/-- An Ethereum watcher with any schedule of delays, any node, any cache, chain and sink, signals at
any time, and its two tasks in any order. Each call brings what the node has for it, and a stream
that was accepted is read to its end before the next call. The handled logs are those that were
heard, stream after stream, but for the ones still in hand, and each is handled in the world that
the handlings before it have left, whatever these came to. Everything in hand is handled without
help from the node, and both tasks are over only after that. The receiving task ends only when it
was told to stop, hears nothing more from then on, and after any failure comes to another call. -/
theorem every_log_handled_once
    (run : Run (act? around) (Scripted script) (start retry (.start value) world) as s) :
    (∀ k r, s.rounds.reverse[k]? = some r →
      (script k).Fits r ∧ (k + 1 < s.rounds.length → r.Over)) ∧
    s.watcher.handled.reverse ++ s.watcher.pending = heard s.rounds ∧
    (s.watcher.handled.reverse.mapM (Handler.handle around)).run world =
      (s.results.reverse, s.world) ∧
    (s.watcher.IsOver → s.watcher.handled.reverse = heard s.rounds) ∧
    (∃ bs t, (∀ b ∈ bs, b.Passes) ∧ Run (act? around) (Scripted script) s bs t ∧
      t.rounds = s.rounds ∧ t.watcher.handled.reverse = heard s.rounds ∧
      (s.watcher.receiver = .done → t.watcher.IsOver)) ∧
    (s.watcher.receiver = .done →
      Stopped around script (start retry (.start value) world) as s) ∧
    ∀ due, s.watcher.receiver = .waiting due → ¬s.watcher.shutdown.IsReady →
      ∃ bs w, Run step? Anything s.watcher bs w ∧ w.receiver = .calling := by
  have kept : Kept around script world s := kept_of_run run
  have hconserved : s.watcher.handled.reverse ++ s.watcher.pending = heard s.rounds :=
    kept.orderly.conserved.trans kept.listening.received
  refine ⟨fun k r => kept.listening.conversed.round, hconserved, kept.worked, fun ended => ?_, ?_,
    (heeding_of_run run).stopped, fun due => exists_call⟩
  · rwa [kept.orderly.pending_of_isOver ended, List.append_nil] at hconserved
  · obtain ⟨bs, w, passes, hrun, hdrained, hover⟩ := kept.orderly.exists_passed
    obtain ⟨t, hrun', rfl, hrounds⟩ := exists_run_of_passes hrun passes
    have kept' : Kept around script world t := kept_of_run (run.append hrun')
    have hall : t.watcher.handled.reverse ++ t.watcher.pending = heard t.rounds :=
      kept'.orderly.conserved.trans kept'.listening.received
    rw [hdrained, List.append_nil, hrounds] at hall
    exact ⟨bs, t, passes, hrun', hrounds, hall, hover⟩

/-- A call is refused; of the next stream one log is taken, and the watcher is told to stop while
the log waits for room in the queue. -/
theorem every_log_handled_once_stopped :
    let log : Log := ⟨0, [], [], none, none, none⟩
    let around : Handler.Surroundings (StateM Unit) :=
      { cached := fun _ => pure none, lookUp := fun _ => pure (.error .timeout)
        remember := fun _ _ => pure false, push := fun _ => pure (.ok ()) }
    let script : Nat → Offer
      | 0 => .refused "down"
      | 1 => .stream [log, log] true
      | _ => .hangs
    ∃ as s, Run (act? around) (Scripted script) (start ⟨1, 1, 1⟩ (.start false) ()) as s ∧
      s.watcher.IsOver ∧ s.watcher.handled.reverse = [log] ∧ heard s.rounds = [log] := by
  intro log around script
  have hnext : [log] <+: [log, log] := ⟨[log], rfl⟩
  have run : Run (act? around) (Scripted script) (start ⟨1, 1, 1⟩ (.start false) ())
      [.call, .subscribed (.error "down"), .elapse 1, .resubscribe, .call, .subscribed (.ok ()),
        .hear (some log), .send true, .enqueue, .notice, .take, .handle, .close] _ :=
    .cons trivial rfl <| .cons rfl rfl <| .cons trivial rfl <| .cons trivial rfl <|
    .cons trivial rfl <| .cons trivial rfl <| .cons hnext rfl <| .cons trivial rfl <|
    .cons trivial rfl <| .cons trivial rfl <| .cons trivial rfl <| .cons trivial rfl <|
    .single trivial rfl
  obtain ⟨-, -, -, hover, -⟩ := every_log_handled_once run
  have ended := hover ⟨rfl, rfl⟩
  exact ⟨_, _, run, ⟨rfl, rfl⟩, rfl, ended.symm⟩

end TokenWatch.Ethereum.Attended
