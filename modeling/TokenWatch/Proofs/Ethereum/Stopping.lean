import TokenWatch.Proofs.Ethereum.Step
import TokenWatch.Proofs.Run
import TokenWatch.Proofs.Shutdown

/-!
An Ethereum watcher that was told to stop has a step of its own until it is over, whatever its node
does.
-/
namespace TokenWatch.Ethereum.Watcher

variable {w v : Watcher} {a : Action} {as : List Action} {retry : RetrySchedule}

/-- The steps of the two tasks for which the chain is not needed. -/
def Action.Own : Action → Prop
  | .call | .enqueue | .resubscribe | .notice | .take | .handle | .close => True
  | _ => False

/-- A value `true` was seen or can still be seen, and the handling task ends last. -/
structure Attentive (w : Watcher) : Prop where
  told : w.shutdown.SeenOr (w.receiver = .done)
  closed : w.consumer = .done → w.receiver = .done

theorem attentive_start (retry : RetrySchedule) : (start retry (.start false)).Attentive where
  told := Shutdown.seenOr_start _
  closed hdone := by cases hdone

/-- The receiving task goes on without a look at the shutdown channel. -/
theorem Attentive.receives (hw : w.Attentive) (going : w.receiver ≠ .done)
    (same : (v.shutdown, v.consumer) = (w.shutdown, w.consumer)) : v.Attentive := by
  obtain ⟨hshutdown, hconsumer⟩ := Prod.mk.inj same
  constructor
  · rw [hshutdown]
    exact hw.told.of_not going
  · intro hdone
    exact absurd (hw.closed (hconsumer ▸ hdone)) going

theorem Attentive.step (hw : w.Attentive) (h : w.step? a = some v) : v.Attentive := by
  cases a with
  | call =>
    obtain ⟨hr, -, rfl⟩ := call_cases h
    exact hw.receives (by simp [hr]) rfl
  | subscribed answer =>
    obtain ⟨hr, -, rfl⟩ := subscribed_cases h
    cases answer with
    | ok _ => exact hw.receives (by simp [hr]) rfl
    | error _ => exact hw.receives (by simp [hr]) rfl
  | hear log =>
    obtain ⟨hr, -, rfl⟩ := hear_cases h
    cases log with
    | some _ => exact hw.receives (by simp [hr]) rfl
    | none => exact hw.receives (by simp [hr]) rfl
  | enqueue =>
    obtain ⟨log, hr, -, rfl⟩ := enqueue_cases h
    exact hw.receives (by simp [hr]) rfl
  | resubscribe =>
    obtain ⟨due, hr, -, -, rfl⟩ := resubscribe_cases h
    exact hw.receives (by simp [hr]) rfl
  | notice =>
    obtain ⟨hheeds, hready, rfl⟩ := notice_cases h
    constructor
    · exact Shutdown.seenOr_notice hready fun hstop => if_pos hstop
    · intro hdone
      rw [hw.closed hdone] at hheeds
      cases hheeds
  | take =>
    obtain ⟨log, rest, -, -, rfl⟩ := take_cases h
    exact ⟨hw.told, fun hdone => by cases hdone⟩
  | handle =>
    obtain ⟨log, -, rfl⟩ := handle_cases h
    exact ⟨hw.told, fun hdone => by cases hdone⟩
  | close =>
    obtain ⟨hr, -, -, rfl⟩ := close_cases h
    exact ⟨hw.told, fun _ => hr⟩
  | elapse millis =>
    obtain ⟨-, rfl⟩ := elapse_cases h
    exact ⟨hw.told, hw.closed⟩
  | send value =>
    cases h
    exact ⟨Shutdown.seenOr_send _ _ _, hw.closed⟩
  | dropSender =>
    cases h
    exact ⟨hw.told, hw.closed⟩

theorem attentive_of_run (run : Run step? Anything (start retry (.start false)) as v) :
    v.Attentive :=
  run.preserves (fun _ _ _ hw _ h => hw.step h) (attentive_start retry)

def CanMove (w : Watcher) : Prop := ∃ a, a.Own ∧ (w.step? a).isSome = true

/-- The handling task can go on while it has something to do. -/
theorem canMove_of_busy (going : w.consumer ≠ .done) (busy : w.consumer = .idle → w.queue ≠ []) :
    w.CanMove := by
  cases hc : w.consumer with
  | idle =>
    obtain ⟨log, rest, hq⟩ := List.exists_cons_of_ne_nil (busy hc)
    exact ⟨.take, trivial, by simp [step?, hc, hq]⟩
  | handling log => exact ⟨.handle, trivial, by simp [step?, hc]⟩
  | done => exact absurd hc going

theorem Attentive.canMove (hw : w.Attentive) (stop : w.shutdown.value = true)
    (unfinished : ¬w.IsOver) : w.CanMove := by
  by_cases hheeds : w.receiver.heeds = true
  · have hready : w.shutdown.IsReady := by
      refine hw.told.isReady stop fun hr => ?_
      rw [hr] at hheeds
      cases hheeds
    exact ⟨.notice, trivial, by simp [step?, hheeds, hready]⟩
  · have going : w.consumer ≠ .done := fun hdone => unfinished ⟨hw.closed hdone, hdone⟩
    by_cases busy : w.consumer = .idle → w.queue ≠ []
    · exact canMove_of_busy going busy
    · obtain ⟨hc, hq⟩ : w.consumer = .idle ∧ w.queue = [] := by simpa using busy
      cases hr : w.receiver with
      | done => exact ⟨.close, trivial, by simp [step?, hr, hc, hq]⟩
      | sending log => exact ⟨.enqueue, trivial, by simp [step?, hr, hq, queueSlots]⟩
      | _ => simp [hr, Receiver.heeds] at hheeds

end TokenWatch.Ethereum.Watcher
