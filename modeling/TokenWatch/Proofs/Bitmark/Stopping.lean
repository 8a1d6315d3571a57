import TokenWatch.Proofs.Bitmark.Step
import TokenWatch.Proofs.Run
import TokenWatch.Proofs.Shutdown

/-!
A Bitmark watcher that listens and was told to stop has a step that needs no notification until it
is over.
-/
namespace TokenWatch.Bitmark.Watcher

variable {w v : Watcher} {a : Action} {as : List Action}

/-- The steps of the two tasks for which the ledger's notifications are not needed. -/
def Action.Own : Action → Prop
  | .enqueue | .notice | .take | .handle | .close => True
  | _ => False

/-- A value `true` was seen or can still be seen, and the handling task ends last. -/
structure Attentive (w : Watcher) : Prop where
  told : w.shutdown.SeenOr (∃ result, w.receiver = .done result)
  closed : w.consumer = .done → ∃ result, w.receiver = .done result

theorem attentive_start : (start (.start false)).Attentive where
  told := Shutdown.seenOr_start _
  closed hdone := by cases hdone

/-- The receiving task goes on without a look at the shutdown channel. -/
theorem Attentive.receives (hw : w.Attentive) (going : ∀ result, w.receiver ≠ .done result)
    (same : (v.shutdown, v.consumer) = (w.shutdown, w.consumer)) : v.Attentive := by
  obtain ⟨hshutdown, hconsumer⟩ := Prod.mk.inj same
  constructor
  · rw [hshutdown]
    exact hw.told.of_not (not_exists.mpr going)
  · intro hdone
    obtain ⟨result, hr⟩ := hw.closed (hconsumer ▸ hdone)
    exact absurd hr (going result)

theorem Attentive.step (hw : w.Attentive) (h : w.step? a = some v) : v.Attentive := by
  cases a with
  | connect answer =>
    obtain ⟨hr, rfl⟩ := connect_cases h
    exact hw.receives (by simp [hr]) rfl
  | notice =>
    obtain ⟨hr, hready, rfl⟩ := notice_cases h
    constructor
    · exact Shutdown.seenOr_notice hready fun hstop => ⟨_, if_pos hstop⟩
    · intro hdone
      obtain ⟨result, hover⟩ := hw.closed hdone
      simp [hr] at hover
  | hear heard =>
    obtain ⟨hr, -, rfl⟩ := hear_cases h
    cases heard with
    | notification _ => exact hw.receives (by simp [hr]) rfl
    | lost => exact hw.receives (by simp [hr]) rfl
    | failed _ => exact hw.receives (by simp [hr]) rfl
  | enqueue =>
    obtain ⟨n, hr, -, rfl⟩ := enqueue_cases h
    exact hw.receives (by simp [hr]) rfl
  | take =>
    obtain ⟨n, rest, -, -, rfl⟩ := take_cases h
    exact ⟨hw.told, fun hdone => by cases hdone⟩
  | handle =>
    obtain ⟨n, -, rfl⟩ := handle_cases h
    exact ⟨hw.told, fun hdone => by cases hdone⟩
  | close =>
    obtain ⟨hr, -, -, rfl⟩ := close_cases h
    exact ⟨hw.told, fun _ => hr⟩
  | send value =>
    cases h
    exact ⟨Shutdown.seenOr_send _ _ _, hw.closed⟩
  | dropSender =>
    cases h
    exact ⟨hw.told, hw.closed⟩

theorem attentive_of_run (run : Run step? Anything (start (.start false)) as v) : v.Attentive :=
  run.preserves (fun _ _ _ hw _ h => hw.step h) attentive_start

def CanMove (w : Watcher) : Prop := ∃ a, a.Own ∧ (w.step? a).isSome = true

/-- The handling task can go on while it has something to do. -/
theorem canMove_of_busy (going : w.consumer ≠ .done) (busy : w.consumer = .idle → w.queue ≠ []) :
    w.CanMove := by
  cases hc : w.consumer with
  | idle =>
    obtain ⟨n, rest, hq⟩ := List.exists_cons_of_ne_nil (busy hc)
    exact ⟨.take, trivial, by simp [step?, hc, hq]⟩
  | handling n => exact ⟨.handle, trivial, by simp [step?, hc]⟩
  | done => exact absurd hc going

theorem Attentive.canMove (hw : w.Attentive) (started : w.receiver ≠ .connect)
    (stop : w.shutdown.value = true) (unfinished : w.result? = none) : w.CanMove := by
  have going : w.consumer ≠ .done := by
    intro hdone
    obtain ⟨result, hr⟩ := hw.closed hdone
    simp [result?, hr, hdone] at unfinished
  by_cases busy : w.consumer = .idle → w.queue ≠ []
  · exact canMove_of_busy going busy
  · obtain ⟨hc, hq⟩ : w.consumer = .idle ∧ w.queue = [] := by simpa using busy
    cases hr : w.receiver with
    | connect => exact absurd hr started
    | listen =>
      have hready : w.shutdown.IsReady := hw.told.isReady stop (by simp [hr])
      exact ⟨.notice, trivial, by simp [step?, hr, hready]⟩
    | sending n => exact ⟨.enqueue, trivial, by simp [step?, hr, hq, queueSlots]⟩
    | done result => exact ⟨.close, trivial, by simp [step?, hr, hc, hq]⟩

end TokenWatch.Bitmark.Watcher
