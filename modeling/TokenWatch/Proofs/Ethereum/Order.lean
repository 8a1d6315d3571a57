import TokenWatch.Proofs.Ethereum.Step
import TokenWatch.Proofs.Run

/-!
Logs pass through an Ethereum watcher in the order in which they were received, and the handling
task is over only after the last of them.
-/
namespace TokenWatch.Ethereum

def Receiver.inHand : Receiver → List Log
  | .sending log => [log]
  | _ => []

theorem Receiver.inHand_of_heeds {r : Receiver} (h : r.heeds = true) : r.inHand = [] := by
  cases r with
  | sending log => cases h
  | _ => rfl

theorem Receiver.inHand_wake (r : Receiver) : r.wake.inHand = r.inHand := by
  cases r <;> rfl

def Consumer.inHand : Consumer → List Log
  | .handling log => [log]
  | _ => []

namespace Watcher

variable {w v : Watcher} {a : Action}

/-- What was received and is not yet handled, in order. -/
def pending (w : Watcher) : List Log := w.consumer.inHand ++ w.queue ++ w.receiver.inHand

section Conservation

/-- No log is lost, doubled or overtaken, and the handling task does not end before the other. -/
structure Orderly (w : Watcher) : Prop where
  conserved : w.handled.reverse ++ w.pending = w.received.reverse
  closed : w.consumer = .done → w.receiver = .done ∧ w.queue = []

theorem orderly_start (retry : RetrySchedule) (shutdown : Shutdown) :
    (start retry shutdown).Orderly where
  conserved := rfl
  closed hdone := by cases hdone

/-- A step that has nothing to do with logs. -/
theorem Orderly.of_same (hw : w.Orderly)
    (same : (v.queue, v.consumer, v.received, v.handled) =
      (w.queue, w.consumer, w.received, w.handled))
    (hand : v.receiver.inHand = w.receiver.inHand)
    (stays : w.receiver = .done → v.receiver = .done) : v.Orderly := by
  obtain ⟨hqueue, hconsumer, hreceived, hhandled⟩ : v.queue = w.queue ∧ v.consumer = w.consumer ∧
      v.received = w.received ∧ v.handled = w.handled := by simpa using same
  constructor
  · rw [pending, hqueue, hconsumer, hreceived, hhandled, hand]
    exact hw.conserved
  · intro hdone
    obtain ⟨hr, hq⟩ := hw.closed (hconsumer ▸ hdone)
    exact ⟨stays hr, hqueue.trans hq⟩

theorem Orderly.hear {log : Option Log} (hw : w.Orderly) (hr : w.receiver = .listen) :
    (w.onHeard log).Orderly := by
  cases log with
  | none => exact hw.of_same rfl (by rw [hr]; rfl) (by simp [hr])
  | some log =>
    have hconserved := hw.conserved
    constructor
    · simp only [pending, onHeard, hr, Receiver.inHand, List.reverse_cons, List.append_nil]
        at hconserved ⊢
      rw [← hconserved]
      simp only [List.append_assoc]
    · intro hdone
      rw [(hw.closed hdone).1] at hr
      cases hr

theorem Orderly.step (hw : w.Orderly) (h : w.step? a = some v) : v.Orderly := by
  cases a with
  | call =>
    obtain ⟨hr, -, rfl⟩ := call_cases h
    exact hw.of_same rfl (by rw [hr]; rfl) (by simp [hr])
  | subscribed answer =>
    obtain ⟨hr, -, rfl⟩ := subscribed_cases h
    cases answer with
    | ok _ => exact hw.of_same rfl (by rw [hr]; rfl) (by simp [hr])
    | error _ => exact hw.of_same rfl (by rw [hr]; rfl) (by simp [hr])
  | hear log =>
    obtain ⟨hr, -, rfl⟩ := hear_cases h
    exact hw.hear hr
  | enqueue =>
    obtain ⟨log, hr, -, rfl⟩ := enqueue_cases h
    have hconserved := hw.conserved
    constructor
    · simpa only [pending, hr, Receiver.inHand, List.append_nil, List.append_assoc] using hconserved
    · intro hdone
      rw [(hw.closed hdone).1] at hr
      cases hr
  | resubscribe =>
    obtain ⟨due, hr, -, -, rfl⟩ := resubscribe_cases h
    exact hw.of_same rfl (by rw [hr]; rfl) (by simp [hr])
  | notice =>
    obtain ⟨hheeds, -, rfl⟩ := notice_cases h
    refine hw.of_same rfl ?_ fun hr => ?_
    · dsimp only
      split
      · exact (Receiver.inHand_of_heeds hheeds).symm
      · exact Receiver.inHand_wake _
    · rw [hr] at hheeds
      cases hheeds
  | take =>
    obtain ⟨log, rest, hc, hq, rfl⟩ := take_cases h
    refine ⟨?_, fun hdone => by cases hdone⟩
    simpa only [pending, hc, hq, Consumer.inHand, List.nil_append, List.singleton_append,
      List.cons_append] using hw.conserved
  | handle =>
    obtain ⟨log, hc, rfl⟩ := handle_cases h
    refine ⟨?_, fun hdone => by cases hdone⟩
    simpa only [pending, hc, Consumer.inHand, List.nil_append, List.reverse_cons,
      List.append_assoc] using hw.conserved
  | close =>
    obtain ⟨hr, hc, hq, rfl⟩ := close_cases h
    refine ⟨?_, fun _ => ⟨hr, hq⟩⟩
    simpa only [pending, hc, Consumer.inHand] using hw.conserved
  | elapse millis =>
    obtain ⟨-, rfl⟩ := elapse_cases h
    exact hw.of_same rfl rfl id
  | send value =>
    cases h
    exact hw.of_same rfl rfl id
  | dropSender =>
    cases h
    exact hw.of_same rfl rfl id

/-- Once both tasks are over, everything received was handled. -/
theorem Orderly.pending_of_isOver (hw : w.Orderly) (ended : w.IsOver) : w.pending = [] := by
  obtain ⟨hr, hc⟩ := ended
  obtain ⟨-, hq⟩ := hw.closed hc
  rw [pending, hr, hc, hq]
  rfl

end Conservation

section Draining

/-- The steps by which logs pass on; they need neither the node nor the clock. -/
def Action.Passes : Action → Prop
  | .enqueue | .take | .handle | .close => True
  | _ => False

def backlog (w : Watcher) : Nat :=
  3 * w.receiver.inHand.length + 2 * w.queue.length + w.consumer.inHand.length

theorem exists_pass (unhandled : w.pending ≠ []) (going : w.consumer ≠ .done) :
    ∃ a v, a.Passes ∧ w.step? a = some v ∧ v.backlog < w.backlog ∧ v.consumer ≠ .done ∧
      (w.receiver = .done → v.receiver = .done) := by
  cases hc : w.consumer with
  | done => exact absurd hc going
  | handling log =>
    refine ⟨.handle, { w with consumer := .idle, handled := log :: w.handled }, trivial,
      by simp only [step?, hc], ?_, ?_, id⟩
    · simp only [backlog, hc, Consumer.inHand, List.length_cons, List.length_nil]
      omega
    · intro hdone
      cases hdone
  | idle =>
    cases hq : w.queue with
    | cons log rest =>
      refine ⟨.take, { w with consumer := .handling log, queue := rest }, trivial,
        by simp only [step?, hc, hq], ?_, ?_, id⟩
      · simp only [backlog, hc, hq, Consumer.inHand, List.length_cons, List.length_nil]
        omega
      · intro hdone
        cases hdone
    | nil =>
      cases hr : w.receiver with
      | sending log =>
        have hroom : w.queue.length < queueSlots := by
          rw [hq]
          decide
        refine ⟨.enqueue, { w with receiver := .listen, queue := w.queue ++ [log] }, trivial,
          by simp only [step?, hr, if_pos hroom], ?_, going, ?_⟩
        · simp only [backlog, hr, Receiver.inHand, List.length_append, List.length_cons,
            List.length_nil]
          omega
        · intro hdone
          cases hdone
      | _ => simp [pending, hc, hq, hr, Consumer.inHand, Receiver.inHand] at unhandled

/-- Without any help from outside, everything received is handled. -/
theorem exists_drained (going : w.consumer ≠ .done) :
    ∃ bs v, (∀ b ∈ bs, b.Passes) ∧ Run step? Anything w bs v ∧ v.pending = [] ∧
      v.consumer ≠ .done ∧ (w.receiver = .done → v.receiver = .done) := by
  induction hn : w.backlog using Nat.strongRecOn generalizing w with
  | ind n ih =>
    by_cases unhandled : w.pending = []
    · exact ⟨[], w, nofun, .nil w, unhandled, going, id⟩
    · obtain ⟨a, u, hpasses, hstep, hless, hgoing, hstays⟩ := exists_pass unhandled going
      obtain ⟨bs, v, hall, hrun, hdrained, hend, hdone⟩ := ih _ (hn ▸ hless) hgoing rfl
      exact ⟨a :: bs, v, List.forall_mem_cons.mpr ⟨hpasses, hall⟩, .cons trivial hstep hrun,
        hdrained, hend, hdone ∘ hstays⟩

/-- The handling task can end when it is through and the receiving task is over. -/
theorem exists_close (hr : w.receiver = .done) (drained : w.pending = [])
    (going : w.consumer ≠ .done) : ∃ v, w.step? .close = some v ∧ v.pending = [] ∧ v.IsOver := by
  obtain ⟨hhand, hq, -⟩ : w.consumer.inHand = [] ∧ w.queue = [] ∧ w.receiver.inHand = [] := by
    simpa [pending] using drained
  have hc : w.consumer = .idle := by
    cases hc : w.consumer with
    | idle => rfl
    | handling log => simp [hc, Consumer.inHand] at hhand
    | done => exact absurd hc going
  refine ⟨{ w with consumer := .done }, by simp only [step?, hr, hc, hq], ?_, hr, rfl⟩
  simp only [pending, hr, hq]
  rfl

/-- Once the receiving task is over, the handling task handles the rest and ends. -/
theorem Orderly.exists_passed (hw : w.Orderly) :
    ∃ bs v, (∀ b ∈ bs, b.Passes) ∧ Run step? Anything w bs v ∧ v.pending = [] ∧
      (w.receiver = .done → v.IsOver) := by
  by_cases going : w.consumer = .done
  · obtain ⟨hr, hq⟩ := hw.closed going
    exact ⟨[], w, nofun, .nil w, hw.pending_of_isOver ⟨hr, going⟩, fun _ => ⟨hr, going⟩⟩
  · obtain ⟨bs, v, hall, hrun, hdrained, hend, hdone⟩ := exists_drained going
    by_cases hr : w.receiver = .done
    · obtain ⟨u, hclose, hnone, hover⟩ := exists_close (hdone hr) hdrained hend
      refine ⟨bs ++ [.close], u, ?_, hrun.append (.single trivial hclose), hnone, fun _ => hover⟩
      exact List.forall_mem_append.mpr ⟨hall, List.forall_mem_singleton.mpr trivial⟩
    · exact ⟨bs, v, hall, hrun, hdrained, fun hr' => absurd hr' hr⟩

end Draining

end Watcher
end TokenWatch.Ethereum
