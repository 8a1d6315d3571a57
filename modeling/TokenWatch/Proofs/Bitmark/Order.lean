import TokenWatch.Proofs.Bitmark.Step
import TokenWatch.Proofs.Run

/-!
Notifications pass through a Bitmark watcher in the order in which they were received, and the
handling task is over only after the last of them.
-/
namespace TokenWatch.Bitmark

def Receiver.inHand : Receiver → List Notification
  | .sending n => [n]
  | _ => []

/-- The receiving task once there was room for what it has in hand. -/
def Receiver.passed : Receiver → Receiver
  | .sending _ => .listen
  | r => r

def Consumer.inHand : Consumer → List Notification
  | .handling n => [n]
  | _ => []

namespace Watcher

variable {w v : Watcher} {a : Action}

/-- What was received and is not yet handled, in order. -/
def pending (w : Watcher) : List Notification := w.consumer.inHand ++ w.queue ++ w.receiver.inHand

def IsClosed (w : Watcher) : Prop := ∃ result, w.receiver = .done result

section Conservation

/-- No notification is lost, doubled or overtaken, and the handling task does not end before the
other. -/
structure Orderly (w : Watcher) : Prop where
  conserved : w.handled.reverse ++ w.pending = w.received.reverse
  closed : w.consumer = .done → w.IsClosed ∧ w.queue = []

theorem orderly_start (shutdown : Shutdown) : (start shutdown).Orderly where
  conserved := rfl
  closed hdone := by cases hdone

/-- A step of the receiving task that brings no notification. -/
theorem Orderly.of_same (hw : w.Orderly)
    (same : (v.queue, v.consumer, v.received, v.handled) =
      (w.queue, w.consumer, w.received, w.handled))
    (hand : v.receiver.inHand = w.receiver.inHand) (stays : w.IsClosed → v.IsClosed) :
    v.Orderly := by
  obtain ⟨hqueue, hconsumer, hreceived, hhandled⟩ : v.queue = w.queue ∧ v.consumer = w.consumer ∧
      v.received = w.received ∧ v.handled = w.handled := by simpa using same
  constructor
  · rw [pending, hqueue, hconsumer, hreceived, hhandled, hand]
    exact hw.conserved
  · intro hdone
    obtain ⟨hclosed, hq⟩ := hw.closed (hconsumer ▸ hdone)
    exact ⟨stays hclosed, hqueue.trans hq⟩

theorem not_isClosed (h : ∀ result, w.receiver ≠ .done result) : ¬w.IsClosed :=
  not_exists.mpr h

theorem Orderly.hear (hw : w.Orderly) (hr : w.receiver = .listen) (h : Heard) :
    (w.onHeard h).Orderly := by
  have hopen : ¬w.IsClosed := not_isClosed (by simp [hr])
  cases h with
  | notification n =>
    have hconserved := hw.conserved
    constructor
    · simp only [pending, onHeard, hr, Receiver.inHand, List.reverse_cons, List.append_nil]
        at hconserved ⊢
      rw [← hconserved]
      simp only [List.append_assoc]
    · intro hdone
      exact absurd (hw.closed hdone).1 hopen
  | lost => exact hw
  | failed cause => exact hw.of_same rfl (by rw [hr]; rfl) fun hclosed => absurd hclosed hopen

theorem Orderly.step (hw : w.Orderly) (h : w.step? a = some v) : v.Orderly := by
  cases a with
  | connect answer =>
    obtain ⟨hr, rfl⟩ := connect_cases h
    have hopen : ¬w.IsClosed := not_isClosed (by simp [hr])
    cases answer with
    | ok _ => exact hw.of_same rfl (by rw [hr]; rfl) fun hclosed => absurd hclosed hopen
    | error _ => exact hw.of_same rfl (by rw [hr]; rfl) fun hclosed => absurd hclosed hopen
  | notice =>
    obtain ⟨hr, -, rfl⟩ := notice_cases h
    refine hw.of_same rfl ?_ fun hclosed => absurd hclosed (not_isClosed (by simp [hr]))
    rw [hr]
    dsimp only
    split <;> rfl
  | hear heard =>
    obtain ⟨hr, -, rfl⟩ := hear_cases h
    exact hw.hear hr heard
  | enqueue =>
    obtain ⟨n, hr, -, rfl⟩ := enqueue_cases h
    have hconserved := hw.conserved
    constructor
    · simpa only [pending, hr, Receiver.inHand, List.append_nil, List.append_assoc] using hconserved
    · intro hdone
      exact absurd (hw.closed hdone).1 (not_isClosed (by simp [hr]))
  | take =>
    obtain ⟨n, rest, hc, hq, rfl⟩ := take_cases h
    refine ⟨?_, fun hdone => by cases hdone⟩
    simpa only [pending, hc, hq, Consumer.inHand, List.nil_append, List.singleton_append,
      List.cons_append] using hw.conserved
  | handle =>
    obtain ⟨n, hc, rfl⟩ := handle_cases h
    refine ⟨?_, fun hdone => by cases hdone⟩
    simpa only [pending, hc, Consumer.inHand, List.nil_append, List.reverse_cons,
      List.append_assoc] using hw.conserved
  | close =>
    obtain ⟨hclosed, hc, hq, rfl⟩ := close_cases h
    refine ⟨?_, fun _ => ⟨hclosed, hq⟩⟩
    simpa only [pending, hc, Consumer.inHand] using hw.conserved
  | send value =>
    cases h
    exact hw.of_same rfl rfl id
  | dropSender =>
    cases h
    exact hw.of_same rfl rfl id

/-- Only handling adds to what was handled. -/
theorem handled_of_step (h : w.step? a = some v) (other : a ≠ .handle) :
    v.handled = w.handled := by
  cases a with
  | handle => exact absurd rfl other
  | connect answer =>
    obtain ⟨-, rfl⟩ := connect_cases h
    rfl
  | notice =>
    obtain ⟨-, -, rfl⟩ := notice_cases h
    rfl
  | hear heard =>
    obtain ⟨-, -, rfl⟩ := hear_cases h
    cases heard <;> rfl
  | enqueue =>
    obtain ⟨n, -, -, rfl⟩ := enqueue_cases h
    rfl
  | take =>
    obtain ⟨n, rest, -, -, rfl⟩ := take_cases h
    rfl
  | close =>
    obtain ⟨-, -, -, rfl⟩ := close_cases h
    rfl
  | send value =>
    cases h
    rfl
  | dropSender =>
    cases h
    rfl

/-- Once both tasks are over, everything received was handled. -/
theorem Orderly.pending_of_result? {result : Except String Unit} (hw : w.Orderly)
    (h : w.result? = some result) : w.pending = [] := by
  unfold result? at h
  split at h
  · rename_i hr hc
    obtain ⟨-, hq⟩ := hw.closed hc
    rw [pending, hr, hc, hq]
    rfl
  · cases h

end Conservation

section Draining

/-- The steps by which notifications pass on; they need neither the ledger nor a signal. -/
def Action.Passes : Action → Prop
  | .enqueue | .take | .handle | .close => True
  | _ => False

def backlog (w : Watcher) : Nat :=
  3 * w.receiver.inHand.length + 2 * w.queue.length + w.consumer.inHand.length

theorem exists_pass (unhandled : w.pending ≠ []) (going : w.consumer ≠ .done) :
    ∃ a v, a.Passes ∧ w.step? a = some v ∧ v.backlog < w.backlog ∧ v.consumer ≠ .done ∧
      (v.receiver.passed, v.shutdown) = (w.receiver.passed, w.shutdown) := by
  cases hc : w.consumer with
  | done => exact absurd hc going
  | handling n =>
    refine ⟨.handle, { w with consumer := .idle, handled := n :: w.handled }, trivial,
      by simp only [step?, hc], ?_, by rintro ⟨⟩, rfl⟩
    simp only [backlog, hc, Consumer.inHand, List.length_cons, List.length_nil]
    omega
  | idle =>
    cases hq : w.queue with
    | cons n rest =>
      refine ⟨.take, { w with consumer := .handling n, queue := rest }, trivial,
        by simp only [step?, hc, hq], ?_, by rintro ⟨⟩, rfl⟩
      simp only [backlog, hc, hq, Consumer.inHand, List.length_cons, List.length_nil]
      omega
    | nil =>
      cases hr : w.receiver with
      | sending n =>
        have hroom : w.queue.length < queueSlots := by
          rw [hq]
          decide
        refine ⟨.enqueue, { w with receiver := .listen, queue := w.queue ++ [n] }, trivial,
          by simp only [step?, hr, if_pos hroom], ?_, going, rfl⟩
        simp only [backlog, hr, Receiver.inHand, List.length_append, List.length_cons,
          List.length_nil]
        omega
      | _ => simp [pending, hc, hq, hr, Consumer.inHand, Receiver.inHand] at unhandled

/-- Without any help from outside, everything received is handled. -/
theorem exists_drained (going : w.consumer ≠ .done) :
    ∃ bs v, (∀ b ∈ bs, b.Passes) ∧ Run step? Anything w bs v ∧ v.pending = [] ∧
      v.consumer ≠ .done ∧ (v.receiver.passed, v.shutdown) = (w.receiver.passed, w.shutdown) := by
  induction hn : w.backlog using Nat.strongRecOn generalizing w with
  | ind n ih =>
    by_cases unhandled : w.pending = []
    · exact ⟨[], w, nofun, .nil w, unhandled, going, rfl⟩
    · obtain ⟨a, u, hpasses, hstep, hless, hgoing, hsame⟩ := exists_pass unhandled going
      obtain ⟨bs, v, hall, hrun, hdrained, hend, hkept⟩ := ih _ (hn ▸ hless) hgoing rfl
      exact ⟨a :: bs, v, List.forall_mem_cons.mpr ⟨hpasses, hall⟩, .cons trivial hstep hrun,
        hdrained, hend, hkept.trans hsame⟩

/-- The handling task can end when it is through and the receiving task is over. -/
theorem exists_close (closed : w.IsClosed) (drained : w.pending = []) (going : w.consumer ≠ .done) :
    ∃ v, w.step? .close = some v ∧ v.pending = [] ∧
      (v.receiver, v.shutdown, v.consumer) = (w.receiver, w.shutdown, .done) := by
  obtain ⟨result, hr⟩ := closed
  obtain ⟨hhand, hq, -⟩ : w.consumer.inHand = [] ∧ w.queue = [] ∧ w.receiver.inHand = [] := by
    simpa [pending] using drained
  have hc : w.consumer = .idle := by
    cases hc : w.consumer with
    | idle => rfl
    | handling n => simp [hc, Consumer.inHand] at hhand
    | done => exact absurd hc going
  refine ⟨{ w with consumer := .done }, by simp only [step?, hr, hc, hq], ?_, rfl⟩
  simp only [pending, hr, hq]
  rfl

/-- What a receiving task that is over came to. -/
theorem result?_of_done {result : Except String Unit} (hr : w.receiver = .done result)
    (hc : w.consumer = .done) : w.result? = some result := by
  simp only [result?, hr, hc]

/-- The handling task handles what was received, and ends if the receiving task is over. -/
theorem Orderly.exists_passed (hw : w.Orderly) :
    ∃ bs v, (∀ b ∈ bs, b.Passes) ∧ Run step? Anything w bs v ∧ v.pending = [] ∧
      (v.receiver.passed, v.shutdown) = (w.receiver.passed, w.shutdown) ∧
      ∀ result, w.receiver = .done result → v.result? = some result := by
  by_cases going : w.consumer = .done
  · obtain ⟨⟨result, hr⟩, hq⟩ := hw.closed going
    have hresult : w.result? = some result := result?_of_done hr going
    refine ⟨[], w, nofun, .nil w, hw.pending_of_result? hresult, rfl, fun other hother => ?_⟩
    exact result?_of_done hother going
  · obtain ⟨bs, v, hall, hrun, hdrained, hend, hsame⟩ := exists_drained going
    obtain ⟨hreceiver, -⟩ := Prod.mk.inj hsame
    cases hr : w.receiver with
    | done result =>
      have hdone : v.receiver = .done result := by
        rw [hr] at hreceiver
        cases hv : v.receiver with
        | done other => rwa [hv] at hreceiver
        | _ => rw [hv] at hreceiver; cases hreceiver
      obtain ⟨u, hclose, hnone, hkept⟩ := exists_close ⟨result, hdone⟩ hdrained hend
      obtain ⟨hur, hus, huc⟩ : u.receiver = v.receiver ∧ u.shutdown = v.shutdown ∧
          u.consumer = .done := by simpa using hkept
      refine ⟨bs ++ [.close], u, ?_, hrun.append (.single trivial hclose), hnone, ?_, ?_⟩
      · exact List.forall_mem_append.mpr ⟨hall, List.forall_mem_singleton.mpr trivial⟩
      · rw [hur, hus, hsame, hr]
      · rintro other ⟨⟩
        exact result?_of_done (hur.trans hdone) huc
    | _ =>
      rw [hr] at hsame
      exact ⟨bs, v, hall, hrun, hdrained, hsame, nofun⟩

/-- A watcher that listens, or waits for room to go on listening, hears what comes next unless there
is word on the shutdown channel. -/
theorem Orderly.exists_hear (hw : w.Orderly) (hr : w.receiver.passed = .listen)
    (quiet : ¬w.shutdown.IsReady) (h : Heard) :
    ∃ bs v, (∀ b ∈ bs, b.Passes) ∧ Run step? Anything w bs v ∧
      v.step? (.hear h) = some (v.onHeard h) := by
  obtain ⟨bs, v, hall, hrun, hdrained, hsame, -⟩ := hw.exists_passed
  obtain ⟨hreceiver, hshutdown⟩ := Prod.mk.inj hsame
  obtain ⟨-, -, hhand⟩ : v.consumer.inHand = [] ∧ v.queue = [] ∧ v.receiver.inHand = [] := by
    simpa [pending] using hdrained
  have hlisten : v.receiver = .listen := by
    cases hv : v.receiver with
    | listen => rfl
    | sending n => simp [hv, Receiver.inHand] at hhand
    | _ => rw [hv, hr] at hreceiver; cases hreceiver
  exact ⟨bs, v, hall, hrun, by simp only [step?, hlisten, hshutdown, if_neg quiet]⟩

end Draining

end Watcher
end TokenWatch.Bitmark
