import TokenWatch.Ethereum.Watcher

/-!
What each action of the Ethereum watcher does.
-/
namespace TokenWatch.Ethereum.Watcher

variable {w v : Watcher}

section Receiving

theorem call_cases (h : w.step? .call = some v) :
    w.receiver = .ready ∧ ¬w.shutdown.IsReady ∧
      v = { w with receiver := .calling, calls := w.clock :: w.calls } := by
  simp only [step?] at h
  split at h
  · rename_i hr
    split at h
    · cases h
    · rename_i hquiet
      exact ⟨hr, hquiet, (Option.some.inj h).symm⟩
  · cases h

theorem subscribed_cases {answer : Except String Unit}
    (h : w.step? (.subscribed answer) = some v) :
    w.receiver = .calling ∧ ¬w.shutdown.IsReady ∧ v = w.onAnswer answer := by
  simp only [step?] at h
  split at h
  · rename_i hr
    split at h
    · cases h
    · rename_i hquiet
      exact ⟨hr, hquiet, (Option.some.inj h).symm⟩
  · cases h

theorem hear_cases {log : Option Log} (h : w.step? (.hear log) = some v) :
    w.receiver = .listen ∧ ¬w.shutdown.IsReady ∧ v = w.onHeard log := by
  simp only [step?] at h
  split at h
  · rename_i hr
    split at h
    · cases h
    · rename_i hquiet
      exact ⟨hr, hquiet, (Option.some.inj h).symm⟩
  · cases h

theorem enqueue_cases (h : w.step? .enqueue = some v) :
    ∃ log, w.receiver = .sending log ∧ w.queue.length < queueSlots ∧
      v = { w with receiver := .listen, queue := w.queue ++ [log] } := by
  simp only [step?] at h
  split at h
  · rename_i log hr
    split at h
    · rename_i hroom
      exact ⟨log, hr, hroom, (Option.some.inj h).symm⟩
    · cases h
  · cases h

theorem resubscribe_cases (h : w.step? .resubscribe = some v) :
    ∃ due, w.receiver = .waiting due ∧ ¬w.shutdown.IsReady ∧ due ≤ w.clock ∧
      v = { w with receiver := .ready } := by
  simp only [step?] at h
  split at h
  · rename_i due hr
    split at h
    · cases h
    · rename_i hdue
      obtain ⟨hquiet, hdue⟩ := not_or.mp hdue
      exact ⟨due, hr, hquiet, Nat.not_lt.mp hdue, (Option.some.inj h).symm⟩
  · cases h

theorem notice_cases (h : w.step? .notice = some v) :
    w.receiver.heeds = true ∧ w.shutdown.IsReady ∧
      v = { w with
        shutdown := w.shutdown.notice.1
        receiver := if w.shutdown.notice.2 then .done else w.receiver.wake } := by
  simp only [step?] at h
  split at h
  · rename_i hready
    exact ⟨hready.1, hready.2, (Option.some.inj h).symm⟩
  · cases h

end Receiving

section Handling

theorem take_cases (h : w.step? .take = some v) :
    ∃ log rest, w.consumer = .idle ∧ w.queue = log :: rest ∧
      v = { w with consumer := .handling log, queue := rest } := by
  simp only [step?] at h
  split at h
  · rename_i log rest hc hq
    exact ⟨log, rest, hc, hq, (Option.some.inj h).symm⟩
  · cases h

theorem handle_cases (h : w.step? .handle = some v) :
    ∃ log, w.consumer = .handling log ∧
      v = { w with consumer := .idle, handled := log :: w.handled } := by
  simp only [step?] at h
  split at h
  · rename_i log hc
    exact ⟨log, hc, (Option.some.inj h).symm⟩
  · cases h

theorem close_cases (h : w.step? .close = some v) :
    w.receiver = .done ∧ w.consumer = .idle ∧ w.queue = [] ∧
      v = { w with consumer := .done } := by
  simp only [step?] at h
  split at h
  · rename_i hr hc hq
    exact ⟨hr, hc, hq, (Option.some.inj h).symm⟩
  · cases h

end Handling

theorem elapse_cases {millis : Nat} (h : w.step? (.elapse millis) = some v) :
    w.MayElapse millis ∧ v = { w with clock := w.clock + millis } := by
  simp only [step?] at h
  split at h
  · rename_i hmay
    exact ⟨hmay, (Option.some.inj h).symm⟩
  · cases h

section Sides

def Action.Receives : Action → Prop
  | .call | .subscribed _ | .hear _ | .enqueue | .resubscribe | .notice => True
  | _ => False

/-- All other steps leave the receiving task where it is. -/
theorem receiveSide_of_not_receives {a : Action} (ha : ¬a.Receives) (h : w.step? a = some v) :
    (v.receiver, v.received) = (w.receiver, w.received) := by
  cases a with
  | take =>
    obtain ⟨log, rest, -, -, rfl⟩ := take_cases h
    rfl
  | handle =>
    obtain ⟨log, -, rfl⟩ := handle_cases h
    rfl
  | close =>
    obtain ⟨-, -, -, rfl⟩ := close_cases h
    rfl
  | elapse millis =>
    obtain ⟨-, rfl⟩ := elapse_cases h
    rfl
  | send value | dropSender =>
    cases h
    rfl
  | call | subscribed | hear | enqueue | resubscribe | notice => exact absurd trivial ha

def Action.At (r : Receiver) : Action → Prop
  | .call => r = .ready
  | .subscribed _ => r = .calling
  | .hear _ => r = .listen
  | .enqueue => ∃ log, r = .sending log
  | .resubscribe => ∃ due, r = .waiting due
  | .notice => r.heeds = true
  | _ => True

theorem at_of_step {a : Action} (h : w.step? a = some v) : a.At w.receiver := by
  cases a with
  | call => exact (call_cases h).1
  | subscribed answer => exact (subscribed_cases h).1
  | hear log => exact (hear_cases h).1
  | enqueue =>
    obtain ⟨log, hr, -⟩ := enqueue_cases h
    exact ⟨log, hr⟩
  | resubscribe =>
    obtain ⟨due, hr, -⟩ := resubscribe_cases h
    exact ⟨due, hr⟩
  | notice => exact (notice_cases h).1
  | _ => trivial

/-- A receiving task that is over takes no step. -/
theorem not_receives_of_done {a : Action} (hr : w.receiver = .done) (h : w.step? a = some v) :
    ¬a.Receives := by
  intro ha
  have hat : a.At .done := hr ▸ at_of_step h
  cases a with
  | call | subscribed answer | hear log | notice => cases hat
  | enqueue | resubscribe =>
    obtain ⟨_, hat⟩ := hat
    cases hat
  | _ => cases ha

end Sides

end TokenWatch.Ethereum.Watcher
