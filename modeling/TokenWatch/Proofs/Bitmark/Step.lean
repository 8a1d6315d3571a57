import TokenWatch.Bitmark.Watcher

/-!
What each action of the Bitmark watcher does.
-/
namespace TokenWatch.Bitmark.Watcher

variable {w v : Watcher}

section Receiving

def afterConnect : Except String Unit → Receiver
  | .ok () => .listen
  | .error cause => .done (.error cause)

theorem connect_cases {answer : Except String Unit} (h : w.step? (.connect answer) = some v) :
    w.receiver = .connect ∧ v = { w with receiver := afterConnect answer } := by
  simp only [step?] at h
  split at h
  · rename_i hr
    exact ⟨hr, (Option.some.inj h).symm⟩
  · rename_i hr
    exact ⟨hr, (Option.some.inj h).symm⟩
  · cases h

theorem notice_cases (h : w.step? .notice = some v) :
    w.receiver = .listen ∧ w.shutdown.IsReady ∧
      v = { w with
        shutdown := w.shutdown.notice.1
        receiver := if w.shutdown.notice.2 then .done (.ok ()) else .listen } := by
  simp only [step?] at h
  split at h
  · rename_i hr
    split at h
    · rename_i hready
      exact ⟨hr, hready, (Option.some.inj h).symm⟩
    · cases h
  · cases h

theorem hear_cases {heard : Heard} (h : w.step? (.hear heard) = some v) :
    w.receiver = .listen ∧ ¬w.shutdown.IsReady ∧ v = w.onHeard heard := by
  simp only [step?] at h
  split at h
  · rename_i hr
    split at h
    · cases h
    · rename_i hquiet
      exact ⟨hr, hquiet, (Option.some.inj h).symm⟩
  · cases h

theorem enqueue_cases (h : w.step? .enqueue = some v) :
    ∃ n, w.receiver = .sending n ∧ w.queue.length < queueSlots ∧
      v = { w with receiver := .listen, queue := w.queue ++ [n] } := by
  simp only [step?] at h
  split at h
  · rename_i n hr
    split at h
    · rename_i hroom
      exact ⟨n, hr, hroom, (Option.some.inj h).symm⟩
    · cases h
  · cases h

end Receiving

section Handling

theorem take_cases (h : w.step? .take = some v) :
    ∃ n rest, w.consumer = .idle ∧ w.queue = n :: rest ∧
      v = { w with consumer := .handling n, queue := rest } := by
  simp only [step?] at h
  split at h
  · rename_i n rest hc hq
    exact ⟨n, rest, hc, hq, (Option.some.inj h).symm⟩
  · cases h

theorem handle_cases (h : w.step? .handle = some v) :
    ∃ n, w.consumer = .handling n ∧
      v = { w with consumer := .idle, handled := n :: w.handled } := by
  simp only [step?] at h
  split at h
  · rename_i n hc
    exact ⟨n, hc, (Option.some.inj h).symm⟩
  · cases h

theorem close_cases (h : w.step? .close = some v) :
    (∃ result, w.receiver = .done result) ∧ w.consumer = .idle ∧ w.queue = [] ∧
      v = { w with consumer := .done } := by
  simp only [step?] at h
  split at h
  · rename_i result hr hc hq
    exact ⟨⟨result, hr⟩, hc, hq, (Option.some.inj h).symm⟩
  · cases h

end Handling

end TokenWatch.Bitmark.Watcher
