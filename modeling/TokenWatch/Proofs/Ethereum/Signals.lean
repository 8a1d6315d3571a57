import TokenWatch.Proofs.Ethereum.Step
import TokenWatch.Proofs.Run

/-!
The receiving task of an Ethereum watcher ends only when it was told to stop; after any failure it
calls again.
-/
namespace TokenWatch.Ethereum.Watcher

variable {w v : Watcher} {a : Action} {as : List Action}

def Action.sent? : Action → Option Bool
  | .send value => some value
  | _ => none

def lastSent? (as : List Action) : Option Bool := (as.filterMap Action.sent?).getLast?

/-- The last value sent was `true`, or nobody is left to send one. -/
def ToldToStop (as : List Action) : Prop := lastSent? as = some true ∨ .dropSender ∈ as

structure Signalled (as : List Action) (shutdown : Shutdown) : Prop where
  changed : shutdown.changed = true → lastSent? as = some shutdown.value
  gone : shutdown.senderGone = true → .dropSender ∈ as

theorem signalled_start (value : Bool) : Signalled [] (.start value) := ⟨nofun, nofun⟩

theorem lastSent?_append_of_none (h : a.sent? = none) : lastSent? (as ++ [a]) = lastSent? as := by
  simp [lastSent?, h]

theorem lastSent?_append_send (as : List Action) (value : Bool) :
    lastSent? (as ++ [.send value]) = some value := by
  simp [lastSent?, Action.sent?]

/-- An action that sends nothing; it may look at a change. -/
theorem Signalled.quiet {shutdown shutdown' : Shutdown} (h : Signalled as shutdown)
    (quiet : a.sent? = none) (changed : shutdown'.changed = true → shutdown.changed = true)
    (same : (shutdown'.value, shutdown'.senderGone) = (shutdown.value, shutdown.senderGone)) :
    Signalled (as ++ [a]) shutdown' := by
  obtain ⟨hvalue, hgone⟩ := Prod.mk.inj same
  constructor
  · intro hchanged
    rw [lastSent?_append_of_none quiet, hvalue]
    exact h.changed (changed hchanged)
  · intro hgone'
    exact List.mem_append_left _ (h.gone (hgone ▸ hgone'))

theorem Signalled.step (hw : Signalled as w.shutdown) (h : w.step? a = some v) :
    Signalled (as ++ [a]) v.shutdown := by
  cases a with
  | call =>
    obtain ⟨-, -, rfl⟩ := call_cases h
    exact hw.quiet rfl id rfl
  | subscribed answer =>
    obtain ⟨-, -, rfl⟩ := subscribed_cases h
    cases answer with
    | ok _ => exact hw.quiet rfl id rfl
    | error _ => exact hw.quiet rfl id rfl
  | hear log =>
    obtain ⟨-, -, rfl⟩ := hear_cases h
    cases log with
    | some _ => exact hw.quiet rfl id rfl
    | none => exact hw.quiet rfl id rfl
  | enqueue =>
    obtain ⟨log, -, -, rfl⟩ := enqueue_cases h
    exact hw.quiet rfl id rfl
  | resubscribe =>
    obtain ⟨due, -, -, -, rfl⟩ := resubscribe_cases h
    exact hw.quiet rfl id rfl
  | notice =>
    obtain ⟨-, -, rfl⟩ := notice_cases h
    exact hw.quiet rfl nofun rfl
  | take =>
    obtain ⟨log, rest, -, -, rfl⟩ := take_cases h
    exact hw.quiet rfl id rfl
  | handle =>
    obtain ⟨log, -, rfl⟩ := handle_cases h
    exact hw.quiet rfl id rfl
  | close =>
    obtain ⟨-, -, -, rfl⟩ := close_cases h
    exact hw.quiet rfl id rfl
  | elapse millis =>
    obtain ⟨-, rfl⟩ := elapse_cases h
    exact hw.quiet rfl id rfl
  | send value =>
    cases h
    exact ⟨fun _ => lastSent?_append_send as value,
      fun hgone => List.mem_append_left _ (hw.gone hgone)⟩
  | dropSender =>
    cases h
    refine ⟨fun hchanged => ?_, fun _ => List.mem_append_right _ (List.mem_singleton_self _)⟩
    rw [lastSent?_append_of_none rfl]
    exact hw.changed hchanged

theorem wake_ne_done {r : Receiver} (h : r ≠ .done) : r.wake ≠ .done := by
  cases r with
  | done => exact absurd rfl h
  | _ => exact nofun

/-- The receiving task ends only on a look at the shutdown channel. -/
theorem notice_of_done (h : w.step? a = some v) (going : w.receiver ≠ .done)
    (hdone : v.receiver = .done) : a = .notice ∧ w.shutdown.notice.2 = true := by
  by_cases ha : a.Receives
  · cases a with
    | notice =>
      obtain ⟨hheeds, -, rfl⟩ := notice_cases h
      refine ⟨rfl, ?_⟩
      cases hstop : w.shutdown.notice.2 with
      | true => rfl
      | false =>
        simp only [hstop, Bool.false_eq_true, if_false] at hdone
        exact absurd hdone (wake_ne_done going)
    | call =>
      obtain ⟨-, -, rfl⟩ := call_cases h
      cases hdone
    | subscribed answer =>
      obtain ⟨-, -, rfl⟩ := subscribed_cases h
      cases answer <;> cases hdone
    | hear log =>
      obtain ⟨-, -, rfl⟩ := hear_cases h
      cases log <;> cases hdone
    | enqueue =>
      obtain ⟨log, -, -, rfl⟩ := enqueue_cases h
      cases hdone
    | resubscribe =>
      obtain ⟨due, -, -, -, rfl⟩ := resubscribe_cases h
      cases hdone
    | _ => cases ha
  · obtain ⟨hreceiver, -⟩ := Prod.mk.inj (receiveSide_of_not_receives ha h)
    exact absurd (hreceiver.symm.trans hdone) going

theorem Signalled.toldToStop {shutdown : Shutdown} (h : Signalled as shutdown)
    (stop : shutdown.notice.2 = true) : ToldToStop as := by
  cases hchanged : shutdown.changed with
  | true =>
    have hvalue : shutdown.value = true := by simpa [Shutdown.notice, hchanged] using stop
    exact .inl (hvalue ▸ h.changed hchanged)
  | false =>
    have hgone : shutdown.senderGone = true := by simpa [Shutdown.notice, hchanged] using stop
    exact .inr (h.gone hgone)

theorem exists_call_of_due {due : Nat} (hr : w.receiver = .waiting due)
    (quiet : ¬w.shutdown.IsReady) (hdue : due ≤ w.clock) :
    ∃ v, Run step? Anything w [.resubscribe, .call] v ∧ v.receiver = .calling ∧
      v.calls = w.clock :: w.calls := by
  have hpast : ¬(w.shutdown.IsReady ∨ w.clock < due) := not_or.mpr ⟨quiet, Nat.not_lt.mpr hdue⟩
  have hready : w.step? .resubscribe = some { w with receiver := .ready } := by
    simp only [step?, hr, if_neg hpast]
  refine ⟨{ w with receiver := .calling, calls := w.clock :: w.calls }, ?_, rfl, rfl⟩
  exact .cons trivial hready (.single trivial (if_neg quiet))

/-- After a refusal or the end of a stream there is another call, in time. -/
theorem exists_call {due : Nat} (hr : w.receiver = .waiting due) (quiet : ¬w.shutdown.IsReady) :
    ∃ bs v, Run step? Anything w bs v ∧ v.receiver = .calling := by
  by_cases hdue : due ≤ w.clock
  · obtain ⟨v, hrun, hcalling, -⟩ := exists_call_of_due hr quiet hdue
    exact ⟨_, v, hrun, hcalling⟩
  · have hend : w.clock + (due - w.clock) = due := Nat.add_sub_cancel' (Nat.le_of_not_le hdue)
    have hmay : w.MayElapse (due - w.clock) := by
      unfold MayElapse
      rw [hr]
      exact ⟨quiet, Nat.le_of_eq hend⟩
    let u := { w with clock := w.clock + (due - w.clock) }
    have helapse : w.step? (.elapse (due - w.clock)) = some u := if_pos hmay
    have hu : u.receiver = .waiting due := hr
    obtain ⟨v, hrun, hcalling, -⟩ := exists_call_of_due hu quiet (Nat.le_of_eq hend.symm)
    exact ⟨_, v, .cons trivial helapse hrun, hcalling⟩

end TokenWatch.Ethereum.Watcher
