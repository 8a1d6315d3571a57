import TokenWatch.Proofs.Bitmark.Order
import TokenWatch.Proofs.Shutdown

/-!
What the receiving task of a Bitmark watcher hears, and what it ends for: word on the shutdown
channel or a failure of the listener, and not a lost connection.
-/
namespace TokenWatch.Bitmark
open Shutdown

def Heard.notification? : Heard → Option Notification
  | .notification n => some n
  | _ => none

namespace Watcher

def Action.heard? : Action → Option Heard
  | .hear h => some h
  | _ => none

def Action.signal? : Action → Option Signal
  | .send value => some (.sent value)
  | .dropSender => some .dropped
  | _ => none

def heard (as : List Action) : List Heard := as.filterMap Action.heard?

def notifications (as : List Action) : List Notification := (heard as).filterMap Heard.notification?

def signals (as : List Action) : List Signal := as.filterMap Action.signal?

variable {w v origin : Watcher} {a : Action} {as bs : List Action} {result : Except String Unit}

theorem heard_append (as bs : List Action) : heard (as ++ bs) = heard as ++ heard bs :=
  List.filterMap_append

theorem notifications_append (as bs : List Action) :
    notifications (as ++ bs) = notifications as ++ notifications bs := by
  rw [notifications, heard_append, List.filterMap_append]
  rfl

theorem signals_append (as bs : List Action) : signals (as ++ bs) = signals as ++ signals bs :=
  List.filterMap_append

theorem heard_of_none (h : a.heard? = none) : heard (as ++ [a]) = heard as := by
  simp [heard, h]

theorem heard_of_passes (h : ∀ b ∈ bs, b.Passes) : heard bs = [] := by
  refine List.filterMap_eq_nil_iff.mpr fun b hb => ?_
  have hpasses := h b hb
  cases b with
  | hear h => cases hpasses
  | _ => rfl

theorem notifications_of_passes (h : ∀ b ∈ bs, b.Passes) :
    notifications (as ++ bs) = notifications as := by
  rw [notifications, heard_append, heard_of_passes h, List.append_nil]
  rfl

inductive Ends (before : List Action) : Action → Except String Unit → Prop where
  | told (h : ToldToStop (signals before)) : Ends before .notice (.ok ())
  | failed (cause : String) : Ends before (.hear (.failed cause)) (.error cause)
  | refused (cause : String) : Ends before (.connect (.error cause)) (.error cause)

/-- The receiving task ended once, and the listener brought nothing after that. -/
def Ended (as : List Action) (result : Except String Unit) : Prop :=
  ∃ before a after, as = before ++ a :: after ∧ Ends before a result ∧ heard after = []

structure Listened (as : List Action) (w : Watcher) : Prop where
  shows : w.shutdown.Shows (signals as)
  received : w.received.reverse = notifications as
  ended : ∀ result, w.receiver = .done result → Ended as result
  going : ¬w.IsClosed → ∀ cause, .failed cause ∉ heard as

theorem listened_start (value : Bool) : Listened [] (start (.start value)) where
  shows := shows_start value
  received := rfl
  ended := nofun
  going _ _ := List.not_mem_nil

/-- An action that brings nothing leaves the receiving task as it is, or ends it. -/
theorem Listened.quiet (h : Listened as w) (none : a.heard? = none)
    (shows : v.shutdown.Shows (signals (as ++ [a]))) (received : v.received = w.received)
    (ended : ∀ result, v.receiver = .done result →
      w.receiver = .done result ∨ Ends as a result)
    (stays : w.IsClosed → v.IsClosed) : Listened (as ++ [a]) v where
  shows := shows
  received := by rw [received, h.received, notifications, notifications, heard_of_none none]
  ended result hdone := by
    rcases ended result hdone with hdone | hends
    · obtain ⟨before, b, after, rfl, hends, hnone⟩ := h.ended result hdone
      refine ⟨before, b, after ++ [a], List.append_assoc _ _ _, hends, ?_⟩
      rw [heard_of_none none, hnone]
    · exact ⟨as, a, [], rfl, hends, rfl⟩
  going hopen cause := by
    rw [heard_of_none none]
    exact h.going (fun hclosed => hopen (stays hclosed)) cause

theorem signals_of_none (h : a.signal? = none) : signals (as ++ [a]) = signals as := by
  simp [signals, h]

/-- An action of the handling task. -/
theorem Listened.aside (h : Listened as w) (none : a.heard? = none)
    (silent : a.signal? = Option.none)
    (same : (v.shutdown, v.received, v.receiver) = (w.shutdown, w.received, w.receiver)) :
    Listened (as ++ [a]) v := by
  obtain ⟨hshutdown, hreceived, hreceiver⟩ : v.shutdown = w.shutdown ∧ v.received = w.received ∧
      v.receiver = w.receiver := by simpa using same
  refine h.quiet none ?_ hreceived (fun result hdone => .inl (hreceiver ▸ hdone)) ?_
  · rw [signals_of_none silent, hshutdown]
    exact h.shows
  · rintro ⟨result, hdone⟩
    exact ⟨result, hreceiver.trans hdone⟩

theorem Listened.hear (h : Listened as w) (hr : w.receiver = .listen) (x : Heard) :
    Listened (as ++ [.hear x]) (w.onHeard x) := by
  have hopen : ¬w.IsClosed := not_isClosed (by simp [hr])
  have hheard : heard (as ++ [.hear x]) = heard as ++ [x] := heard_append as [.hear x]
  have hsignals : signals (as ++ [.hear x]) = signals as := signals_of_none rfl
  have hnotifications : notifications (as ++ [.hear x]) =
      notifications as ++ x.notification?.toList := by
    rw [notifications_append]
    cases x <;> rfl
  cases x with
  | notification n =>
    refine ⟨hsignals ▸ h.shows, ?_, nofun, fun _ cause hmem => ?_⟩
    · rw [hnotifications, ← h.received]
      exact List.reverse_cons
    · rw [hheard, List.mem_append] at hmem
      exact hmem.elim (h.going hopen cause) nofun
  | lost =>
    refine ⟨hsignals ▸ h.shows, ?_, fun result hdone => ?_, fun _ cause hmem => ?_⟩
    · rw [hnotifications, ← h.received]
      exact (List.append_nil _).symm
    · exact absurd ⟨result, hdone⟩ hopen
    · rw [hheard, List.mem_append] at hmem
      exact hmem.elim (h.going hopen cause) nofun
  | failed cause =>
    refine ⟨hsignals ▸ h.shows, ?_, ?_, fun hgoing => absurd ⟨_, rfl⟩ hgoing⟩
    · rw [hnotifications, ← h.received]
      exact (List.append_nil _).symm
    · rintro result ⟨⟩
      exact ⟨as, _, [], rfl, .failed cause, rfl⟩

theorem Listened.step (h : Listened as w) (step : w.step? a = some v) : Listened (as ++ [a]) v := by
  cases a with
  | connect answer =>
    obtain ⟨hr, rfl⟩ := connect_cases step
    have hopen : ¬w.IsClosed := not_isClosed (by simp [hr])
    have hshows : w.shutdown.Shows (signals (as ++ [.connect answer])) := by
      rw [signals_of_none rfl]
      exact h.shows
    refine h.quiet rfl hshows rfl (fun result hdone => ?_) fun hclosed => absurd hclosed hopen
    cases answer with
    | ok _ => cases hdone
    | error cause =>
      cases hdone
      exact .inr (.refused cause)
  | notice =>
    obtain ⟨hr, -, rfl⟩ := notice_cases step
    have hopen : ¬w.IsClosed := not_isClosed (by simp [hr])
    have hshows : w.shutdown.notice.1.Shows (signals (as ++ [.notice])) := by
      rw [signals_of_none rfl]
      exact h.shows.notice
    refine h.quiet rfl hshows rfl (fun result hdone => ?_) fun hclosed => absurd hclosed hopen
    cases hstop : w.shutdown.notice.2 with
    | true =>
      simp only [hstop, if_true] at hdone
      cases hdone
      exact .inr (.told (h.shows.toldToStop hstop))
    | false =>
      simp only [hstop, Bool.false_eq_true, if_false] at hdone
      cases hdone
  | hear x =>
    obtain ⟨hr, -, rfl⟩ := hear_cases step
    exact h.hear hr x
  | enqueue =>
    obtain ⟨n, hr, -, rfl⟩ := enqueue_cases step
    have hopen : ¬w.IsClosed := not_isClosed (by simp [hr])
    have hshows : w.shutdown.Shows (signals (as ++ [.enqueue])) := by
      rw [signals_of_none rfl]
      exact h.shows
    exact h.quiet rfl hshows rfl nofun fun hclosed => absurd hclosed hopen
  | take =>
    obtain ⟨n, rest, -, -, rfl⟩ := take_cases step
    exact h.aside rfl rfl rfl
  | handle =>
    obtain ⟨n, -, rfl⟩ := handle_cases step
    exact h.aside rfl rfl rfl
  | close =>
    obtain ⟨-, -, -, rfl⟩ := close_cases step
    exact h.aside rfl rfl rfl
  | send value =>
    cases step
    refine h.quiet rfl ?_ rfl (fun _ hdone => .inl hdone) id
    rw [signals_append]
    exact h.shows.send value
  | dropSender =>
    cases step
    refine h.quiet rfl ?_ rfl (fun _ hdone => .inl hdone) id
    rw [signals_append]
    exact h.shows.dropSender

end Watcher
end TokenWatch.Bitmark
