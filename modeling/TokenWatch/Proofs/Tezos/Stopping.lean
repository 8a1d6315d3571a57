import TokenWatch.Proofs.Shutdown
import TokenWatch.Proofs.Tezos.Delivery

/-!
A Tezos watcher that was told to stop. It has a step that needs no hub until it is over, except
that it does not look at the shutdown channel while it subscribes.
-/
namespace TokenWatch.Tezos.Watcher

variable {w v : Watcher} {a : Action} {as : List Action} {stored : Option String}

/-- The steps of the two tasks for which the hub is not needed. -/
def Action.Own : Action → Prop
  | .subscribe _ | .batch _ | .send _ | .dropSender => False
  | _ => True

/-- A value `true` was seen or can still be seen. -/
def Told (w : Watcher) : Prop := w.shutdown.SeenOr (∃ result, w.receiver = .done result)

section Receiving

@[simp] theorem shutdown_resume (w : Watcher) (after : Resume) :
    (w.resume after).shutdown = w.shutdown := by
  cases after <;> rfl

@[simp] theorem shutdown_nextLevel (w : Watcher) (level head : UInt64) (after : Resume) :
    (w.nextLevel level head after).shutdown = w.shutdown := by
  unfold nextLevel
  split
  · rfl
  · exact shutdown_resume w after

theorem shutdown_onHead (w : Watcher) (start : UInt64) (after : Resume)
    (answer : Except Http.Error UInt64) : (w.onHead start after answer).shutdown = w.shutdown := by
  unfold onHead
  split
  · split
    · rfl
    · exact shutdown_resume w after
  · exact shutdown_resume w after

theorem shutdown_onUpdates (w : Watcher) (level head : UInt64) (offset : UInt64) (after : Resume)
    (answer : Except Http.Error (List UpdateRecord)) :
    (w.onUpdates level head offset after answer).shutdown = w.shutdown := by
  unfold onUpdates
  split
  · dsimp only
    split
    · rfl
    · exact shutdown_nextLevel _ level head after
  · exact shutdown_nextLevel w level head after

theorem shutdown_onEvents (w : Watcher) (first : Bool) (events : List Event) :
    (w.onEvents first events).shutdown = w.shutdown := by
  unfold onEvents
  split <;> rfl

theorem shutdown_onBatch (w : Watcher) (answer : Except Hub.Error Batch) :
    (w.onBatch answer).shutdown = w.shutdown := by
  cases answer with
  | error e => rfl
  | ok batch =>
    cases batch with
    | ignored => rfl
    | transfers rs => exact shutdown_onEvents _ _ _
    | updates rs => exact shutdown_onEvents _ _ _

/-- Only a look at the shutdown channel changes what can be seen of it. -/
theorem shutdown_of_receives (ha : a.Receives) (hn : a ≠ .notice) (h : w.step? a = some v) :
    v.shutdown = w.shutdown := by
  cases a with
  | load answer =>
    obtain ⟨-, -, rfl⟩ := load_cases h
    rfl
  | head answer =>
    obtain ⟨-, start, after, -, rfl⟩ := head_cases h
    exact shutdown_onHead w start after answer
  | check =>
    obtain ⟨-, level, head, after, -, rfl⟩ := check_cases h
    rfl
  | transfersPage answer =>
    obtain ⟨-, level, head, offset, after, -, rfl⟩ := transfersPage_cases h
    cases answer <;> rfl
  | updatesPage answer =>
    obtain ⟨-, level, head, offset, after, -, rfl⟩ := updatesPage_cases h
    exact shutdown_onUpdates w level head offset after answer
  | subscribe answer =>
    obtain ⟨-, -, rfl⟩ := subscribe_cases h
    rfl
  | notice => exact absurd rfl hn
  | batch answer =>
    obtain ⟨-, -, rfl⟩ := batch_cases h
    exact shutdown_onBatch w answer
  | _ => exact ha.elim

theorem isReady_of_notice (h : w.step? .notice = some v) : w.shutdown.IsReady := by
  obtain ⟨-, h⟩ := receive?_of_step? h trivial
  simp only [receive?] at h
  split at h
  · split at h
    · assumption
    · cases h
  · cases h

end Receiving

/-- A change of the shutdown channel is looked at by nobody but the receiving task. -/
theorem shutdown_of_not_receives (ha : ¬a.Receives) (hs : ∀ value, a ≠ .send value)
    (h : w.step? a = some v) :
    v.shutdown.value = w.shutdown.value ∧ v.shutdown.changed = w.shutdown.changed := by
  cases a with
  | enqueue =>
    obtain ⟨e, rest, -, -, rfl⟩ := enqueue_cases h
    exact ⟨rfl, rfl⟩
  | take =>
    obtain ⟨e, rest, -, -, rfl⟩ := take_cases h
    exact ⟨rfl, rfl⟩
  | push answer =>
    obtain ⟨e, -, rfl⟩ := push_cases h
    rcases onPush_cases w e answer with ⟨level, -, -, hv⟩ | hv
    · rw [hv]
      exact ⟨rfl, rfl⟩
    · rw [hv]
      exact ⟨rfl, rfl⟩
  | store written =>
    obtain ⟨level, -, rfl⟩ := store_cases h
    exact ⟨rfl, rfl⟩
  | close =>
    obtain ⟨-, -, -, -, rfl⟩ := close_cases h
    exact ⟨rfl, rfl⟩
  | send value => exact absurd rfl (hs value)
  | dropSender =>
    cases h
    exact ⟨rfl, rfl⟩
  | _ => exact absurd trivial ha

theorem Told.step (hw : w.Told) (h : w.step? a = some v) : v.Told := by
  by_cases ha : a.Receives
  · have going : ¬∃ result, w.receiver = .done result := by
      rintro ⟨result, hr⟩
      have htakes := takes_of_receives ha h
      rw [hr] at htakes
      cases a <;> exact htakes.elim
    by_cases hn : a = .notice
    · subst hn
      have ready := isReady_of_notice h
      obtain ⟨-, -, rfl⟩ := notice_cases h
      exact Shutdown.seenOr_notice ready fun hstop => ⟨_, if_pos hstop⟩
    · unfold Told
      rw [shutdown_of_receives ha hn h]
      exact Shutdown.SeenOr.of_not hw going
  · by_cases hs : ∃ value, a = .send value
    · obtain ⟨value, rfl⟩ := hs
      cases h
      exact Shutdown.seenOr_send _ _ _
    · have hreceiver : v.receiver = w.receiver :=
        congrArg (·.1) (receiveSide_of_not_receives h ha)
      obtain ⟨hvalue, hchanged⟩ := shutdown_of_not_receives ha (not_exists.mp hs) h
      unfold Told Shutdown.SeenOr
      rw [hvalue, hchanged, hreceiver]
      exact hw

theorem told_of_run (run : Run step? Anything (start stored (.start false)) as v) : v.Told :=
  run.preserves (fun _ _ _ hw _ h => hw.step h) (Shutdown.seenOr_start _)

def CanMove (w : Watcher) : Prop := ∃ a, a.Own ∧ (w.step? a).isSome = true

/-- Everything is pushed and stored, and the hub was asked for the subscriptions. -/
structure AwaitsHub (w : Watcher) : Prop where
  receiver : w.receiver = .subscribe
  pending : w.pending = []
  queue : w.queue = []
  consumer : w.consumer = .idle

/-- Only the hub gets a watcher out of there. -/
theorem AwaitsHub.step (hw : w.AwaitsHub) (h : w.step? a = some v) :
    ¬a.Own ∧ ((∃ answer, a = .subscribe answer) ∨ v.AwaitsHub) := by
  obtain ⟨hr, hp, hq, hc⟩ := hw
  by_cases ha : a.Receives
  · have htakes := takes_of_receives ha h
    rw [hr] at htakes
    cases a with
    | subscribe answer => exact ⟨id, .inl ⟨answer, rfl⟩⟩
    | _ => exact htakes.elim
  · cases a with
    | enqueue =>
      obtain ⟨e, rest, hpending, -⟩ := enqueue_cases h
      simp [hp] at hpending
    | take =>
      obtain ⟨e, rest, -, hqueue, -⟩ := take_cases h
      simp [hq] at hqueue
    | push answer =>
      obtain ⟨e, hconsumer, -⟩ := push_cases h
      simp [hc] at hconsumer
    | store written =>
      obtain ⟨level, hconsumer, -⟩ := store_cases h
      simp [hc] at hconsumer
    | close =>
      obtain ⟨⟨result, hreceiver⟩, -⟩ := close_cases h
      simp [hr] at hreceiver
    | send value =>
      cases h
      exact ⟨id, .inr ⟨hr, hp, hq, hc⟩⟩
    | dropSender =>
      cases h
      exact ⟨id, .inr ⟨hr, hp, hq, hc⟩⟩
    | _ => exact absurd trivial ha

/-- The pushing task can go on while it has something to do. -/
theorem canMove_of_busy (going : w.consumer ≠ .done) (busy : w.consumer = .idle → w.queue ≠ []) :
    w.CanMove := by
  cases hc : w.consumer with
  | idle =>
    obtain ⟨e, rest, hq⟩ := List.exists_cons_of_ne_nil (busy hc)
    exact ⟨.take, trivial, by simp [step?, hc, hq]⟩
  | pushing e => exact ⟨.push (.ok ()), trivial, by simp [step?, hc]⟩
  | storing level => exact ⟨.store true, trivial, by simp [step?, hc]⟩
  | done => exact absurd hc going

theorem canMove_iff (hw : w.InOrder) (told : w.Told) (stop : w.shutdown.value = true)
    (unfinished : w.result? = none) : w.CanMove ↔ ¬w.AwaitsHub := by
  constructor
  · rintro ⟨a, hown, hstep⟩ hawaits
    obtain ⟨v, hv⟩ := Option.isSome_iff_exists.mp hstep
    exact (hawaits.step hv).1 hown
  · intro hawaits
    have going : w.consumer ≠ .done := by
      intro hdone
      obtain ⟨-, -, result, hr⟩ := hw.closed hdone
      simp [result?, hr, hdone] at unfinished
    by_cases busy : w.consumer = .idle → w.queue ≠ []
    · exact canMove_of_busy going busy
    · obtain ⟨hc, hq⟩ : w.consumer = .idle ∧ w.queue = [] := by simpa using busy
      cases hp : w.pending with
      | cons e rest => exact ⟨.enqueue, trivial, by simp [step?, hp, hq, queueSlots]⟩
      | nil =>
        cases hr : w.receiver with
        -- The store and the explorer answer; any answer will do.
        | load => exact ⟨.load none, trivial, by simp [step?, receive?, hp, hr]⟩
        | head start after =>
          exact ⟨.head (.ok start), trivial, by simp [step?, receive?, hp, hr]⟩
        | level level head after => exact ⟨.check, trivial, by simp [step?, receive?, hp, hr]⟩
        | transfers level head offset after =>
          exact ⟨.transfersPage (.ok []), trivial, by simp [step?, receive?, hp, hr]⟩
        | updates level head offset after =>
          exact ⟨.updatesPage (.ok []), trivial, by simp [step?, receive?, hp, hr]⟩
        | subscribe => exact absurd ⟨hr, hp, hq, hc⟩ hawaits
        | listen =>
          have hready : w.shutdown.IsReady := Shutdown.SeenOr.isReady told stop (by simp [hr])
          exact ⟨.notice, trivial, by simp [step?, receive?, hp, hr, hready]⟩
        | done result => exact ⟨.close, trivial, by simp [step?, hr, hp, hc, hq]⟩

end TokenWatch.Tezos.Watcher
