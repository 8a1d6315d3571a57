import TokenWatch.Proofs.Checkpoint
import TokenWatch.Proofs.Run
import TokenWatch.Proofs.Tezos.Records
import TokenWatch.Tezos.Watcher

/-!
What each action of the Tezos watcher does, and what its two tasks leave alone of each other.
-/
namespace TokenWatch.Tezos.Watcher

variable {w v : Watcher} {a : Action}

/-- The steps of the receiving task, apart from putting a pending event into the queue. -/
def Action.Receives : Action → Prop
  | .load _ | .head _ | .check | .transfersPage _ | .updatesPage _ | .subscribe _ | .notice
  | .batch _ => True
  | _ => False

/-- The receiving task goes on only when nothing is pending. -/
theorem receive?_of_step? (h : w.step? a = some v) (ha : a.Receives) :
    w.pending = [] ∧ w.receive? a = some v := by
  have hstep : w.step? a = if w.pending = [] then w.receive? a else none := by
    cases a <;> first | rfl | exact ha.elim
  rw [hstep] at h
  split at h
  · rename_i hp
    exact ⟨hp, h⟩
  · cases h

def Takes : Receiver → Action → Prop
  | .load, .load _ | .head _ _, .head _ | .level _ _ _, .check
  | .transfers _ _ _ _, .transfersPage _ | .updates _ _ _ _, .updatesPage _
  | .subscribe, .subscribe _ | .listen, .notice | .listen, .batch _ => True
  | _, _ => False

section Receiving

attribute [local simp] step? receive?

theorem takes_of_receives (ha : a.Receives) (h : w.step? a = some v) : Takes w.receiver a := by
  have hreceive := (receive?_of_step? h ha).2
  cases a <;> cases hr : w.receiver <;> first
    | trivial
    | exact ha.elim
    | simp [hr] at hreceive

def afterLoad : Option UInt64 → Receiver
  | some level => .head level .subscribe
  | none => .subscribe

def afterSubscribe : Except Hub.Error Unit → Receiver
  | .ok () => .listen
  | .error e => .done (.error e)

theorem load_cases {answer : Option (Option String)} (h : w.step? (.load answer) = some v) :
    w.pending = [] ∧ w.receiver = .load ∧
      v = { w with
        watermark := (w.watermark.load answer).1
        receiver := afterLoad (w.watermark.load answer).2 } := by
  obtain ⟨hp, h⟩ := receive?_of_step? h trivial
  simp only [receive?] at h
  split at h
  · rename_i hr
    exact ⟨hp, hr, (Option.some.inj h).symm⟩
  · cases h

theorem load_of_receives (hr : w.receiver = .load) (ha : a.Receives) (h : w.step? a = some v) :
    ∃ answer, a = .load answer ∧ w.pending = [] ∧
      v = { w with
        watermark := (w.watermark.load answer).1
        receiver := afterLoad (w.watermark.load answer).2 } := by
  have htakes := takes_of_receives ha h
  rw [hr] at htakes
  cases a with
  | load answer =>
    obtain ⟨hp, -, hv⟩ := load_cases h
    exact ⟨answer, rfl, hp, hv⟩
  | _ => exact htakes.elim

theorem head_cases {answer : Except Http.Error UInt64} (h : w.step? (.head answer) = some v) :
    w.pending = [] ∧ ∃ start after, w.receiver = .head start after ∧
      v = w.onHead start after answer := by
  obtain ⟨hp, h⟩ := receive?_of_step? h trivial
  simp only [receive?] at h
  split at h
  · rename_i start after hr
    exact ⟨hp, start, after, hr, (Option.some.inj h).symm⟩
  · cases h

theorem check_cases (h : w.step? .check = some v) :
    w.pending = [] ∧ ∃ level head after, w.receiver = .level level head after ∧
      v = { w with
        receiver :=
          if w.shutdown.value then .done (.ok ()) else .transfers level head 0 after } := by
  obtain ⟨hp, h⟩ := receive?_of_step? h trivial
  simp only [receive?] at h
  split at h
  · rename_i level head after hr
    exact ⟨hp, level, head, after, hr, (Option.some.inj h).symm⟩
  · cases h

theorem transfersPage_cases {answer : Except Http.Error (List TransferRecord)}
    (h : w.step? (.transfersPage answer) = some v) :
    w.pending = [] ∧ ∃ level head offset after,
      w.receiver = .transfers level head offset after ∧
      v = w.onTransfers level head offset after answer := by
  obtain ⟨hp, h⟩ := receive?_of_step? h trivial
  simp only [receive?] at h
  split at h
  · rename_i level head offset after hr
    exact ⟨hp, level, head, offset, after, hr, (Option.some.inj h).symm⟩
  · cases h

theorem updatesPage_cases {answer : Except Http.Error (List UpdateRecord)}
    (h : w.step? (.updatesPage answer) = some v) :
    w.pending = [] ∧ ∃ level head offset after,
      w.receiver = .updates level head offset after ∧
      v = w.onUpdates level head offset after answer := by
  obtain ⟨hp, h⟩ := receive?_of_step? h trivial
  simp only [receive?] at h
  split at h
  · rename_i level head offset after hr
    exact ⟨hp, level, head, offset, after, hr, (Option.some.inj h).symm⟩
  · cases h

theorem subscribe_cases {answer : Except Hub.Error Unit}
    (h : w.step? (.subscribe answer) = some v) :
    w.pending = [] ∧ w.receiver = .subscribe ∧
      v = { w with receiver := afterSubscribe answer } := by
  obtain ⟨hp, h⟩ := receive?_of_step? h trivial
  simp only [receive?] at h
  split at h
  · rename_i hr _
    exact ⟨hp, hr, (Option.some.inj h).symm⟩
  · rename_i hr _
    exact ⟨hp, hr, (Option.some.inj h).symm⟩
  · cases h

theorem notice_cases (h : w.step? .notice = some v) :
    w.pending = [] ∧ w.receiver = .listen ∧
      v = { w with
        shutdown := w.shutdown.notice.1
        receiver := if w.shutdown.notice.2 then .done (.ok ()) else .listen } := by
  obtain ⟨hp, h⟩ := receive?_of_step? h trivial
  simp only [receive?] at h
  split at h
  · rename_i hr
    split at h
    · exact ⟨hp, hr, (Option.some.inj h).symm⟩
    · cases h
  · cases h

theorem batch_cases {answer : Except Hub.Error Batch} (h : w.step? (.batch answer) = some v) :
    w.pending = [] ∧ w.receiver = .listen ∧ v = w.onBatch answer := by
  obtain ⟨hp, h⟩ := receive?_of_step? h trivial
  simp only [receive?] at h
  split at h
  · rename_i hr
    split at h
    · cases h
    · exact ⟨hp, hr, (Option.some.inj h).symm⟩
  · cases h

end Receiving

section Queue

theorem enqueue_cases (h : w.step? .enqueue = some v) :
    ∃ e rest, w.pending = e :: rest ∧ w.queue.length < queueSlots ∧
      v = { w with
        pending := rest, queue := w.queue ++ [e], enqueued := e :: w.enqueued } := by
  simp only [step?] at h
  split at h
  · rename_i e rest hp
    split at h
    · rename_i hq
      exact ⟨e, rest, hp, hq, (Option.some.inj h).symm⟩
    · cases h
  · cases h

theorem take_cases (h : w.step? .take = some v) :
    ∃ e rest, w.consumer = .idle ∧ w.queue = e :: rest ∧
      v = { w with consumer := .pushing e, queue := rest } := by
  simp only [step?] at h
  split at h
  · rename_i e rest hc hq
    exact ⟨e, rest, hc, hq, (Option.some.inj h).symm⟩
  · cases h

theorem push_cases {answer : PushResult} (h : w.step? (.push answer) = some v) :
    ∃ e, w.consumer = .pushing e ∧ v = w.onPush e answer := by
  simp only [step?] at h
  split at h
  · rename_i e hc
    exact ⟨e, hc, (Option.some.inj h).symm⟩
  · cases h

theorem store_cases {written : Bool} (h : w.step? (.store written) = some v) :
    ∃ level, w.consumer = .storing level ∧
      v = { w with
        consumer := .idle
        stored := if written then some (Checkpoint.toText level) else w.stored } := by
  simp only [step?] at h
  split at h
  · rename_i level hc
    exact ⟨level, hc, (Option.some.inj h).symm⟩
  · cases h

theorem close_cases (h : w.step? .close = some v) :
    (∃ result, w.receiver = .done result) ∧ w.pending = [] ∧ w.consumer = .idle ∧
      w.queue = [] ∧ v = { w with consumer := .done } := by
  simp only [step?] at h
  split at h
  · rename_i result hr hp hc hq
    exact ⟨⟨result, hr⟩, hp, hc, hq, (Option.some.inj h).symm⟩
  · cases h

/-- An accepted push of an event above the watermark raises it; any other only counts as pushed. -/
theorem onPush_cases (w : Watcher) (e : Event) (answer : PushResult) :
    (∃ level, e.level = some level ∧ w.watermark.current < level ∧
      w.onPush e answer =
        { w with
          pushes := (e, answer) :: w.pushes, watermark := ⟨level⟩, consumer := .storing level }) ∨
    w.onPush e answer = { w with pushes := (e, answer) :: w.pushes, consumer := .idle } := by
  unfold onPush
  split
  · rename_i level hl
    by_cases hlt : w.watermark.current < level
    · exact .inl ⟨level, hl, hlt, by simp [Watermark.raise_of_lt hlt]⟩
    · exact .inr (by simp [Watermark.raise_of_not_lt hlt])
  · exact .inr rfl

end Queue

section Frame

def fresh (w : Watcher) : Channel → Bool
  | .transfers => w.firstTransfers
  | .updates => w.firstUpdates

@[simp] theorem fresh_mk (w : Watcher) (receiver : Receiver) (pending queue : List Event)
    (consumer : Consumer) (watermark : Watermark) (shutdown : Shutdown) (stored : Option String)
    (enqueued : List Event) (pushes : List (Event × PushResult)) :
    fresh ⟨receiver, pending, w.firstTransfers, w.firstUpdates, queue, consumer, watermark,
      shutdown, stored, enqueued, pushes⟩ = w.fresh := by
  funext c
  cases c <;> rfl

def seen (w : Watcher) : Channel → Watcher
  | .transfers => { w with firstTransfers := false }
  | .updates => { w with firstUpdates := false }

def pushSide (w : Watcher) :
    List Event × Consumer × Watermark × Option String × List Event ×
      List (Event × PushResult) :=
  (w.queue, w.consumer, w.watermark, w.stored, w.enqueued, w.pushes)

def kept (w : Watcher) :
    (Channel → Bool) × Bool × List Event × Consumer × Watermark × Option String × List Event ×
      List (Event × PushResult) :=
  (w.fresh, w.shutdown.value, w.pushSide)

@[simp] theorem fresh_seen (w : Watcher) (channel : Channel) :
    (w.seen channel).fresh = without w.fresh channel := by
  funext c
  cases channel <;> cases c <;> simp [seen, fresh, without]

@[simp] theorem receiver_seen (w : Watcher) (channel : Channel) :
    (w.seen channel).receiver = w.receiver := by
  cases channel <;> rfl

@[simp] theorem pending_seen (w : Watcher) (channel : Channel) :
    (w.seen channel).pending = w.pending := by
  cases channel <;> rfl

@[simp] theorem watermark_seen (w : Watcher) (channel : Channel) :
    (w.seen channel).watermark = w.watermark := by
  cases channel <;> rfl

@[simp] theorem pushSide_seen (w : Watcher) (channel : Channel) :
    (w.seen channel).pushSide = w.pushSide := by
  cases channel <;> rfl

theorem onBatch_of_ignored (w : Watcher) {batch : Batch} (h : batch.channel? = none) :
    w.onBatch (.ok batch) = w := by
  cases batch with
  | ignored => rfl
  | _ => cases h

theorem onBatch_of_channel (w : Watcher) {batch : Batch} {channel : Channel}
    (h : batch.channel? = some channel) :
    w.onBatch (.ok batch) = (w.seen channel).onEvents (w.fresh channel) batch.events := by
  cases batch with
  | ignored => cases h
  | _ => cases h; rfl

@[simp] theorem kept_resume (w : Watcher) (after : Resume) : (w.resume after).kept = w.kept := by
  cases after <;> rfl

@[simp] theorem kept_nextLevel (w : Watcher) (level head : UInt64) (after : Resume) :
    (w.nextLevel level head after).kept = w.kept := by
  unfold nextLevel
  split
  · rfl
  · exact kept_resume w after

theorem kept_onHead (w : Watcher) (start : UInt64) (after : Resume)
    (answer : Except Http.Error UInt64) : (w.onHead start after answer).kept = w.kept := by
  unfold onHead
  split
  · split
    · rfl
    · exact kept_resume w after
  · exact kept_resume w after

theorem kept_onTransfers (w : Watcher) (level head : UInt64) (offset : UInt64) (after : Resume)
    (answer : Except Http.Error (List TransferRecord)) :
    (w.onTransfers level head offset after answer).kept = w.kept := by
  cases answer <;> rfl

theorem kept_onUpdates (w : Watcher) (level head : UInt64) (offset : UInt64) (after : Resume)
    (answer : Except Http.Error (List UpdateRecord)) :
    (w.onUpdates level head offset after answer).kept = w.kept := by
  unfold onUpdates
  split
  · dsimp only
    split
    · rfl
    · exact kept_nextLevel _ level head after
  · exact kept_nextLevel w level head after

@[simp] theorem kept_onEvents (w : Watcher) (first : Bool) (events : List Event) :
    (w.onEvents first events).kept = w.kept := by
  unfold onEvents
  split <;> rfl

/-- Only the start and the batches change which channels are fresh, or move the watermark. -/
theorem kept_of_receives (ha : a.Receives) (hr : w.receiver ≠ .load)
    (hb : ∀ answer, a ≠ .batch answer) (h : w.step? a = some v) : v.kept = w.kept := by
  cases a with
  | load answer =>
    obtain ⟨-, hload, -⟩ := load_cases h
    exact absurd hload hr
  | head answer =>
    obtain ⟨-, start, after, -, rfl⟩ := head_cases h
    exact kept_onHead w start after answer
  | check =>
    obtain ⟨-, level, head, after, -, rfl⟩ := check_cases h
    rfl
  | transfersPage answer =>
    obtain ⟨-, level, head, offset, after, -, rfl⟩ := transfersPage_cases h
    exact kept_onTransfers w level head offset after answer
  | updatesPage answer =>
    obtain ⟨-, level, head, offset, after, -, rfl⟩ := updatesPage_cases h
    exact kept_onUpdates w level head offset after answer
  | subscribe answer =>
    obtain ⟨-, -, rfl⟩ := subscribe_cases h
    rfl
  | notice =>
    obtain ⟨-, -, rfl⟩ := notice_cases h
    rfl
  | batch answer => exact absurd rfl (hb answer)
  | _ => exact ha.elim

theorem pushSide_onBatch (w : Watcher) (answer : Except Hub.Error Batch) :
    (w.onBatch answer).pushSide = w.pushSide := by
  cases answer with
  | error e => rfl
  | ok batch =>
    cases hchannel : batch.channel? with
    | none => rw [onBatch_of_ignored w hchannel]
    | some channel =>
      rw [onBatch_of_channel w hchannel]
      have hkept := kept_onEvents (w.seen channel) (w.fresh channel) batch.events
      exact (congrArg (·.2.2) hkept).trans (pushSide_seen w channel)

/-- After the start the receiving task leaves the queue and the pushing task alone. -/
theorem pushSide_of_receives (ha : a.Receives) (hr : w.receiver ≠ .load)
    (h : w.step? a = some v) : v.pushSide = w.pushSide := by
  by_cases hb : ∃ answer, a = .batch answer
  · obtain ⟨answer, rfl⟩ := hb
    obtain ⟨-, -, rfl⟩ := batch_cases h
    exact pushSide_onBatch w answer
  · have hkept := kept_of_receives ha hr (fun answer heq => hb ⟨answer, heq⟩) h
    exact congrArg (·.2.2) hkept

end Frame

end TokenWatch.Tezos.Watcher
