import TokenWatch.Proofs.Tezos.Step

/-!
The queue between the two tasks of the Tezos watcher. What the receiving task puts in line is
pushed once each and in order, and the watcher returns when all of it was pushed.
-/
namespace TokenWatch.Tezos.Watcher

variable {w v : Watcher} {a : Action} {as : List Action} {allowed : Watcher → Action → Prop}

/-- The events that the receiving task has produced so far, in order. -/
def inLine (w : Watcher) : List Event := w.enqueued.reverse ++ w.pending

/-- The events whose push was answered, in order. -/
def handed (w : Watcher) : List Event := w.pushes.reverse.map Prod.fst

def inHand (w : Watcher) : List Event :=
  match w.consumer with
  | .pushing e => [e]
  | _ => []

def receiveSide (w : Watcher) : Receiver × Bool × Bool × List Event :=
  (w.receiver, w.firstTransfers, w.firstUpdates, w.inLine)

@[simp] theorem receiveSide_onPush (w : Watcher) (e : Event) (answer : PushResult) :
    (w.onPush e answer).receiveSide = w.receiveSide := by
  rcases onPush_cases w e answer with ⟨level, -, -, h⟩ | h <;> rw [h] <;> rfl

/-- Queue, pushing task and shutdown channel do not change what is in line, nor what comes next. -/
theorem receiveSide_of_not_receives (h : w.step? a = some v) (ha : ¬a.Receives) :
    v.receiveSide = w.receiveSide := by
  cases a with
  | enqueue =>
    obtain ⟨e, rest, hp, -, rfl⟩ := enqueue_cases h
    simp [receiveSide, inLine, hp]
  | take =>
    obtain ⟨e, rest, -, -, rfl⟩ := take_cases h
    rfl
  | push answer =>
    obtain ⟨e, -, rfl⟩ := push_cases h
    exact receiveSide_onPush w e answer
  | store written =>
    obtain ⟨level, -, rfl⟩ := store_cases h
    rfl
  | close =>
    obtain ⟨-, -, -, -, rfl⟩ := close_cases h
    rfl
  | send value =>
    cases h
    rfl
  | dropSender =>
    cases h
    rfl
  | _ => exact absurd trivial ha

/-- What has left the line is pushed, being pushed or in the queue, each event once and in order. -/
structure InOrder (w : Watcher) : Prop where
  order : w.handed ++ w.inHand ++ w.queue = w.enqueued.reverse
  bounded : w.queue.length ≤ queueSlots
  /-- The pushing task ends last. -/
  closed : w.consumer = .done → w.pending = [] ∧ w.queue = [] ∧ ∃ result, w.receiver = .done result

theorem inOrder_start (stored : Option String) (shutdown : Shutdown) :
    (start stored shutdown).InOrder :=
  ⟨rfl, Nat.zero_le _, fun h => by cases h⟩

theorem inLine_of_receives (h : w.step? a = some v) (ha : a.Receives) :
    w.pending = [] ∧ v.inLine = w.inLine ++ v.pending := by
  have hp := (receive?_of_step? h ha).1
  have henqueued : v.enqueued = w.enqueued := by
    by_cases hr : w.receiver = .load
    · obtain ⟨answer, -, -, rfl⟩ := load_of_receives hr ha h
      rfl
    · have hside := pushSide_of_receives ha hr h
      simp only [pushSide, Prod.mk.injEq] at hside
      exact hside.2.2.2.2.1
  refine ⟨hp, ?_⟩
  rw [inLine, inLine, hp, henqueued, List.append_nil]

theorem InOrder.receives (hw : w.InOrder) (h : w.step? a = some v) (ha : a.Receives) :
    v.InOrder := by
  have hopen : w.consumer ≠ .done := by
    intro hdone
    obtain ⟨-, -, result, hr⟩ := hw.closed hdone
    have htakes := takes_of_receives ha h
    rw [hr] at htakes
    cases a <;> exact htakes.elim
  by_cases hr : w.receiver = .load
  · obtain ⟨answer, -, -, rfl⟩ := load_of_receives hr ha h
    exact ⟨hw.order, hw.bounded, fun hdone => absurd hdone hopen⟩
  · have hside := pushSide_of_receives ha hr h
    simp only [pushSide, Prod.mk.injEq] at hside
    obtain ⟨hqueue, hconsumer, -, -, henqueued, hpushes⟩ := hside
    constructor
    · simpa only [handed, inHand, hqueue, hconsumer, henqueued, hpushes] using hw.order
    · simpa only [hqueue] using hw.bounded
    · intro hdone
      exact absurd (hconsumer ▸ hdone) hopen

theorem InOrder.onPush {e : Event} (hw : w.InOrder) (hc : w.consumer = .pushing e)
    (answer : PushResult) : (w.onPush e answer).InOrder := by
  have horder := hw.order
  simp only [handed, inHand, hc] at horder
  rcases onPush_cases w e answer with ⟨level, -, -, h⟩ | h <;> rw [h] <;>
    exact ⟨by simpa [handed, inHand] using horder, hw.bounded, fun h => by cases h⟩

theorem InOrder.step (hw : w.InOrder) (h : w.step? a = some v) : v.InOrder := by
  cases a with
  | enqueue =>
    obtain ⟨e, rest, hp, hq, rfl⟩ := enqueue_cases h
    constructor
    · have horder := congrArg (· ++ [e]) hw.order
      simpa [handed, inHand] using horder
    · simpa using Nat.succ_le_of_lt hq
    · intro hdone
      have hpending := (hw.closed hdone).1
      rw [hp] at hpending
      cases hpending
  | take =>
    obtain ⟨e, rest, hc, hq, rfl⟩ := take_cases h
    have horder := hw.order
    have hbounded := hw.bounded
    simp only [handed, inHand, hc, hq] at horder
    rw [hq, List.length_cons] at hbounded
    exact ⟨by simpa [handed, inHand] using horder, by dsimp only; omega, fun h => by cases h⟩
  | push answer =>
    obtain ⟨e, hc, rfl⟩ := push_cases h
    exact hw.onPush hc answer
  | store written =>
    obtain ⟨level, hc, rfl⟩ := store_cases h
    have horder := hw.order
    simp only [handed, inHand, hc] at horder
    exact ⟨by simpa [handed, inHand] using horder, hw.bounded, fun h => by cases h⟩
  | close =>
    obtain ⟨hr, hp, hc, hq, rfl⟩ := close_cases h
    have horder := hw.order
    simp only [handed, inHand, hc] at horder
    exact ⟨by simpa [handed, inHand] using horder, hw.bounded, fun _ => ⟨hp, hq, hr⟩⟩
  | send value =>
    cases h
    exact ⟨hw.order, hw.bounded, hw.closed⟩
  | dropSender =>
    cases h
    exact ⟨hw.order, hw.bounded, hw.closed⟩
  | _ => exact hw.receives h trivial

theorem inOrder_of_run {stored : Option String} {shutdown : Shutdown}
    (run : Run step? allowed (start stored shutdown) as w) : w.InOrder :=
  run.preserves (fun _ _ _ hw _ h => hw.step h) (inOrder_start stored shutdown)

/-- Pushed, being pushed, in the queue or pending: together all that is in line. -/
theorem InOrder.handed_append (hw : w.InOrder) :
    w.handed ++ (w.inHand ++ w.queue ++ w.pending) = w.inLine := by
  rw [inLine, ← hw.order]
  simp

theorem InOrder.handed_isPrefix (hw : w.InOrder) : w.handed <+: w.inLine :=
  ⟨_, hw.handed_append⟩

/-- A watcher that returned has pushed all that was ever in line. -/
theorem InOrder.handed_of_result (hw : w.InOrder) {result : Except Hub.Error Unit}
    (h : w.result? = some result) :
    w.receiver = .done result ∧ w.handed = w.enqueued.reverse ∧ w.handed = w.inLine := by
  unfold result? at h
  split at h
  · rename_i hr hc
    cases h
    obtain ⟨hp, hq, -⟩ := hw.closed hc
    have horder := hw.order
    have hline := hw.handed_append
    simp only [inHand, hc, hq, hp, List.append_nil] at horder hline
    exact ⟨hr, horder, hline⟩
  · cases h

end TokenWatch.Tezos.Watcher
