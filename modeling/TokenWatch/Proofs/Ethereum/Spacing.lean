import TokenWatch.Proofs.Ethereum.Schedule
import TokenWatch.Proofs.Retry

/-!
Between two calls of an Ethereum watcher for a subscription there is at least the initial delay of
its schedule, whatever the other values of the schedule are, unless a change of the shutdown channel
is seen that does not mean to stop. Where the channel is only used to stop, all calls are so far
apart.
-/
namespace TokenWatch.Ethereum.Watcher

variable {w v : Watcher} {a : Action} {as bs : List Action} {retry : RetrySchedule} {value : Bool}
  {gap t : Nat} {ts : List Nat}

section Unbroken

/-- A change that is seen and does not mean to stop breaks the sequence of calls. -/
def thenBeat (ts : List Nat) : Nat × Beat → List Nat
  | (t, .called) => t :: ts
  | (_, .woken) => []
  | (_, .stopped) => ts

/-- The moments of the calls since the last change that was seen and did not mean to stop, newest
first. -/
def unbroken (course : List (Nat × Beat)) : List Nat := course.foldl thenBeat []

theorem unbroken_append (xs ys : List (Nat × Beat)) :
    unbroken (xs ++ ys) = ys.foldl thenBeat (unbroken xs) := List.foldl_append

theorem foldl_thenBeat {course : List (Nat × Beat)} (whole : ∀ t, (t, .woken) ∉ course)
    (ts : List Nat) : course.foldl thenBeat ts = callTimes course ++ ts := by
  induction course generalizing ts with
  | nil => rfl
  | cons beat rest ih =>
    have hrest : ∀ t, (t, .woken) ∉ rest := fun t h => whole t (List.mem_cons_of_mem _ h)
    obtain ⟨t, b⟩ := beat
    have hsplit := callTimes_append [(t, b)] rest
    rw [List.foldl_cons, ih hrest, ← List.singleton_append, hsplit, List.append_assoc]
    cases b with
    | called | stopped => rfl
    | woken => exact absurd List.mem_cons_self (whole t)

theorem unbroken_of_whole {course : List (Nat × Beat)} (whole : ∀ t, (t, .woken) ∉ course) :
    unbroken course = callTimes course :=
  (foldl_thenBeat whole []).trans (List.append_nil _)

end Unbroken

section Apart

/-- Calls that follow one another after some time, newest first. -/
def Apart (gap : Nat) (ts : List Nat) : Prop :=
  ts.Pairwise fun later earlier => earlier + gap ≤ later

/-- Where the task is some time after a call at the moment `t`. -/
def Placed (gap t : Nat) (w : Watcher) : Prop :=
  match w.receiver with
  | .ready => t + gap ≤ w.clock
  | .waiting due => t + gap ≤ due
  | .calling | .listen | .sending _ => t ≤ w.clock
  | .done => True

/-- The calls `ts` are apart, and the next call will be apart from them. -/
structure Spaced (gap : Nat) (ts : List Nat) (w : Watcher) : Prop where
  initial : w.retry.initialMillis.toNat = gap
  apart : Apart gap ts
  placed : ∀ t ∈ ts, Placed gap t w

/-- No wait is shorter than the initial delay. -/
theorem placed_await (initial : w.retry.initialMillis.toNat = gap) (past : t ≤ w.clock) :
    Placed gap t w.await := by
  have hdelay := w.retry.initial_le_delay w.attempt
  show t + gap ≤ w.clock + w.retry.delay w.attempt
  omega

theorem Placed.step (placed : Placed gap t w) (initial : w.retry.initialMillis.toNat = gap)
    (h : w.step? a = some v) (ha : a ≠ .notice) : Placed gap t v := by
  unfold Placed at placed
  cases a with
  | call =>
    obtain ⟨hr, -, rfl⟩ := call_cases h
    rw [hr] at placed
    exact Nat.le_trans (Nat.le_add_right _ _) placed
  | subscribed answer =>
    obtain ⟨hr, -, rfl⟩ := subscribed_cases h
    rw [hr] at placed
    cases answer with
    | ok _ => exact placed
    | error _ => exact placed_await initial placed
  | hear log =>
    obtain ⟨hr, -, rfl⟩ := hear_cases h
    rw [hr] at placed
    cases log with
    | some _ => exact placed
    | none => exact placed_await initial placed
  | enqueue =>
    obtain ⟨log, hr, -, rfl⟩ := enqueue_cases h
    rw [hr] at placed
    exact placed
  | resubscribe =>
    obtain ⟨due, hr, -, hdue, rfl⟩ := resubscribe_cases h
    rw [hr] at placed
    exact Nat.le_trans placed hdue
  | notice => exact absurd rfl ha
  | take =>
    obtain ⟨log, rest, -, -, rfl⟩ := take_cases h
    exact placed
  | handle =>
    obtain ⟨log, -, rfl⟩ := handle_cases h
    exact placed
  | close =>
    obtain ⟨-, -, -, rfl⟩ := close_cases h
    exact placed
  | elapse millis =>
    obtain ⟨-, rfl⟩ := elapse_cases h
    unfold Placed
    cases hr : w.receiver with
    | waiting due | done =>
      rw [hr] at placed
      exact placed
    | ready | calling | listen | sending log =>
      rw [hr] at placed
      exact Nat.le_trans placed (Nat.le_add_right _ _)
  | send value | dropSender =>
    cases h
    exact placed

theorem spaced_nil (w : Watcher) : Spaced w.retry.initialMillis.toNat [] w :=
  ⟨rfl, .nil, nofun⟩

theorem Spaced.step (hw : Spaced gap ts w) (h : w.step? a = some v) :
    Spaced gap ((w.beats a).foldl thenBeat ts) v := by
  obtain ⟨hretry, -⟩ := pace_step h
  have hinitial : v.retry.initialMillis.toNat = gap := by rw [hretry, hw.initial]
  have hplaced : a ≠ .notice → ∀ t ∈ ts, Placed gap t v := fun ha t ht =>
    (hw.placed t ht).step hw.initial h ha
  cases a with
  | call =>
    obtain ⟨hr, -, rfl⟩ := call_cases h
    have hready : ∀ t ∈ ts, t + gap ≤ w.clock := by
      intro t ht
      have ht := hw.placed t ht
      unfold Placed at ht
      rwa [hr] at ht
    refine ⟨hinitial, List.pairwise_cons.mpr ⟨hready, hw.apart⟩, ?_⟩
    exact List.forall_mem_cons.mpr ⟨Nat.le_refl _, hplaced nofun⟩
  | notice =>
    rcases notice_beats h with ⟨-, hdone, hbeat⟩ | ⟨-, -, -, hbeat⟩
    · rw [hbeat]
      refine ⟨hinitial, hw.apart, fun t _ => ?_⟩
      simp only [Placed, hdone]
    · rw [hbeat]
      exact ⟨hinitial, .nil, nofun⟩
  | _ => exact ⟨hinitial, hw.apart, hplaced nofun⟩

/-- Calls between which no change is seen are apart by the initial delay. -/
theorem apart_of_run (run : Run step? Anything w as v) :
    Apart w.retry.initialMillis.toNat (unbroken (w.course as)) := by
  let P (ns : List (Nat × Beat)) (v : Watcher) : Prop :=
    Spaced w.retry.initialMillis.toNat (unbroken ns) v
  have each : ∀ ns s a t, P ns s → True → step? s a = some t → P (ns ++ s.beats a) t := by
    intro ns s a t hs _ step
    show Spaced _ (unbroken (ns ++ s.beats a)) t
    rw [unbroken_append]
    exact Spaced.step hs step
  have hspaced : P ([] ++ w.course as) v := run.preserves_noted each (spaced_nil w)
  exact hspaced.apart

end Apart

section Stopping

theorem lastSent?_of_not_mem (stops : .send false ∉ as) (h : lastSent? as = some value) :
    value = true := by
  have hmem : value ∈ as.filterMap Action.sent? := List.mem_of_getLast? h
  obtain ⟨a, ha, hvalue⟩ := List.mem_filterMap.mp hmem
  cases a with
  | send sent =>
    cases hvalue
    cases value with
    | true => rfl
    | false => exact absurd ha stops
  | _ => cases hvalue

/-- Each change that is seen means to stop where nothing else is sent. -/
theorem Signalled.stop_of_not_mem {shutdown : Shutdown} (h : Signalled as shutdown)
    (stops : .send false ∉ as) (ready : shutdown.IsReady) : shutdown.notice.2 = true := by
  unfold Shutdown.notice
  split
  · rename_i hchanged
    exact lastSent?_of_not_mem stops (h.changed hchanged)
  · rename_i hchanged
    exact ready.resolve_left hchanged

/-- A change that is seen and does not mean to stop. -/
theorem notice_of_woken (h : w.step? a = some v) (woken : (t, .woken) ∈ w.beats a) :
    w.shutdown.IsReady ∧ w.shutdown.notice.2 = false := by
  cases a with
  | notice =>
    obtain ⟨-, hready, -⟩ := notice_cases h
    refine ⟨hready, ?_⟩
    cases hstop : w.shutdown.notice.2 with
    | false => rfl
    | true => simp [beats, hstop] at woken
  | call => simp [beats] at woken
  | _ => cases woken

theorem not_woken (run : Run step? Anything w bs v) (hw : Signalled as w.shutdown)
    (stops : .send false ∉ as ++ bs) (t : Nat) : (t, .woken) ∉ w.course bs := by
  induction run generalizing as with
  | nil => exact List.not_mem_nil
  | @cons w u v a bs _ step _ ih =>
    rw [course_cons step, List.mem_append]
    rintro (woken | woken)
    · obtain ⟨ready, going⟩ := notice_of_woken step woken
      have hstops : .send false ∉ as := fun h => stops (List.mem_append_left _ h)
      rw [hw.stop_of_not_mem hstops ready] at going
      cases going
    · refine ih (hw.step step) ?_ woken
      rwa [List.append_assoc]

/-- All calls of a watcher are apart by the initial delay where its channel is only used to stop. -/
theorem calls_apart_of_run (run : Run step? Anything (start retry (.start value)) as w)
    (stops : .send false ∉ as) : Apart retry.initialMillis.toNat w.calls := by
  have hwhole := not_woken run (signalled_start value) stops
  have hcalls : w.calls = callTimes ((start retry (.start value)).course as) :=
    (calls_of_run run).trans (List.append_nil _)
  rw [hcalls, ← unbroken_of_whole hwhole]
  exact apart_of_run run

end Stopping

end TokenWatch.Ethereum.Watcher
