import TokenWatch.Proofs.Tezos.Delivery

/-!
The watermark and the stored checkpoint of the Tezos watcher. Both are always the first checkpoint
or the level of an event whose push was answered.
-/
namespace TokenWatch.Tezos.Watcher

variable {w v : Watcher} {a : Action} {as : List Action} {allowed : Watcher → Action → Prop}
  {c level : UInt64} {text : String} {shutdown : Shutdown}

section Loading

theorem point_ne_load (after : Resume) (w : Watcher) : (w.resume after).receiver ≠ .load := by
  cases after <;> simp [resume]

theorem nextLevel_ne_load (w : Watcher) (level head : UInt64) (after : Resume) :
    (w.nextLevel level head after).receiver ≠ .load := by
  unfold nextLevel
  split
  · simp
  · exact point_ne_load after w

theorem onEvents_ne_load (hr : w.receiver ≠ .load) (first : Bool) (events : List Event) :
    (w.onEvents first events).receiver ≠ .load := by
  unfold onEvents
  split
  · simp
  · exact hr

/-- The checkpoint is read only once. -/
theorem ne_load_of_receives (ha : a.Receives) (h : w.step? a = some v) : v.receiver ≠ .load := by
  cases a with
  | load answer =>
    obtain ⟨-, -, rfl⟩ := load_cases h
    cases (w.watermark.load answer).2 <;> simp [afterLoad]
  | head answer =>
    obtain ⟨-, start, after, -, rfl⟩ := head_cases h
    unfold onHead
    split
    · split
      · simp
      · exact point_ne_load after w
    · exact point_ne_load after w
  | check =>
    obtain ⟨-, level, head, after, -, rfl⟩ := check_cases h
    cases w.shutdown.value <;> simp
  | transfersPage answer =>
    obtain ⟨-, level, head, offset, after, -, rfl⟩ := transfersPage_cases h
    cases answer with
    | error cause => simp [onTransfers]
    | ok page => by_cases hfull : pageLimit ≤ page.length <;> simp [onTransfers, hfull]
  | updatesPage answer =>
    obtain ⟨-, level, head, offset, after, -, rfl⟩ := updatesPage_cases h
    cases answer with
    | error cause => exact nextLevel_ne_load w level head after
    | ok page =>
      unfold onUpdates
      dsimp only
      split
      · simp
      · exact nextLevel_ne_load _ level head after
  | subscribe answer =>
    obtain ⟨-, -, rfl⟩ := subscribe_cases h
    cases answer <;> simp [afterSubscribe]
  | notice =>
    obtain ⟨-, -, rfl⟩ := notice_cases h
    cases w.shutdown.notice.2 <;> simp
  | batch answer =>
    obtain ⟨-, hr, rfl⟩ := batch_cases h
    cases answer with
    | error e => simp [onBatch]
    | ok batch =>
      cases hchannel : batch.channel? with
      | none => simp [onBatch_of_ignored w hchannel, hr]
      | some channel =>
        rw [onBatch_of_channel w hchannel]
        exact onEvents_ne_load (by simp [hr]) _ _
  | _ => exact ha.elim

/-- Before the checkpoint is read, only the shutdown channel can have changed. -/
theorem start_of_step {stored : Option String} (hw : w = start stored w.shutdown)
    (h : w.step? a = some v) :
    ¬a.Receives ∧ v = start stored v.shutdown ∨
      ∃ answer, a = .load answer ∧
        v = { w with
          watermark := (Watermark.fresh.load answer).1
          receiver := afterLoad (Watermark.fresh.load answer).2 } := by
  have hfields : w.receiver = .load ∧ w.pending = [] ∧ w.queue = [] ∧ w.consumer = .idle ∧
      w.watermark = .fresh := by
    rw [hw]
    exact ⟨rfl, rfl, rfl, rfl, rfl⟩
  obtain ⟨hr, hp, hq, hc, hm⟩ := hfields
  by_cases ha : a.Receives
  · obtain ⟨answer, hload, -, hv⟩ := load_of_receives hr ha h
    rw [hm] at hv
    exact .inr ⟨answer, hload, hv⟩
  refine .inl ⟨ha, ?_⟩
  cases a with
  | enqueue =>
    obtain ⟨e, rest, hpending, -, -⟩ := enqueue_cases h
    rw [hp] at hpending
    cases hpending
  | take =>
    obtain ⟨e, rest, -, hqueue, -⟩ := take_cases h
    rw [hq] at hqueue
    cases hqueue
  | push answer =>
    obtain ⟨e, hconsumer, -⟩ := push_cases h
    rw [hc] at hconsumer
    cases hconsumer
  | store written =>
    obtain ⟨level, hconsumer, -⟩ := store_cases h
    rw [hc] at hconsumer
    cases hconsumer
  | close =>
    obtain ⟨⟨result, hdone⟩, -⟩ := close_cases h
    rw [hr] at hdone
    cases hdone
  | send value =>
    cases h
    rw [hw]
    rfl
  | dropSender =>
    cases h
    rw [hw]
    rfl
  | _ => exact absurd trivial ha

end Loading

/-- A level at or above the first checkpoint, and either that checkpoint or the level of an event
that was handed over. -/
def Reached (c : UInt64) (handed : List Event) (level : UInt64) : Prop :=
  c ≤ level ∧ (level = c ∨ ∃ e ∈ handed, e.level = some level)

theorem reached_first (c : UInt64) (handed : List Event) : Reached c handed c :=
  ⟨UInt64.le_refl c, .inl rfl⟩

theorem Reached.append {handed : List Event} (h : Reached c handed level) (more : List Event) :
    Reached c (handed ++ more) level := by
  obtain ⟨hle, hfirst | ⟨e, he, hlevel⟩⟩ := h
  · exact ⟨hle, .inl hfirst⟩
  · exact ⟨hle, .inr ⟨e, List.mem_append_left _ he, hlevel⟩⟩

/-- A level that was reached is that of a record in line, if it is not the first. -/
theorem Reached.record {handed : List Event} {rs : List Record} (h : Reached c handed level)
    (hpre : handed <+: rs.filterMap Record.event?) :
    level = c ∨ ∃ r ∈ rs, r.level = level := by
  obtain ⟨-, hfirst | ⟨e, he, hlevel⟩⟩ := h
  · exact .inl hfirst
  · obtain ⟨r, hr, hevent⟩ := List.mem_filterMap.mp (hpre.mem he)
    rw [Record.level_of_event? hevent] at hlevel
    exact .inr ⟨r, hr, Option.some.inj hlevel⟩

/-- In memory, in the store and on the way to the store there are only levels that were reached. -/
structure Marked (c : UInt64) (w : Watcher) : Prop where
  watermark : Reached c w.handed w.watermark.current
  stored : ∃ level, w.stored.bind Checkpoint.ofText? = some level ∧ Reached c w.handed level
  storing : ∀ level, w.consumer = .storing level → Reached c w.handed level

theorem Marked.onPush {e : Event} (hw : Marked c w) (answer : PushResult) :
    Marked c (w.onPush e answer) := by
  obtain ⟨stored, hstored, hreached⟩ := hw.stored
  have hhanded : ∀ consumer watermark,
      ({ w with pushes := (e, answer) :: w.pushes, consumer, watermark } : Watcher).handed =
        w.handed ++ [e] := by
    intro consumer watermark
    simp [handed]
  rcases onPush_cases w e answer with ⟨level, hlevel, hlt, h⟩ | h
  · have hnew : Reached c (w.handed ++ [e]) level := by
      refine ⟨?_, .inr ⟨e, by simp, hlevel⟩⟩
      exact UInt64.le_of_lt (UInt64.lt_of_le_of_lt hw.watermark.1 hlt)
    rw [h]
    refine ⟨?_, ⟨stored, hstored, ?_⟩, ?_⟩
    · rw [hhanded]
      exact hnew
    · rw [hhanded]
      exact hreached.append [e]
    · rintro _ ⟨⟩
      rw [hhanded]
      exact hnew
  · rw [h]
    refine ⟨?_, ⟨stored, hstored, ?_⟩, ?_⟩
    · rw [hhanded _ w.watermark]
      exact hw.watermark.append [e]
    · rw [hhanded _ w.watermark]
      exact hreached.append [e]
    · rintro _ ⟨⟩

theorem Marked.step (hw : Marked c w) (hr : w.receiver ≠ .load) (h : w.step? a = some v) :
    Marked c v := by
  by_cases ha : a.Receives
  · have hside := pushSide_of_receives ha hr h
    simp only [pushSide, Prod.mk.injEq] at hside
    obtain ⟨-, hconsumer, hwatermark, hstored, -, hpushes⟩ := hside
    have hhanded : v.handed = w.handed := by rw [handed, handed, hpushes]
    constructor
    · rw [hhanded, hwatermark]
      exact hw.watermark
    · rw [hhanded, hstored]
      exact hw.stored
    · rw [hhanded, hconsumer]
      exact hw.storing
  cases a with
  | enqueue =>
    obtain ⟨e, rest, -, -, rfl⟩ := enqueue_cases h
    exact ⟨hw.watermark, hw.stored, hw.storing⟩
  | take =>
    obtain ⟨e, rest, -, -, rfl⟩ := take_cases h
    exact ⟨hw.watermark, hw.stored, fun _ hc => by cases hc⟩
  | push answer =>
    obtain ⟨e, -, rfl⟩ := push_cases h
    exact hw.onPush answer
  | store written =>
    obtain ⟨level, hc, rfl⟩ := store_cases h
    refine ⟨hw.watermark, ?_, fun _ hc => by cases hc⟩
    cases written with
    | false => exact hw.stored
    | true => exact ⟨level, Checkpoint.ofText?_toText level, hw.storing level hc⟩
  | close =>
    obtain ⟨-, -, -, -, rfl⟩ := close_cases h
    exact ⟨hw.watermark, hw.stored, fun _ hc => by cases hc⟩
  | send value =>
    cases h
    exact ⟨hw.watermark, hw.stored, hw.storing⟩
  | dropSender =>
    cases h
    exact ⟨hw.watermark, hw.stored, hw.storing⟩
  | _ => exact absurd trivial ha

end TokenWatch.Tezos.Watcher
