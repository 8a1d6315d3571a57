import TokenWatch.Proofs.Tezos.CatchUp
import TokenWatch.Proofs.Tezos.Mark

/-!
The first batch of records closes the gap between catching up at the start and the feed. The second
catching up starts from the watermark of that moment, which is never beyond what was replayed.
-/
namespace TokenWatch.Tezos.Watcher

variable {a : Archive} {base : List Event} {start c : UInt64} {after : Resume} {text : String}
  {shutdown : Shutdown} {w v w₀ w₁ : Watcher} {act : Action} {as bs : List Action}
  {seen : List UInt64} {allowed : Watcher → Action → Prop}

def heads (as : List Action) : List UInt64 := as.filterMap Action.head?

@[simp] theorem heads_nil : heads [] = [] := rfl

theorem heads_cons (act : Action) (as : List Action) :
    heads (act :: as) = act.head?.toList ++ heads as := by
  cases h : act.head? <;> simp [heads, h]

theorem heads_append (as bs : List Action) : heads (as ++ bs) = heads as ++ heads bs :=
  List.filterMap_append

theorem ne_load_of_step (hr : w.receiver ≠ .load) (h : w.step? act = some v) :
    v.receiver ≠ .load := by
  by_cases ha : act.Receives
  · exact ne_load_of_receives ha h
  · have hside := receiveSide_of_not_receives h ha
    rw [show v.receiver = w.receiver from congrArg Prod.fst hside]
    exact hr

theorem fresh_of_quiet (hr : w.receiver ≠ .load) (h : w.step? act = some v) (hq : act.Quiet) :
    v.fresh = w.fresh := by
  by_cases ha : act.Receives
  case neg =>
    have hside := receiveSide_of_not_receives h ha
    simp only [receiveSide, Prod.mk.injEq] at hside
    funext channel
    cases channel
    · exact hside.2.1
    · exact hside.2.2.1
  by_cases hb : ∃ answer, act = .batch answer
  · obtain ⟨answer, rfl⟩ := hb
    obtain ⟨-, -, rfl⟩ := batch_cases h
    cases answer with
    | error e => rfl
    | ok b => rw [onBatch_of_ignored w (hq b rfl)]
  · have hkept := kept_of_receives ha hr (fun answer heq => hb ⟨answer, heq⟩) h
    exact congrArg Prod.fst hkept

theorem fresh_of_run (run : Run step? allowed w as v) (hr : w.receiver ≠ .load)
    (quiet : ∀ act ∈ as, act.Quiet) : v.fresh = w.fresh := by
  induction run with
  | nil => rfl
  | @cons w u v act as _ h _ ih =>
    have hu := fresh_of_quiet hr h (quiet act (by simp))
    rw [ih (ne_load_of_step hr h) fun act hact => quiet act (List.mem_cons_of_mem _ hact), hu]

/-- Once the feed is waited for, all of the catch-up is in line. -/
theorem CatchingUp.line_of_waiting (hw : CatchingUp a base start after seen w)
    (hr : w.receiver = .subscribe ∨ w.receiver = .listen) :
    ∃ head, seen = [head] ∧
      w.inLine = base ++ (a.replay start head).filterMap Record.event? ++ after.events := by
  cases hw with
  | asking point line => rcases hr with hr | hr <;> rw [hr] at point <;> cases point
  | replaying head replaying =>
    have hpoint := replaying.point
    rcases hr with hr | hr <;> rw [hr] at hpoint <;> cases hpoint
  | caughtUp head point line => exact ⟨head, rfl, line⟩
  | stopped head result point line => rcases hr with hr | hr <;> rw [hr] at point <;> cases point

theorem CatchingUp.line_isPrefix (hw : CatchingUp a base start after seen w) :
    seen = [] ∧ w.inLine = base ∨ ∃ head, seen = [head] ∧
      w.inLine <+: base ++ (a.replay start head).filterMap Record.event? ++ after.events := by
  cases hw with
  | asking point line => exact .inl ⟨rfl, line⟩
  | replaying head replaying =>
    exact .inr ⟨head, rfl, replaying.line_isPrefix.trans (List.prefix_append _ _)⟩
  | caughtUp head point line => exact .inr ⟨head, rfl, line ▸ List.prefix_rfl⟩
  | stopped head result point line => exact .inr ⟨head, rfl, line⟩

/-- The first batch of a channel is put off until catching up from the watermark is over. -/
theorem catchingUp_of_batch {b : Batch} {channel : Channel} (hb : b.channel? = some channel)
    (hfresh : w.fresh channel = true) (hpos : 0 < w.watermark.current)
    (h : w.step? (.batch (.ok b)) = some v) :
    CatchingUp a w.inLine w.watermark.current (.batch b.events) [] v := by
  obtain ⟨-, -, rfl⟩ := batch_cases h
  rw [onBatch_of_channel w hb, hfresh]
  have honEvents : (w.seen channel).onEvents true b.events =
      { w.seen channel with receiver := .head w.watermark.current (.batch b.events) } := by
    simp [onEvents, hpos]
  rw [honEvents]
  refine .asking rfl ?_
  cases channel <;> rfl

theorem catchingUp_of_run (run : Run step? a.Answers w as v)
    (hw : CatchingUp a base start after seen w) (quiet : ∀ act ∈ as, act.Quiet) :
    CatchingUp a base start after (seen ++ heads as) v := by
  induction run generalizing seen with
  | nil => simpa using hw
  | @cons w u v act as ok h _ ih =>
    have hu := hw.step ok h (quiet act (by simp))
    rw [heads_cons, ← List.append_assoc]
    exact ih hu fun act hact => quiet act (List.mem_cons_of_mem _ hact)

/-- A watcher that has read its checkpoint and has neither answers nor batches yet. -/
structure Loaded (a : Archive) (c : UInt64) (w : Watcher) : Prop where
  catchingUp : CatchingUp a [] c .subscribe [] w
  fresh : w.fresh = fun _ => true
  marked : Marked c w
  inOrder : w.InOrder
  read : w.receiver ≠ .load

theorem loaded_of_load (hc : Checkpoint.ofText? text = some c)
    (hw : w = Watcher.start (some text) w.shutdown) :
    Loaded a c { w with
      watermark := (Watermark.fresh.load (some w.stored)).1
      receiver := afterLoad (Watermark.fresh.load (some w.stored)).2 } := by
  have hload : Watermark.fresh.load (some w.stored) = (⟨c⟩, some c) := by
    rw [hw]
    exact Watermark.load_fresh hc
  rw [hload, hw]
  refine ⟨.asking rfl rfl, ?_, ⟨reached_first c _, ⟨c, hc, reached_first c _⟩, ?_⟩,
    ⟨rfl, Nat.zero_le _, fun h => by cases h⟩, ?_⟩
  · funext channel
    cases channel <;> rfl
  · rintro level ⟨⟩
  · simp [afterLoad]

/-- A run from the start has not read the checkpoint yet or it goes through a loaded watcher. -/
theorem loaded_of_run (honest : ∀ w act, allowed w act → a.Answers w act)
    (hc : Checkpoint.ofText? text = some c) (run : Run step? allowed w as v)
    (hw : w = Watcher.start (some text) w.shutdown) :
    v = Watcher.start (some text) v.shutdown ∧ heads as = [] ∧ (∀ act ∈ as, act.Quiet) ∨
      ∃ u past rest, as = past ++ rest ∧ heads past = [] ∧ (∀ act ∈ past, act.Quiet) ∧
        Loaded a c u ∧ Run step? allowed u rest v := by
  induction run with
  | nil => exact .inl ⟨hw, rfl, by simp⟩
  | @cons w u v act as ok h rest ih =>
    rcases start_of_step hw h with ⟨ha, hu⟩ | ⟨answer, rfl, rfl⟩
    · have hquiet := quiet_of_not_receives ha
      have hcons : ∀ {as : List Action}, (∀ act ∈ as, act.Quiet) → ∀ b ∈ act :: as, b.Quiet := by
        intro as has b hb
        rcases List.mem_cons.mp hb with rfl | hb
        · exact hquiet
        · exact has b hb
      rcases ih hu with ⟨hv, hheads, has⟩ | ⟨u, past, later, rfl, hheads, hpast, hloaded, run⟩
      · refine .inl ⟨hv, ?_, hcons has⟩
        rw [heads_cons, head?_of_not_receives ha, hheads]
        rfl
      · refine .inr ⟨u, act :: past, later, rfl, ?_, hcons hpast, hloaded, run⟩
        rw [heads_cons, head?_of_not_receives ha, hheads]
        rfl
    · obtain rfl : answer = some w.stored := honest _ _ ok
      exact .inr ⟨_, [.load (some w.stored)], as, rfl, rfl, by simp [Action.Quiet, Action.batch?],
        loaded_of_load hc hw, rest⟩

theorem marked_of_run (run : Run step? allowed w as v) (hw : Marked c w)
    (hr : w.receiver ≠ .load) : Marked c v ∧ v.receiver ≠ .load :=
  run.preserves (P := fun w => Marked c w ∧ w.receiver ≠ .load)
    (fun _ _ _ hw _ h => ⟨hw.1.step hw.2 h, ne_load_of_step hw.2 h⟩) ⟨hw, hr⟩

/-- What two catch-ups replay has no hole if the second starts at most where the first ended. -/
theorem mem_replay_append_replay {head mark next : UInt64} (hmark : mark = c ∨ mark ≤ head)
    {r : Record} (hr : a.Holds r) (hlow : c ≤ r.level) (hhigh : r.level ≤ next) :
    r ∈ a.replay c head ++ a.replay mark next := by
  by_cases hbelow : mark ≤ r.level
  · exact List.mem_append_right _ (Archive.mem_replay.mpr ⟨hr, hbelow, hhigh⟩)
  · have hlt : r.level < mark := UInt64.not_le.mp hbelow
    rcases hmark with rfl | hle
    · exact absurd hlow (UInt64.not_le.mpr hlt)
    · have hhead : r.level ≤ head := UInt64.le_of_lt (UInt64.lt_of_lt_of_le hlt hle)
      exact List.mem_append_left _ (Archive.mem_replay.mpr ⟨hr, hlow, hhead⟩)

/-- Before any record of the first batch gets in line, every record of the levels from the
checkpoint to the head of that moment has been put in line. Catching up starts from the watermark,
but everything below it was replayed before. -/
theorem first_batch_closes_gap {b : Batch} (hc : Checkpoint.ofText? text = some c) (hpos : 0 < c)
    (run : Run step? a.Answers (Watcher.start (some text) shutdown) as w₀)
    (quiet : ∀ act ∈ as, act.Quiet) (hb : b ≠ .ignored)
    (arrival : w₀.step? (.batch (.ok b)) = some w₁) :
    let mark := w₀.watermark.current
    ∃ head, heads as = [head] ∧ c ≤ mark ∧ (mark = c ∨ mark ≤ head) ∧
      ∀ bs w, Run step? a.Answers w₁ bs w → (∀ act ∈ bs, act.Quiet) →
        heads bs = [] ∧
          w.enqueued.reverse ++ w.pending = (a.replay c head).filterMap Record.event? ∨
        ∃ next, heads bs = [next] ∧
          w.enqueued.reverse ++ w.pending <+:
            (a.replay c head ++ a.replay mark next).filterMap Record.event? ++ b.events ∧
          (w.receiver = .listen → w.enqueued.reverse ++ w.pending =
            (a.replay c head ++ a.replay mark next).filterMap Record.event? ++ b.events) ∧
          ∀ r, a.Holds r → c ≤ r.level → r.level ≤ next →
            r ∈ a.replay c head ++ a.replay mark next := by
  intro mark
  obtain ⟨channel, hchannel⟩ : ∃ channel, b.channel? = some channel := by
    cases b with
    | ignored => exact absurd rfl hb
    | transfers rs => exact ⟨_, rfl⟩
    | updates rs => exact ⟨_, rfl⟩
  obtain ⟨-, hlisten, -⟩ := batch_cases arrival
  rcases loaded_of_run (fun _ _ ok => ok) hc run rfl with
    ⟨hstart, -⟩ | ⟨u, past, rest, rfl, hpast, -, hu, run'⟩
  · rw [hstart] at hlisten
    cases hlisten
  have hrest : ∀ act ∈ rest, act.Quiet := fun act hact => quiet act (List.mem_append_right _ hact)
  have hcatch := catchingUp_of_run run' hu.catchingUp hrest
  obtain ⟨hmarked, -⟩ := marked_of_run run' hu.marked hu.read
  obtain ⟨head, hseen, hline⟩ := hcatch.line_of_waiting (.inr hlisten)
  have hbase : w₀.inLine = (a.replay c head).filterMap Record.event? := by
    simpa [Resume.events] using hline
  have hmark : mark = c ∨ mark ≤ head := by
    have hpre := (inOrder_of_run run).handed_isPrefix
    rw [hbase] at hpre
    rcases hmarked.watermark.record hpre with hfirst | ⟨r, hr, hlevel⟩
    · exact .inl hfirst
    · have hle := (Archive.mem_replay.mp hr).2.2
      rw [hlevel] at hle
      exact .inr hle
  refine ⟨head, ?_, hmarked.watermark.1, hmark, ?_⟩
  · rw [heads_append, hpast]
    exact hseen
  intro bs w run'' hquiet
  have hfresh : w₀.fresh channel = true := by
    rw [fresh_of_run run' hu.read hrest, hu.fresh]
  have hpositive : 0 < mark := UInt64.lt_of_lt_of_le hpos hmarked.watermark.1
  have hclosing := catchingUp_of_batch (a := a) hchannel hfresh hpositive arrival
  have hw := catchingUp_of_run run'' hclosing hquiet
  rw [List.nil_append, hbase] at hw
  rcases hw.line_isPrefix with ⟨hnone, hsame⟩ | ⟨next, hnext, hpre⟩
  · exact .inl ⟨hnone, hsame⟩
  refine .inr ⟨next, hnext, ?_, ?_, ?_⟩
  · rw [List.filterMap_append]
    exact hpre
  · intro hr
    obtain ⟨other, hother, hall⟩ := hw.line_of_waiting (.inr hr)
    obtain rfl : next = other := List.head_eq_of_cons_eq (hnext.symm.trans hother)
    rw [List.filterMap_append]
    exact hall
  · intro r hr hlow hhigh
    exact mem_replay_append_replay hmark hr hlow hhigh

/-- An explorer with a transfer at level 5, and one at level 7 that comes after the start. -/
theorem first_batch_closes_gap_two_levels :
    let a : Archive := { transfers := [mintRecord 1 5, mintRecord 2 7], updates := [] }
    let before : List Action :=
      [.load (some (some "5")), .head (.ok 5), .check, .transfersPage (.ok [mintRecord 1 5]),
        .enqueue, .updatesPage (.ok []), .subscribe (.ok ())]
    ∃ w₀ w₁ w,
      Run step? a.Answers (Watcher.start (some "5") (.start false)) before w₀ ∧
      w₀.step? (.batch (.ok (.transfers [mintRecord 3 8]))) = some w₁ ∧
      Run step? a.Answers w₁ [.head (.ok 7)] w ∧
      ∀ r, a.Holds r → 5 ≤ r.level → r.level ≤ 7 → r ∈ a.replay 5 5 ++ a.replay 5 7 := by
  intro a before
  have runs : ∃ w₀ w₁ w,
      Run step? a.Answers (Watcher.start (some "5") (.start false)) before w₀ ∧
      w₀.step? (.batch (.ok (.transfers [mintRecord 3 8]))) = some w₁ ∧
      Run step? a.Answers w₁ [.head (.ok 7)] w := by
    refine ⟨_, _, _, .cons rfl rfl (.cons ⟨5, rfl⟩ rfl (.cons trivial rfl (.cons ?transfers rfl
      (.cons trivial rfl (.cons ?updates rfl (.cons trivial rfl (.nil _))))))), rfl,
      .single ⟨7, rfl⟩ rfl⟩
    case transfers =>
      intro level head offset after hr
      obtain ⟨rfl, rfl, rfl, rfl⟩ := Receiver.transfers.inj hr
      have hat : a.transfersAt 5 = [mintRecord 1 5] := by
        simp [a, Archive.transfersAt, mintRecord]
      show Except.ok [mintRecord 1 5] = .ok (Archive.page 0 (a.transfersAt 5))
      rw [hat]
      rfl
    case updates =>
      intro level head offset after hr
      obtain ⟨rfl, rfl, rfl, rfl⟩ := Receiver.updates.inj hr
      have hat : a.updatesAt 5 = [] := by
        simp [a, Archive.updatesAt]
      show Except.ok [] = .ok (Archive.page 0 (a.updatesAt 5))
      rw [hat]
      rfl
  obtain ⟨w₀, w₁, w, run, arrival, closing⟩ := runs
  refine ⟨w₀, w₁, w, run, arrival, closing, ?_⟩
  have hquiet : ∀ act ∈ before, act.Quiet := by
    simp [before, Action.Quiet, Action.batch?]
  obtain ⟨head, hhead, hle, hmark, hall⟩ :=
    first_batch_closes_gap (c := 5) rfl (by decide) run hquiet (by simp) arrival
  obtain rfl : 5 = head := List.head_eq_of_cons_eq hhead
  have hfive : w₀.watermark.current = 5 := by
    rcases hmark with h | h
    · exact h
    · exact UInt64.le_antisymm h hle
  rcases hall _ w closing (by simp [Action.Quiet, Action.batch?]) with ⟨hnone, -⟩ | hnext
  · cases hnone
  obtain ⟨next, hnext, -, -, hcovered⟩ := hnext
  obtain rfl : 7 = next := List.head_eq_of_cons_eq hnext
  rw [hfive] at hcovered
  exact hcovered

end TokenWatch.Tezos.Watcher
