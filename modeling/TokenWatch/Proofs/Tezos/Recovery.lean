import TokenWatch.Proofs.Tezos.Coverage
import TokenWatch.Proofs.Tezos.Progress

/-!
A watcher that is killed at any point loses no record: what stands in the store is never beyond
what was handed over, and a new watcher starts again from there.
-/
namespace TokenWatch.Tezos.Watcher

variable {a : Archive} {above c head level : UInt64} {script rs : List Record} {text : String}
  {shutdown : Shutdown} {w v : Watcher} {as : List Action}

theorem tracked_of_start (feeds : a.Feeds above script)
    (hc : Checkpoint.ofText? text = some c) (hpos : 0 < c)
    (run : Run step? (HonestAbove a above) (Watcher.start (some text) shutdown) as w)
    (delivered : fed as <+: script) :
    w = Watcher.start (some text) w.shutdown ∨ Tracked a c above (fed as) w := by
  rcases loaded_of_run (fun _ _ ok => ok.1) hc run rfl with
    ⟨hstart, -⟩ | ⟨u, past, rest, rfl, -, hquiet, hu, run'⟩
  · exact .inl hstart
  have hfed : fed (past ++ rest) = fed rest := by
    rw [fed, List.flatMap_append, ← fed, ← fed, fed_of_quiet hquiet, List.nil_append]
  rw [hfed] at delivered ⊢
  have tracked : Tracked a c above [] u :=
    ⟨.opening [] hu.catchingUp (fun _ => by rw [hu.fresh]), hu.marked, hu.inOrder, hu.read⟩
  exact .inr (tracked_of_run feeds hpos run' tracked delivered)

/-- All events handed over are those of a list of records in which none is missing below a level
that was reached. -/
theorem handed_of_reached (gapFree : a.GapFree c rs)
    (hline : w.handed <+: rs.filterMap Record.event?) (hlevel : Reached c w.handed level) :
    ∃ es : List Record, w.handed = es.filterMap Record.event? ∧
      ∀ r, a.Holds r → c ≤ r.level → r.level < level → r ∈ es := by
  obtain ⟨later, hlater⟩ := hline
  obtain ⟨es, rest, rfl, hes, -⟩ := List.filterMap_eq_append_iff.mp hlater.symm
  have hfree : a.GapFree c es := gapFree.of_prefix (List.prefix_append es rest)
  refine ⟨es, hes.symm, ?_⟩
  intro r hr hlow hlt
  have hsame : w.handed <+: es.filterMap Record.event? := ⟨[], by rw [hes, List.append_nil]⟩
  rcases hlevel.record hsame with rfl | ⟨s, hs, rfl⟩
  · exact absurd hlow (UInt64.not_le.mpr hlt)
  · exact hfree.mem hs hr hlow hlt

/-- Until a batch of records comes, a new watcher has its catch-up in line and nothing else. -/
theorem line_of_restart (hc : Checkpoint.ofText? text = some c)
    (run : Run step? a.Answers (Watcher.start (some text) shutdown) as v)
    (quiet : ∀ act ∈ as, act.Quiet) (hheads : heads as = [head])
    (hr : v.receiver = .subscribe ∨ v.receiver = .listen) :
    v.inLine = (a.replay c head).filterMap Record.event? := by
  rcases loaded_of_run (fun _ _ ok => ok) hc run rfl with
    ⟨hstart, -⟩ | ⟨u, past, rest, rfl, hpast, -, hu, run'⟩
  · rw [hstart] at hr
    rcases hr with hr | hr <;> cases hr
  have hrest : ∀ act ∈ rest, act.Quiet := fun act hact => quiet act (List.mem_append_right _ hact)
  have hcatch := catchingUp_of_run run' hu.catchingUp hrest
  obtain ⟨other, hother, hline⟩ := hcatch.line_of_waiting hr
  rw [heads_append, hpast] at hheads
  obtain rfl : head = other := List.head_eq_of_cons_eq (hheads.symm.trans hother)
  simpa [Resume.events] using hline

/-- Whenever a watcher is killed, all records below the stored level have been handed over, and
a new watcher on the same store catches up from exactly that level: to any head it puts all records
from there on in line, and it can always push them all. -/
theorem crash_loses_no_record (feeds : a.Feeds above script)
    (hc : Checkpoint.ofText? text = some c) (hpos : 0 < c)
    (run : Run step? (HonestAbove a above) (Watcher.start (some text) shutdown) as w)
    (delivered : fed as <+: script) :
    ∃ level, w.stored.bind Checkpoint.ofText? = some level ∧ c ≤ level ∧
      (∃ es : List Record, w.handed = es.filterMap Record.event? ∧
        ∀ r, a.Holds r → c ≤ r.level → r.level < level → r ∈ es) ∧
      Watermark.fresh.load (some w.stored) = (⟨level⟩, some level) ∧
      ∀ head,
        (∀ r, a.Holds r → level ≤ r.level → r.level ≤ head → r ∈ a.replay level head) ∧
        (∀ again bs v, Run step? a.Answers (Watcher.start w.stored again) bs v →
          (∀ act ∈ bs, act.Quiet) → heads bs = [head] →
          v.receiver = .subscribe ∨ v.receiver = .listen →
          v.handed ++ (v.inHand ++ v.queue ++ v.pending) =
            (a.replay level head).filterMap Record.event?) ∧
        ∀ again : Shutdown, again.value = false →
          ∃ bs v, Run step? a.Answers (Watcher.start w.stored again) bs v ∧ heads bs = [head] ∧
            v.receiver = .subscribe ∧
            v.handed = (a.replay level head).filterMap Record.event? := by
  have hkept : ∃ level, w.stored.bind Checkpoint.ofText? = some level ∧ c ≤ level ∧
      ∃ es : List Record, w.handed = es.filterMap Record.event? ∧
        ∀ r, a.Holds r → c ≤ r.level → r.level < level → r ∈ es := by
    rcases tracked_of_start feeds hc hpos run delivered with hstart | tracked
    · rw [hstart]
      refine ⟨c, hc, UInt64.le_refl c, [], rfl, ?_⟩
      intro r _ hlow hlt
      exact absurd hlow (UInt64.not_le.mpr hlt)
    · obtain ⟨rs, gapFree, hline⟩ := tracked.stage.exists_gapFree feeds delivered
      obtain ⟨level, hstored, hreached⟩ := tracked.marked.stored
      have hhanded := tracked.inOrder.handed_isPrefix.trans hline
      exact ⟨level, hstored, hreached.1, handed_of_reached gapFree hhanded hreached⟩
  obtain ⟨level, hstored, hle, hes⟩ := hkept
  obtain ⟨kept, hkept, htext⟩ := Option.bind_eq_some_iff.mp hstored
  rw [hkept]
  refine ⟨level, htext, hle, hes, Watermark.load_fresh htext, fun head => ⟨?_, ?_, ?_⟩⟩
  · intro r hr hlow hhigh
    exact Archive.mem_replay.mpr ⟨hr, hlow, hhigh⟩
  · intro again bs v run' quiet hheads hr
    rw [(inOrder_of_run run').handed_append]
    exact line_of_restart htext run' quiet hheads hr
  · intro again hgo
    obtain ⟨bs, v, run', hheads, quiet, hrest, hr⟩ := exists_caught_up (a := a) htext hgo head
    have hline := line_of_restart htext run' quiet hheads (.inl hr)
    rw [← (inOrder_of_run run').handed_append] at hline
    refine ⟨bs, v, run', hheads, hr, ?_⟩
    simpa [inHand, hrest.pending, hrest.queue, hrest.consumer] using hline

/-- Killed when the first batch from the feed has closed its gap and moved the checkpoint. -/
theorem crash_loses_no_record_first_batch :
    let a : Archive := { transfers := [mintRecord 1 5, mintRecord 2 7], updates := [] }
    let actions : List Action :=
      [.load (some (some "5")), .head (.ok 5), .check, .transfersPage (.ok [mintRecord 1 5]),
        .enqueue, .updatesPage (.ok []), .subscribe (.ok ()),
        .batch (.ok (.transfers [mintRecord 2 7])), .head (.ok 6), .check,
        .transfersPage (.ok [mintRecord 1 5]), .enqueue, .updatesPage (.ok []), .check,
        .transfersPage (.ok []), .updatesPage (.ok []), .enqueue, .take, .push (.ok ()), .take,
        .push (.error (.rejected 500)), .take, .push (.ok ()), .store true]
    ∃ w,
      Run step? (HonestAbove a 6) (Watcher.start (some "5") (.start false)) actions w ∧
      w.stored = some "7" ∧
      ∃ es : List Record, w.handed = es.filterMap Record.event? ∧
        ∀ r, a.Holds r → 5 ≤ r.level → r.level < 7 → r ∈ es := by
  intro a actions
  -- Only an answer with a head has to reach a level.
  have other : ∀ {w act}, a.Answers w act → act.head? = none → HonestAbove a 6 w act := by
    intro w act ok hnone
    refine ⟨ok, ?_⟩
    rintro start events head - - rfl
    cases hnone
  have hfive : a.transfersAt 5 = [mintRecord 1 5] := by
    simp [a, Archive.transfersAt, mintRecord]
  have hsix : a.transfersAt 6 = [] := by
    simp [a, Archive.transfersAt, mintRecord]
  have hupdates : ∀ level, a.updatesAt level = [] := by
    simp [a, Archive.updatesAt]
  have runs : ∃ w,
      Run step? (HonestAbove a 6) (Watcher.start (some "5") (.start false)) actions w ∧
      w.stored = some "7" := by
    refine ⟨_, .cons (other rfl rfl) rfl (.cons ⟨⟨5, rfl⟩, ?opening⟩ rfl
      (.cons (other trivial rfl) rfl (.cons (other ?five rfl) rfl
      (.cons (other trivial rfl) rfl (.cons (other ?updates rfl) rfl
      (.cons (other trivial rfl) rfl (.cons (other trivial rfl) rfl
      (.cons ⟨⟨6, rfl⟩, ?closing⟩ rfl (.cons (other trivial rfl) rfl
      (.cons (other ?fiveAgain rfl) rfl (.cons (other trivial rfl) rfl
      (.cons (other ?updatesAgain rfl) rfl (.cons (other trivial rfl) rfl
      (.cons (other ?six rfl) rfl (.cons (other ?updatesLast rfl) rfl
      (.cons (other trivial rfl) rfl (.cons (other trivial rfl) rfl
      (.cons (other trivial rfl) rfl (.cons (other trivial rfl) rfl
      (.cons (other trivial rfl) rfl (.cons (other trivial rfl) rfl
      (.cons (other trivial rfl) rfl (.cons (other trivial rfl) rfl
      (.nil _)))))))))))))))))))))))), rfl⟩
    case opening =>
      intro start events head hr
      cases (Receiver.head.inj hr).2
    case closing =>
      rintro start events head - - ⟨⟩
      exact UInt64.le_refl 6
    case five | fiveAgain =>
      intro level head offset after hr
      obtain ⟨rfl, rfl, rfl, rfl⟩ := Receiver.transfers.inj hr
      show Except.ok [mintRecord 1 5] = .ok (Archive.page 0 (a.transfersAt 5))
      rw [hfive]
      rfl
    case six =>
      intro level head offset after hr
      obtain ⟨rfl, rfl, rfl, rfl⟩ := Receiver.transfers.inj hr
      show Except.ok [] = .ok (Archive.page 0 (a.transfersAt 6))
      rw [hsix]
      rfl
    case updates | updatesAgain | updatesLast =>
      intro level head offset after _
      rw [hupdates, Archive.page, List.drop_nil, List.take_nil]
  obtain ⟨w, run, hstored⟩ := runs
  have feeds : a.Feeds 6 [.transfer (mintRecord 2 7)] := by
    refine ⟨?_, List.pairwise_singleton _ _⟩
    intro r hr hlt
    cases r with
    | transfer r =>
      rcases List.mem_pair.mp hr with rfl | rfl
      · exact absurd hlt (by decide)
      · exact List.mem_singleton_self _
    | update r => exact absurd hr List.not_mem_nil
  obtain ⟨level, hlevel, -, hes, -⟩ :=
    crash_loses_no_record (c := 5) feeds rfl (by decide) run List.prefix_rfl
  rw [hstored] at hlevel
  obtain rfl : 7 = level := Option.some.inj hlevel
  exact ⟨w, run, hstored, hes⟩

end TokenWatch.Tezos.Watcher
