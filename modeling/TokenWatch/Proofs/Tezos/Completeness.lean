import TokenWatch.Proofs.Tezos.Underway

/-!
Catching up comes to its end, whatever an explorer refuses, and what it has put in line by then is
all that was not refused, level by level and in order.
-/
namespace TokenWatch.Tezos

def Archive.size (a : Archive) : Nat := a.transfers.length + a.updates.length

theorem Archive.length_transfersAt_le (a : Archive) (level : UInt64) :
    (a.transfersAt level).length ≤ a.size := by
  rw [Archive.transfersAt, List.length_mergeSort]
  exact Nat.le_trans (List.length_filter_le _ _) (Nat.le_add_right _ _)

theorem Archive.length_updatesAt_le (a : Archive) (level : UInt64) :
    (a.updatesAt level).length ≤ a.size := by
  rw [Archive.updatesAt, List.length_mergeSort]
  exact Nat.le_trans (List.length_filter_le _ _) (Nat.le_add_left _ _)

namespace Watcher

variable {a : Archive} {refusals : Refusals} {start level head : UInt64} {after : Resume}
  {line : List Event} {w v : Watcher} {act : Action} {as : List Action}

section Rank

variable {b : Archive}

def Action.isTask : Action → Bool
  | .send _ | .dropSender => false
  | _ => true

/-- How many steps are left, at most, before catching up is over, if an explorer has `s` records:
a level takes two steps and its records, each of which takes six with its way to the sink. -/
def toReplay (s : Nat) : Receiver → Nat
  | .level level head after =>
    (head.toNat - level.toNat + 1) * (12 * s + 3) + 5 * after.events.length
  | .transfers level head offset after =>
    (head.toNat - level.toNat) * (12 * s + 3) + (6 * s + 2 + 6 * (s - offset.toNat)) +
      5 * after.events.length
  | .updates level head offset after =>
    (head.toNat - level.toNat) * (12 * s + 3) + (1 + 6 * (s - offset.toNat)) +
      5 * after.events.length
  | _ => 0

def toSettle (s : Nat) (w : Watcher) : Nat := toReplay s w.receiver + w.backlog

theorem backlog_of_kept (hp : w.pending = []) (hkept : v.kept = w.kept) :
    v.backlog = w.backlog + 5 * v.pending.length := by
  simp only [kept, pushSide, Prod.mk.injEq] at hkept
  obtain ⟨-, -, hqueue, hconsumer, -⟩ := hkept
  simp only [backlog, hqueue, hconsumer, hp, List.length_nil]
  omega

/-- The end of a level leaves no more to do than its levels above, or what comes after. -/
theorem toReplay_nextLevel (s : Nat) (level head : UInt64) (after : Resume) (w : Watcher) :
    toReplay s (w.nextLevel level head after).receiver +
        5 * (w.nextLevel level head after).pending.length ≤
      (head.toNat - level.toNat) * (12 * s + 3) + 5 * after.events.length +
        5 * w.pending.length := by
  unfold nextLevel
  split
  · rename_i hlt
    have hnext := toNat_level_add_one hlt
    have hless := UInt64.lt_iff_toNat_lt.mp hlt
    have hcount : head.toNat - (level + 1).toNat + 1 = head.toNat - level.toNat := by omega
    simp only [toReplay, hcount]
    omega
  · cases after with
    | subscribe =>
      simp only [resume, toReplay]
      omega
    | batch events =>
      simp only [resume, toReplay, Resume.events, List.length_append]
      omega

theorem toReplay_onTransfers {s : Nat} {offset : UInt64} {page : List TransferRecord}
    (hpage : page.length ≤ min pageLimit (s - offset.toNat))
    (hnext : pageLimit ≤ page.length → (nextPage offset).toNat = offset.toNat + pageLimit)
    (w : Watcher) (level head : UInt64) (after : Resume) :
    toReplay s (w.onTransfers level head offset after (.ok page)).receiver +
        5 * (w.onTransfers level head offset after (.ok page)).pending.length <
      toReplay s (.transfers level head offset after) := by
  have hevents : (transferEvents page).length ≤ page.length := List.length_filterMap_le _ _
  have hlimit : 0 < pageLimit := by decide
  simp only [onTransfers]
  split <;> simp only [toReplay] <;> omega

theorem toReplay_onUpdates {s : Nat} {offset : UInt64} {page : List UpdateRecord}
    (hpage : page.length ≤ min pageLimit (s - offset.toNat))
    (hnext : pageLimit ≤ page.length → (nextPage offset).toNat = offset.toNat + pageLimit)
    (w : Watcher) (level head : UInt64) (after : Resume) :
    toReplay s (w.onUpdates level head offset after (.ok page)).receiver +
        5 * (w.onUpdates level head offset after (.ok page)).pending.length <
      toReplay s (.updates level head offset after) := by
  have hevents : (updateEvents page).length ≤ page.length := List.length_filterMap_le _ _
  have hlimit : 0 < pageLimit := by decide
  simp only [onUpdates]
  split
  · simp only [toReplay]
    omega
  · let u : Watcher := { w with pending := updateEvents page }
    have hpending : u.pending.length ≤ page.length := hevents
    have hnext := toReplay_nextLevel s level head after u
    show toReplay s (u.nextLevel level head after).receiver +
      5 * (u.nextLevel level head after).pending.length <
        (head.toNat - level.toNat) * (12 * s + 3) + (1 + 6 * (s - offset.toNat)) +
          5 * after.events.length
    omega

theorem length_page_le_min {α : Type} {rs : List α} {s : Nat} (h : rs.length ≤ s) (offset : Nat) :
    (Archive.page offset rs).length ≤ min pageLimit (s - offset) := by
  rw [Archive.page, List.length_take, List.length_drop]
  omega

/-- Each step of catching up takes one off, with all that it puts in line. -/
theorem Turn.toReplay_lt (t : Turn b head after w v) (hp : w.pending = []) :
    toReplay b.size v.receiver + 5 * v.pending.length < toReplay b.size w.receiver := by
  cases t with
  | check point =>
    simp only [point, hp, toReplay, List.length_nil, Nat.succ_mul, UInt64.toNat_zero]
    omega
  | transfers point =>
    rw [point]
    exact toReplay_onTransfers (length_page_le_min (b.length_transfersAt_le _) _)
      (Archive.toNat_nextPage (b.length_transfersAt_lt _)) w _ head after
  | updates point =>
    rw [point]
    exact toReplay_onUpdates (length_page_le_min (b.length_updatesAt_le _) _)
      (Archive.toNat_nextPage (b.length_updatesAt_lt _)) w _ head after

/-- An event on its way is one step further on with each step that the receiving task has no part
in. -/
theorem backlog_of_not_receives (hr : ∀ result, w.receiver ≠ .done result)
    (h : w.step? act = some v) (ha : ¬act.Receives) :
    v.backlog + act.isTask.toNat ≤ w.backlog := by
  cases act with
  | enqueue =>
    obtain ⟨e, rest, hp, -, rfl⟩ := enqueue_cases h
    simp only [backlog, hp, Action.isTask, Bool.toNat_true, List.length_cons, List.length_append,
      List.length_nil]
    omega
  | take =>
    obtain ⟨e, rest, hc, hq, rfl⟩ := take_cases h
    simp only [backlog, hc, hq, Action.isTask, Bool.toNat_true, List.length_cons]
    omega
  | push answer =>
    obtain ⟨e, hc, rfl⟩ := push_cases h
    rcases onPush_cases w e answer with ⟨level, -, -, hpush⟩ | hpush <;>
      simp only [hpush, backlog, hc, Action.isTask, Bool.toNat_true] <;> omega
  | store written =>
    obtain ⟨level, hc, rfl⟩ := store_cases h
    simp only [backlog, hc, Action.isTask, Bool.toNat_true]
    omega
  | close =>
    obtain ⟨⟨result, hdone⟩, -⟩ := close_cases h
    exact absurd hdone (hr result)
  | send value =>
    cases h
    exact Nat.le_refl _
  | dropSender =>
    cases h
    exact Nat.le_refl _
  | _ => exact absurd trivial ha

theorem Underway.toSettle_le (hw : Underway a refusals after line w)
    (ok : a.AnswersDespite refusals w act) (h : w.step? act = some v) :
    toSettle (a.despite refusals).size v + act.isTask.toNat ≤
      toSettle (a.despite refusals).size w := by
  rcases hw.cases ok h with ⟨base, start, head, hreplay, -, hp, hturn, -⟩ | ha
  · have hlt := hturn.toReplay_lt hp
    have hbacklog := backlog_of_kept hp hturn.kept
    have hone := act.isTask.toNat_le
    simp only [toSettle, hbacklog]
    omega
  · have hr : v.receiver = w.receiver := congrArg Prod.fst (receiveSide_of_not_receives h ha)
    have hle := backlog_of_not_receives hw.ne_done h ha
    simp only [toSettle, hr]
    omega

/-- However the steps of the tasks take turns, there are only so many of them. -/
theorem underway_of_run (run : Run step? (a.AnswersDespite refusals) w as v)
    (hw : Underway a refusals after line w) :
    Underway a refusals after line v ∧
      as.countP Action.isTask + toSettle (a.despite refusals).size v ≤
        toSettle (a.despite refusals).size w := by
  induction run with
  | nil => exact ⟨hw, by simp⟩
  | @cons w u v act as ok h rest ih =>
    obtain ⟨hv, hrest⟩ := ih (hw.step ok h)
    have hfirst := hw.toSettle_le ok h
    refine ⟨hv, ?_⟩
    -- A signal counts for nothing, so that signals may come as often as they like.
    rw [List.countP_cons]
    cases htask : act.isTask <;> simp [htask] at hfirst ⊢ <;> omega

/-- Catching up goes on as soon as nothing is left over, since every request has an answer. -/
theorem exists_turn (hp : w.pending = []) (hpoint : w.receiver.Replays start head after) :
    ∃ act v, act.isTask = true ∧ a.AnswersDespite refusals w act ∧ w.step? act = some v := by
  generalize hreceiver : w.receiver = receiver at hpoint
  cases hpoint with
  | level level lower upper =>
    have hstep : w.step? .check = some
        { w with receiver := if w.shutdown.value then .done (.ok ())
            else .transfers level head 0 after } := by
      simp only [step?, hp, receive?, hreceiver, if_true]
    exact ⟨.check, _, rfl, trivial, hstep⟩
  | transfers level offset lower upper =>
    obtain ⟨answer, hanswer⟩ := exists_isAnswer (refusals .transfers level offset.toNat)
      (Archive.page offset.toNat (a.transfersAt level))
    have ok : a.AnswersDespite refusals w (.transfersPage answer) := by
      intro _ _ _ _ hr
      obtain ⟨rfl, rfl, rfl, rfl⟩ := Receiver.transfers.inj (hreceiver.symm.trans hr)
      exact hanswer
    have hstep : w.step? (.transfersPage answer) =
        some (w.onTransfers level head offset after answer) := by
      simp only [step?, hp, receive?, hreceiver, if_true]
    exact ⟨_, _, rfl, ok, hstep⟩
  | updates level offset lower upper =>
    obtain ⟨answer, hanswer⟩ := exists_isAnswer (refusals .updates level offset.toNat)
      (Archive.page offset.toNat (a.updatesAt level))
    have ok : a.AnswersDespite refusals w (.updatesPage answer) := by
      intro _ _ _ _ hr
      obtain ⟨rfl, rfl, rfl, rfl⟩ := Receiver.updates.inj (hreceiver.symm.trans hr)
      exact hanswer
    have hstep : w.step? (.updatesPage answer) =
        some (w.onUpdates level head offset after answer) := by
      simp only [step?, hp, receive?, hreceiver, if_true]
    exact ⟨_, _, rfl, ok, hstep⟩

/-- As long as catching up is not over, one of the tasks can make a step. -/
theorem Underway.canMove (hw : Underway a refusals after line w) :
    w.receiver = after.point ∧ w.pending = [] ∨
      ∃ act v, act.isTask = true ∧ a.AnswersDespite refusals w act ∧ w.step? act = some v := by
  by_cases hpos : 0 < w.backlog
  · obtain ⟨act, v, ha, h, hlt, -⟩ := exists_backlog_lt hw.opened hpos
    right
    cases act with
    | send value =>
      cases h
      exact absurd hlt (Nat.lt_irrefl _)
    | dropSender =>
      cases h
      exact absurd hlt (Nat.lt_irrefl _)
    | enqueue | take | push _ | store _ | close =>
      refine ⟨_, v, ?_, ?_, h⟩
      · rfl
      · trivial
    | _ => exact absurd trivial ha
  · have hp : w.pending = [] := by
      unfold backlog at hpos
      exact List.length_eq_zero_iff.mp (by omega)
    rcases hw.stage with ⟨base, start, head, hreplay, -⟩ | ⟨hr, -⟩
    · exact .inr (exists_turn hp hreplay.point)
    · exact .inl ⟨hr, hp⟩

end Rank

section Whole

variable {stored : Option String} {shutdown : Shutdown}

/-- What is in line never runs ahead of what catching up will have put there. -/
theorem Underway.line_isPrefix (hw : Underway a refusals after line w) : w.inLine <+: line := by
  rcases hw.stage with ⟨base, start, head, hreplay, rfl⟩ | ⟨-, rfl⟩
  · exact hreplay.line_isPrefix.trans (List.prefix_append _ _)
  · exact List.prefix_rfl

/-- Nothing is left over when the head is asked for. -/
def Unburdened (w : Watcher) : Prop :=
  ∀ start after, w.receiver = .head start after → w.pending = []

theorem unburdened_resume (w : Watcher) (after : Resume) : (w.resume after).Unburdened := by
  cases after <;> nofun

theorem unburdened_nextLevel (w : Watcher) (level head : UInt64) (after : Resume) :
    (w.nextLevel level head after).Unburdened := by
  unfold nextLevel
  split
  · nofun
  · exact unburdened_resume w after

/-- The queue takes pending events from the front, and all else that the receiving task has no part
in leaves them alone. -/
theorem pending_isSuffix_of_not_receives (h : w.step? act = some v) (ha : ¬act.Receives) :
    v.pending <:+ w.pending := by
  cases act with
  | enqueue =>
    obtain ⟨e, rest, hp, -, rfl⟩ := enqueue_cases h
    rw [hp]
    exact List.suffix_cons e rest
  | take =>
    obtain ⟨e, rest, -, -, rfl⟩ := take_cases h
    exact List.suffix_rfl
  | push answer =>
    obtain ⟨e, -, rfl⟩ := push_cases h
    rcases onPush_cases w e answer with ⟨level, -, -, hpush⟩ | hpush <;>
      exact hpush ▸ List.suffix_rfl
  | store written =>
    obtain ⟨level, -, rfl⟩ := store_cases h
    exact List.suffix_rfl
  | close =>
    obtain ⟨-, -, -, -, rfl⟩ := close_cases h
    exact List.suffix_rfl
  | send value =>
    cases h
    exact List.suffix_rfl
  | dropSender =>
    cases h
    exact List.suffix_rfl
  | _ => exact absurd trivial ha

theorem Unburdened.of_not_receives (hw : w.Unburdened) (h : w.step? act = some v)
    (ha : ¬act.Receives) : v.Unburdened := by
  intro start after hr
  have hsame : v.receiver = w.receiver := congrArg Prod.fst (receiveSide_of_not_receives h ha)
  have hsuffix := pending_isSuffix_of_not_receives h ha
  rw [hw start after (hsame.symm.trans hr)] at hsuffix
  exact List.suffix_nil.mp hsuffix

theorem unburdened_onBatch (hp : w.pending = []) (hr : w.receiver = .listen)
    (answer : Except Hub.Error Batch) : (w.onBatch answer).Unburdened := by
  intro start after hhead
  cases answer with
  | error e => cases hhead
  | ok b =>
    cases hchannel : b.channel? with
    | none =>
      rw [onBatch_of_ignored w hchannel]
      exact hp
    | some channel =>
      rw [onBatch_of_channel w hchannel] at hhead ⊢
      unfold onEvents at hhead ⊢
      split at hhead
      · rename_i hfirst
        rw [if_pos hfirst]
        exact (pending_seen w channel).trans hp
      · have hseen : (w.seen channel).receiver = .head start after := hhead
        rw [receiver_seen, hr] at hseen
        cases hseen

theorem Unburdened.step (hw : w.Unburdened) (h : w.step? act = some v) : v.Unburdened := by
  by_cases ha : act.Receives
  case neg => exact hw.of_not_receives h ha
  cases act with
  | load answer =>
    obtain ⟨hp, -, rfl⟩ := load_cases h
    exact fun _ _ _ => hp
  | head answer =>
    obtain ⟨-, start, after, -, rfl⟩ := head_cases h
    unfold onHead
    split
    · split
      · nofun
      · exact unburdened_resume w after
    · exact unburdened_resume w after
  | check =>
    obtain ⟨hp, level, head, after, -, rfl⟩ := check_cases h
    exact fun _ _ _ => hp
  | transfersPage answer =>
    obtain ⟨-, level, head, offset, after, -, rfl⟩ := transfersPage_cases h
    unfold onTransfers
    split
    · intro _ _ hhead
      dsimp only at hhead
      split at hhead <;> cases hhead
    · nofun
  | updatesPage answer =>
    obtain ⟨-, level, head, offset, after, -, rfl⟩ := updatesPage_cases h
    unfold onUpdates
    split
    · dsimp only
      split
      · nofun
      · exact unburdened_nextLevel _ level head after
    · exact unburdened_nextLevel w level head after
  | subscribe answer =>
    obtain ⟨hp, -, rfl⟩ := subscribe_cases h
    exact fun _ _ _ => hp
  | notice =>
    obtain ⟨hp, -, rfl⟩ := notice_cases h
    exact fun _ _ _ => hp
  | batch answer =>
    obtain ⟨hp, hr, rfl⟩ := batch_cases h
    exact unburdened_onBatch hp hr answer
  | _ => exact ha.elim

theorem unburdened_of_run {before : List Action}
    (run : Run step? Anything (Watcher.start stored shutdown) before w) : w.Unburdened :=
  run.preserves (fun _ _ _ hw _ h => hw.step h) nofun

/-- Catching up, from the answer to the request for the head on, with an explorer that refuses any
of its requests: unless something says to stop, it comes to its end within a bounded number of
steps, and until then one of the tasks can make a step. At its end it has put in line, after what
was there before, the events of exactly the records that come before the first refused page of
their level and kind, level by level, transfers before updates, each by id. A head that is refused
or below the start brings none. -/
theorem refused_pages_cost_their_own_rest {before : List Action}
    (run : Run step? Anything (Watcher.start stored shutdown) before w)
    (hr : w.receiver = .head start after) (hgo : w.shutdown.value = false) (a : Archive)
    (refusals : Refusals) (answer : Except Http.Error UInt64) :
    let records := a.broughtDespite refusals start answer
    let whole := w.enqueued.reverse ++ records.filterMap Record.event? ++ after.events
    ∃ u, w.step? (.head answer) = some u ∧ ∃ bound, ∀ as v,
      Run step? (a.AnswersDespite refusals) u as v →
        as.countP Action.isTask ≤ bound ∧
        v.enqueued.reverse ++ v.pending <+: whole ∧
        (v.receiver = after.point → v.enqueued.reverse ++ v.pending = whole) ∧
        (v.receiver = after.point ∧ v.pending = [] ∨
          ∃ act x, act.isTask = true ∧ a.AnswersDespite refusals v act ∧
            v.step? act = some x) := by
  intro records whole
  have hp : w.pending = [] := unburdened_of_run run start after hr
  have hopened : w.consumer ≠ .done := by
    intro hdone
    obtain ⟨-, -, result, hover⟩ := (inOrder_of_run run).closed hdone
    cases hr.symm.trans hover
  have hstep : w.step? (.head answer) = some (w.onHead start after answer) := by
    simp only [step?, hp, receive?, hr, if_true]
  have hfirst := Underway.of_onHead hgo hopened a refusals start after answer
  have hline : w.inLine ++ records.filterMap Record.event? ++ after.events = whole := by
    rw [inLine, hp, List.append_nil]
  rw [hline] at hfirst
  refine ⟨_, hstep, toSettle (a.despite refusals).size (w.onHead start after answer), ?_⟩
  intro as v run'
  obtain ⟨hv, hbound⟩ := underway_of_run run' hfirst
  exact ⟨Nat.le_of_add_right_le hbound, hv.line_isPrefix, hv.line_of_point, hv.canMove⟩

/-- An explorer that refuses the transfers of level 5. -/
theorem refused_pages_cost_their_own_rest_two_levels :
    let a : Archive := { transfers := [mintRecord 1 5, mintRecord 2 6], updates := [] }
    let refusals : Refusals := fun channel level _ => channel = .transfers ∧ level = 5
    ∃ w u as v, Run step? Anything (Watcher.start (some "5") (.start false))
        [.load (some (some "5"))] w ∧
      w.step? (.head (.ok 6)) = some u ∧ Run step? (a.AnswersDespite refusals) u as v ∧
      v.receiver = .subscribe ∧ v.enqueued.reverse = transferEvents [mintRecord 2 6] ∧
      v.enqueued.reverse = (a.replayDespite refusals 5 6).filterMap Record.event? := by
  intro a refusals
  have runs : ∃ w u as v, Run step? Anything (Watcher.start (some "5") (.start false))
        [.load (some (some "5"))] w ∧ w.receiver = .head 5 .subscribe ∧
      w.shutdown.value = false ∧ w.enqueued = [] ∧
      w.step? (.head (.ok 6)) = some u ∧ Run step? (a.AnswersDespite refusals) u as v ∧
      v.receiver = .subscribe ∧ v.pending = [] ∧
      v.enqueued.reverse = transferEvents [mintRecord 2 6] := by
    refine ⟨_, _, [.check, .transfersPage (.error (.http "refused")), .updatesPage (.ok []), .check,
      .transfersPage (.ok [mintRecord 2 6]), .enqueue, .updatesPage (.ok [])], _,
      .single trivial rfl, rfl, rfl, rfl, rfl, .cons trivial rfl (.cons ?refused rfl
      (.cons ?none rfl (.cons trivial rfl (.cons ?transfers rfl (.cons trivial rfl
      (.cons ?updates rfl (.nil _))))))), rfl, rfl, rfl⟩
    case refused =>
      intro level head offset after hr
      obtain ⟨rfl, rfl, rfl, rfl⟩ := Receiver.transfers.inj hr
      exact ⟨_, rfl⟩
    case transfers =>
      intro level head offset after hr
      obtain ⟨rfl, rfl, rfl, rfl⟩ := Receiver.transfers.inj hr
      have hat : a.transfersAt 6 = [mintRecord 2 6] := by
        simp [a, Archive.transfersAt, mintRecord]
      show Except.ok [mintRecord 2 6] = .ok (Archive.page 0 (a.transfersAt 6))
      rw [hat]
      rfl
    all_goals
      intro level head offset after hr
      obtain ⟨rfl, rfl, rfl, rfl⟩ := Receiver.updates.inj hr
      simp [IsAnswer, refusals, a, Archive.updatesAt, Archive.page]
  obtain ⟨w, u, as, v, run, hr, hgo, hnone, hstep, run', hpoint, hpending, hline⟩ := runs
  obtain ⟨u', hstep', bound, hall⟩ :=
    refused_pages_cost_their_own_rest run hr hgo a refusals (.ok 6)
  obtain rfl := Option.some.inj (hstep.symm.trans hstep')
  obtain ⟨-, -, hwhole, -⟩ := hall as v run'
  refine ⟨w, u, as, v, run, hstep, run', hpoint, hline, ?_⟩
  have hend := hwhole hpoint
  rw [hpending, hnone] at hend
  simpa [Resume.events, Archive.broughtDespite] using hend

end Whole

end Watcher
end TokenWatch.Tezos
