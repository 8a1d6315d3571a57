import TokenWatch.Proofs.Tezos.Archive
import TokenWatch.Proofs.Tezos.Delivery

/-!
Catching up with an explorer that answers every request from one archive: it replays all records
of the levels up to the head, in order, and then goes on as it was meant to.
-/
namespace TokenWatch.Tezos

/-- The store answers with what stands in it, and the explorer answers from the archive. -/
def Archive.Answers (a : Archive) (w : Watcher) : Watcher.Action → Prop
  | .load answer => answer = some w.stored
  | .head answer => ∃ head, answer = .ok head
  | .transfersPage answer =>
    ∀ level head offset after, w.receiver = .transfers level head offset after →
      answer = .ok (Archive.page offset.toNat (a.transfersAt level))
  | .updatesPage answer =>
    ∀ level head offset after, w.receiver = .updates level head offset after →
      answer = .ok (Archive.page offset.toNat (a.updatesAt level))
  | _ => True

def Resume.point : Resume → Receiver
  | .subscribe => .subscribe
  | .batch _ => .listen

/-- The events that were put off until catching up is over. -/
def Resume.events : Resume → List Event
  | .subscribe => []
  | .batch events => events

inductive Receiver.Replays (start head : UInt64) (after : Resume) : Receiver → Prop where
  | level (level : UInt64) (lower : start ≤ level) (upper : level ≤ head) :
      Replays start head after (.level level head after)
  | transfers (level offset : UInt64) (lower : start ≤ level) (upper : level ≤ head) :
      Replays start head after (.transfers level head offset after)
  | updates (level offset : UInt64) (lower : start ≤ level) (upper : level ≤ head) :
      Replays start head after (.updates level head offset after)

/-- The records that catching up from `start` has replayed when it has come to a point. -/
def Archive.replayedAt (a : Archive) (start : UInt64) : Receiver → List Record
  | .level level _ _ => a.span start.toNat level.toNat
  | .transfers level _ offset _ =>
    a.span start.toNat level.toNat ++ ((a.transfersAt level).take offset.toNat).map .transfer
  | .updates level _ offset _ =>
    a.span start.toNat level.toNat ++
      ((a.transfersAt level).map .transfer ++ ((a.updatesAt level).take offset.toNat).map .update)
  | _ => []

namespace Watcher

variable {a : Archive} {base : List Event} {start level head : UInt64} {after : Resume}
  {w v : Watcher} {act : Action}

structure Replaying (a : Archive) (base : List Event) (start head : UInt64) (after : Resume)
    (w : Watcher) : Prop where
  point : w.receiver.Replays start head after
  line : w.inLine = base ++ (a.replayedAt start w.receiver).filterMap Record.event?

/-- Catching up is over, and what was put off follows its records. -/
structure Resumed (a : Archive) (base : List Event) (start head : UInt64) (after : Resume)
    (w : Watcher) : Prop where
  point : w.receiver = after.point
  line : w.inLine = base ++ (a.replay start head).filterMap Record.event? ++ after.events

theorem replayedAt_prefix_replay (a : Archive) {receiver : Receiver}
    (h : receiver.Replays start head after) :
    a.replayedAt start receiver <+: a.replay start head := by
  have whole : ∀ level : UInt64, start ≤ level → level ≤ head →
      a.span start.toNat level.toNat ++ a.recordsAt level <+: a.replay start head := by
    intro level lower upper
    rw [← a.span_succ (UInt64.le_iff_toNat_le.mp lower)]
    exact Archive.span_mono (Nat.succ_le_succ (UInt64.le_iff_toNat_le.mp upper))
  cases h with
  | level level lower upper =>
    exact (List.prefix_append _ _).trans (whole level lower upper)
  | transfers level offset lower upper =>
    refine List.IsPrefix.trans ?_ (whole level lower upper)
    apply (List.prefix_append_right_inj _).mpr
    exact ((List.take_prefix offset.toNat _).map _).trans (List.prefix_append _ _)
  | updates level offset lower upper =>
    refine List.IsPrefix.trans ?_ (whole level lower upper)
    apply (List.prefix_append_right_inj _).mpr
    apply (List.prefix_append_right_inj _).mpr
    exact (List.take_prefix offset.toNat _).map _

@[simp] theorem resume_receiver (w : Watcher) (after : Resume) :
    (w.resume after).receiver = after.point := by
  cases after <;> rfl

@[simp] theorem resume_inLine (w : Watcher) (after : Resume) :
    (w.resume after).inLine = w.inLine ++ after.events := by
  cases after with
  | subscribe => exact (List.append_nil _).symm
  | batch events => exact (List.append_assoc _ _ _).symm

theorem resumed_resume (hline : w.inLine = base ++ (a.replay start head).filterMap Record.event?) :
    Resumed a base start head after (w.resume after) :=
  ⟨resume_receiver w after, by rw [resume_inLine, hline]⟩

theorem replaying_nextLevel (lower : start ≤ level) (upper : level ≤ head)
    (hline : w.inLine =
      base ++ (a.span start.toNat (level.toNat + 1)).filterMap Record.event?) :
    Replaying a base start head after (w.nextLevel level head after) ∨
      Resumed a base start head after (w.nextLevel level head after) := by
  unfold nextLevel
  split
  · rename_i hlt
    have hnext := toNat_level_add_one hlt
    left
    refine ⟨.level (level + 1) ?_ ?_, ?line⟩
    case line =>
      show w.inLine = base ++ (a.span start.toNat (level + 1).toNat).filterMap Record.event?
      rw [hnext, hline]
    · rw [UInt64.le_iff_toNat_le] at lower ⊢
      omega
    · rw [UInt64.lt_iff_toNat_lt] at hlt
      rw [UInt64.le_iff_toNat_le]
      omega
  · rename_i hlt
    have heq : level = head := UInt64.le_antisymm upper (UInt64.not_lt.mp hlt)
    right
    exact resumed_resume (heq ▸ hline)

/-- The answer with the head starts catching up, which may be over at once. -/
theorem replaying_onHead (w : Watcher) (start head : UInt64) (after : Resume) :
    Replaying a w.inLine start head after (w.onHead start after (.ok head)) ∨
      Resumed a w.inLine start head after (w.onHead start after (.ok head)) := by
  simp only [onHead]
  split
  · rename_i hle
    left
    refine ⟨.level start (UInt64.le_refl start) hle, ?_⟩
    show w.inLine = w.inLine ++ (a.span start.toNat start.toNat).filterMap Record.event?
    rw [Archive.span_of_le (Nat.le_refl _), List.filterMap_nil, List.append_nil]
  · rename_i hlt
    right
    have hlt := UInt64.lt_iff_toNat_lt.mp (UInt64.not_le.mp hlt)
    apply resumed_resume
    rw [Archive.replay, Archive.span_of_le hlt, List.filterMap_nil, List.append_nil]

theorem replaying_onTransfers {offset : UInt64} (lower : start ≤ level) (upper : level ≤ head)
    (hp : w.pending = [])
    (hline : w.inLine = base ++
      (a.replayedAt start (.transfers level head offset after)).filterMap Record.event?) :
    Replaying a base start head after
      (w.onTransfers level head offset after
        (.ok (Archive.page offset.toNat (a.transfersAt level)))) := by
  let page := Archive.page offset.toNat (a.transfersAt level)
  have hall : (w.onTransfers level head offset after (.ok page)).inLine =
      base ++ (a.span start.toNat level.toNat ++
        ((a.transfersAt level).take offset.toNat ++ page).map Record.transfer).filterMap
          Record.event? := by
    have hin : (w.onTransfers level head offset after (.ok page)).inLine =
        w.inLine ++ transferEvents page := by
      simp [onTransfers, inLine, hp]
    rw [hin, hline]
    simp only [Archive.replayedAt, List.map_append, List.filterMap_append,
      filterMap_event?_transfer, List.append_assoc]
  by_cases hfull : pageLimit ≤ page.length
  · have hr : (w.onTransfers level head offset after (.ok page)).receiver =
        .transfers level head (nextPage offset) after := if_pos hfull
    refine ⟨hr ▸ .transfers level (nextPage offset) lower upper, ?_⟩
    rw [hall, hr, Archive.take_append_page_of_full (a.length_transfersAt_lt level) hfull]
    rfl
  · have hr : (w.onTransfers level head offset after (.ok page)).receiver =
        .updates level head 0 after := if_neg hfull
    refine ⟨hr ▸ .updates level 0 lower upper, ?_⟩
    rw [hall, hr, Archive.take_append_page_of_short hfull]
    simp [Archive.replayedAt]

theorem replaying_onUpdates {offset : UInt64} (lower : start ≤ level) (upper : level ≤ head)
    (hp : w.pending = [])
    (hline : w.inLine = base ++
      (a.replayedAt start (.updates level head offset after)).filterMap Record.event?) :
    let answer := .ok (Archive.page offset.toNat (a.updatesAt level))
    Replaying a base start head after (w.onUpdates level head offset after answer) ∨
      Resumed a base start head after (w.onUpdates level head offset after answer) := by
  let page := Archive.page offset.toNat (a.updatesAt level)
  have hall : ({ w with pending := updateEvents page } : Watcher).inLine =
      base ++ (a.span start.toNat level.toNat ++ ((a.transfersAt level).map Record.transfer ++
        ((a.updatesAt level).take offset.toNat ++ page).map Record.update)).filterMap
          Record.event? := by
    have hin : ({ w with pending := updateEvents page } : Watcher).inLine =
        w.inLine ++ updateEvents page := by
      simp [inLine, hp]
    rw [hin, hline]
    simp only [Archive.replayedAt, List.map_append, List.filterMap_append,
      filterMap_event?_update, List.append_assoc]
  intro answer
  show Replaying a base start head after (w.onUpdates level head offset after (.ok page)) ∨
    Resumed a base start head after (w.onUpdates level head offset after (.ok page))
  unfold onUpdates
  dsimp only
  split
  · rename_i hfull
    left
    refine ⟨.updates level (nextPage offset) lower upper, ?_⟩
    rw [Archive.take_append_page_of_full (a.length_updatesAt_lt level) hfull] at hall
    exact hall
  · rename_i hshort
    rw [Archive.take_append_page_of_short hshort] at hall
    apply replaying_nextLevel lower upper
    rw [a.span_succ (UInt64.le_iff_toNat_le.mp lower)]
    exact hall

/-- Steps of the other task do not matter. -/
theorem Replaying.of_receiveSide (hw : Replaying a base start head after w)
    (h : v.receiveSide = w.receiveSide) : Replaying a base start head after v := by
  simp only [receiveSide, Prod.mk.injEq] at h
  obtain ⟨hr, -, -, hv⟩ := h
  constructor
  · rw [hr]
    exact hw.point
  · rw [hr, hv]
    exact hw.line

theorem Replaying.step (hw : Replaying a base start head after w) (ok : a.Answers w act)
    (h : w.step? act = some v) :
    Replaying a base start head after v ∨ Resumed a base start head after v ∨
      v.receiver = .done (.ok ()) ∧ v.inLine = w.inLine := by
  have hpoint := hw.point
  have hline := hw.line
  by_cases ha : act.Receives
  case neg => exact .inl (hw.of_receiveSide (receiveSide_of_not_receives h ha))
  have htakes := takes_of_receives ha h
  generalize hreceiver : w.receiver = receiver at hpoint hline htakes
  cases hpoint with
  | level level lower upper =>
    cases act with
    | check =>
      obtain ⟨-, _, _, _, hr, rfl⟩ := check_cases h
      cases hreceiver.symm.trans hr
      cases hstop : w.shutdown.value with
      | true => exact .inr (.inr ⟨rfl, rfl⟩)
      | false =>
        refine .inl ⟨.transfers level 0 lower upper, ?_⟩
        show w.inLine = _
        rw [hline]
        simp [Archive.replayedAt]
    | _ => exact htakes.elim
  | transfers level offset lower upper =>
    cases act with
    | transfersPage answer =>
      obtain ⟨hp, _, _, _, _, hr, rfl⟩ := transfersPage_cases h
      cases hreceiver.symm.trans hr
      obtain rfl := ok level head offset after hr
      exact .inl (replaying_onTransfers lower upper hp hline)
    | _ => exact htakes.elim
  | updates level offset lower upper =>
    cases act with
    | updatesPage answer =>
      obtain ⟨hp, _, _, _, _, hr, rfl⟩ := updatesPage_cases h
      cases hreceiver.symm.trans hr
      obtain rfl := ok level head offset after hr
      rcases replaying_onUpdates lower upper hp hline with hreplay | hresume
      · exact .inl hreplay
      · exact .inr (.inl hresume)
    | _ => exact htakes.elim

def Action.head? : Action → Option UInt64
  | .head (.ok head) => some head
  | _ => none

/-- The batch that comes. -/
def Action.batch? : Action → Option Batch
  | .batch (.ok b) => some b
  | _ => none

def Action.Quiet (act : Action) : Prop := ∀ b, act.batch? = some b → b.channel? = none

theorem head?_of_not_receives (ha : ¬act.Receives) : act.head? = none := by
  cases act <;> first | rfl | exact absurd trivial ha

theorem eq_head_of_head? (h : act.head? = some head) : act = .head (.ok head) := by
  unfold Action.head? at h
  split at h
  · cases h
    rfl
  · cases h

theorem quiet_of_not_receives (ha : ¬act.Receives) : act.Quiet := by
  cases act <;> first | exact absurd trivial ha | exact fun _ hb => by cases hb

/-- Catching up after the events of `base`, from the request for the head to the next batch of
records. The list has the head once it is known. -/
inductive CatchingUp (a : Archive) (base : List Event) (start : UInt64) (after : Resume) :
    List UInt64 → Watcher → Prop where
  | asking {w : Watcher} (point : w.receiver = .head start after) (line : w.inLine = base) :
      CatchingUp a base start after [] w
  | replaying {w : Watcher} (head : UInt64) (replaying : Replaying a base start head after w) :
      CatchingUp a base start after [head] w
  | caughtUp {w : Watcher} (head : UInt64)
      (point : w.receiver = .subscribe ∨ w.receiver = .listen)
      (line : w.inLine = base ++ (a.replay start head).filterMap Record.event? ++ after.events) :
      CatchingUp a base start after [head] w
  | stopped {w : Watcher} (head : UInt64) (result : Except Hub.Error Unit)
      (point : w.receiver = .done result)
      (line : w.inLine <+: base ++ (a.replay start head).filterMap Record.event? ++ after.events) :
      CatchingUp a base start after [head] w

variable {heads : List UInt64} {result : Except Hub.Error Unit}

theorem Replaying.line_isPrefix (hw : Replaying a base start head after w) :
    w.inLine <+: base ++ (a.replay start head).filterMap Record.event? := by
  rw [hw.line]
  exact (List.prefix_append_right_inj base).mpr
    ((replayedAt_prefix_replay a hw.point).filterMap Record.event?)

theorem CatchingUp.point_of_unseen (hw : CatchingUp a base start after [] w) :
    w.receiver = .head start after := by
  cases hw with
  | asking point line => exact point

theorem CatchingUp.seen_length (hw : CatchingUp a base start after heads w) :
    heads.length ≤ 1 := by
  cases hw <;> simp

theorem CatchingUp.of_resumed (hw : Resumed a base start head after w) :
    CatchingUp a base start after [head] w := by
  refine .caughtUp head ?_ hw.line
  rw [hw.point]
  cases after with
  | subscribe => exact .inl rfl
  | batch events => exact .inr rfl

theorem CatchingUp.of_onHead (w : Watcher) (start head : UInt64) (after : Resume) :
    CatchingUp a w.inLine start after [head] (w.onHead start after (.ok head)) := by
  rcases replaying_onHead w start head after with hreplay | hresume
  · exact .replaying head hreplay
  · exact .of_resumed hresume

theorem CatchingUp.of_receiveSide (hw : CatchingUp a base start after heads w)
    (h : v.receiveSide = w.receiveSide) : CatchingUp a base start after heads v := by
  have hside := h
  simp only [receiveSide, Prod.mk.injEq] at hside
  obtain ⟨hr, -, -, hv⟩ := hside
  cases hw with
  | asking point line => exact .asking (hr.trans point) (hv.trans line)
  | replaying head replaying => exact .replaying head (replaying.of_receiveSide h)
  | caughtUp head point line => exact .caughtUp head (by rwa [hr]) (hv.trans line)
  | stopped head result point line => exact .stopped head result (hr.trans point) (by rwa [hv])

/-- Between catching up and the next batch of records nothing gets in line. -/
theorem waiting_step (hr : w.receiver = .subscribe ∨ w.receiver = .listen)
    (h : w.step? act = some v) (ha : act.Receives) (hq : act.Quiet) :
    act.head? = none ∧ v.inLine = w.inLine ∧
      (v.receiver = .subscribe ∨ v.receiver = .listen ∨ ∃ result, v.receiver = .done result) := by
  have htakes := takes_of_receives ha h
  rcases hr with hr | hr <;> rw [hr] at htakes
  · cases act with
    | subscribe answer =>
      obtain ⟨-, -, rfl⟩ := subscribe_cases h
      cases answer with
      | ok => exact ⟨rfl, rfl, .inr (.inl rfl)⟩
      | error e => exact ⟨rfl, rfl, .inr (.inr ⟨.error e, rfl⟩)⟩
    | _ => exact htakes.elim
  · cases act with
    | notice =>
      obtain ⟨-, -, rfl⟩ := notice_cases h
      cases hstop : w.shutdown.notice.2 with
      | true => exact ⟨rfl, rfl, .inr (.inr ⟨.ok (), rfl⟩)⟩
      | false => exact ⟨rfl, rfl, .inr (.inl rfl)⟩
    | batch answer =>
      obtain ⟨-, -, rfl⟩ := batch_cases h
      cases answer with
      | error e => exact ⟨rfl, rfl, .inr (.inr ⟨.error e, rfl⟩)⟩
      | ok batch =>
        rw [onBatch_of_ignored w (hq batch rfl)]
        exact ⟨rfl, rfl, .inr (.inl hr)⟩
    | _ => exact htakes.elim

theorem CatchingUp.step (hw : CatchingUp a base start after heads w) (ok : a.Answers w act)
    (h : w.step? act = some v) (hq : act.Quiet) :
    CatchingUp a base start after (heads ++ act.head?.toList) v := by
  by_cases ha : act.Receives
  case neg =>
    rw [head?_of_not_receives ha, Option.toList_none, List.append_nil]
    exact hw.of_receiveSide (receiveSide_of_not_receives h ha)
  have htakes := takes_of_receives ha h
  cases hw with
  | asking point line =>
    rw [point] at htakes
    cases act with
    | head answer =>
      obtain ⟨head, rfl⟩ := ok
      obtain ⟨hp, _, _, hr, rfl⟩ := head_cases h
      cases point.symm.trans hr
      rw [← line]
      exact .of_onHead w start head after
    | _ => exact htakes.elim
  | replaying head replaying =>
    have hnone : act.head? = none := by
      have hpoint := replaying.point
      generalize w.receiver = receiver at hpoint htakes
      cases hpoint <;> cases act <;> first | rfl | exact htakes.elim
    rw [hnone, Option.toList_none, List.append_nil]
    rcases replaying.step ok h with hreplay | hresume | ⟨hdone, hline⟩
    · exact .replaying head hreplay
    · exact .of_resumed hresume
    · refine .stopped head (.ok ()) hdone ?_
      rw [hline]
      exact replaying.line_isPrefix.trans (List.prefix_append _ _)
  | caughtUp head point line =>
    obtain ⟨hnone, hline, hr⟩ := waiting_step point h ha hq
    rw [hnone, Option.toList_none, List.append_nil]
    rcases hr with hr | hr | ⟨result, hr⟩
    · exact .caughtUp head (.inl hr) (hline.trans line)
    · exact .caughtUp head (.inr hr) (hline.trans line)
    · exact .stopped head result hr (hline.trans line ▸ List.prefix_rfl)
  | stopped head result point line =>
    rw [point] at htakes
    cases act <;> exact htakes.elim

end Watcher
end TokenWatch.Tezos
