import TokenWatch.Proofs.Tezos.Progress
import TokenWatch.Proofs.Tezos.Refusals

/-!
Catching up with an explorer that refuses some requests. It takes the steps that it would take with
a smaller explorer that refuses none.
-/
namespace TokenWatch.Tezos

def IsAnswer {α : Type} (refused : Bool) (page : List α) (answer : Except Http.Error (List α)) :
    Prop :=
  if refused then ∃ cause, answer = .error cause else answer = .ok page

theorem exists_isAnswer {α : Type} (refused : Bool) (page : List α) :
    ∃ answer, IsAnswer refused page answer := by
  cases refused with
  | true => exact ⟨.error (.http ""), .http "", rfl⟩
  | false => exact ⟨.ok page, rfl⟩

/-- The explorer answers from the archive all requests but the refused ones, and nothing says to
stop. What comes after catching up is left out. -/
def Archive.AnswersDespite (a : Archive) (refusals : Refusals) (w : Watcher) :
    Watcher.Action → Prop
  | .transfersPage answer =>
    ∀ level head offset after, w.receiver = .transfers level head offset after →
      IsAnswer (refusals .transfers level offset.toNat)
        (Archive.page offset.toNat (a.transfersAt level)) answer
  | .updatesPage answer =>
    ∀ level head offset after, w.receiver = .updates level head offset after →
      IsAnswer (refusals .updates level offset.toNat)
        (Archive.page offset.toNat (a.updatesAt level)) answer
  | .subscribe _ | .notice | .batch _ => False
  | .send value => value = false
  | _ => True

def Granted (refusals : Refusals) : Receiver → Prop
  | .transfers level _ offset _ =>
    ∃ k, offset.toNat = k * pageLimit ∧ ∀ j < k, refusals .transfers level (j * pageLimit) = false
  | .updates level _ offset _ =>
    ∃ k, offset.toNat = k * pageLimit ∧ ∀ j < k, refusals .updates level (j * pageLimit) = false
  | _ => True

namespace Watcher

variable {a : Archive} {refusals : Refusals} {base : List Event} {start level head : UInt64}
  {after : Resume} {w v : Watcher} {act : Action} {k : Nat} {offset : UInt64}

section Refused

/-- A request that is refused changes as much as one that brings nothing. -/
theorem onTransfers_error (hp : w.pending = []) (level head offset : UInt64)
    (after : Resume) (cause : Http.Error) :
    w.onTransfers level head offset after (.error cause) =
      w.onTransfers level head offset after (.ok []) := by
  cases w
  cases hp
  rfl

theorem onUpdates_error (hp : w.pending = []) (level head offset : UInt64)
    (after : Resume) (cause : Http.Error) :
    w.onUpdates level head offset after (.error cause) =
      w.onUpdates level head offset after (.ok []) := by
  cases w
  cases hp
  rfl

/-- An answer is what the smaller archive has, or as good as that. -/
theorem page_of_isAnswer {α : Type} {refused : Nat → Bool} {rs : List α}
    {answer : Except Http.Error (List α)} (granted : ∀ j < k, refused (j * pageLimit) = false)
    (h : IsAnswer (refused (k * pageLimit)) (Archive.page (k * pageLimit) rs) answer) :
    (∃ cause, answer = .error cause) ∧
        Archive.page (k * pageLimit) (Archive.untilRefusal refused rs) = [] ∨
      answer = .ok (Archive.page (k * pageLimit) (Archive.untilRefusal refused rs)) ∧
        ∀ j < k + 1, refused (j * pageLimit) = false := by
  unfold IsAnswer at h
  cases hrefused : refused (k * pageLimit) with
  | true =>
    rw [hrefused] at h
    exact .inl ⟨h, Archive.page_untilRefusal_of_refused hrefused⟩
  | false =>
    have hall : ∀ j ≤ k, refused (j * pageLimit) = false := by
      intro j hj
      rcases Nat.lt_or_eq_of_le hj with hlt | rfl
      · exact granted j hlt
      · exact hrefused
    rw [hrefused] at h
    rw [Archive.page_untilRefusal hall]
    exact .inr ⟨h, fun j hj => hall j (Nat.le_of_lt_succ hj)⟩

theorem granted_resume (w : Watcher) (after : Resume) :
    Granted refusals (w.resume after).receiver := by
  cases after <;> trivial

theorem granted_nextLevel (w : Watcher) (level head : UInt64) (after : Resume) :
    Granted refusals (w.nextLevel level head after).receiver := by
  unfold nextLevel
  split
  · trivial
  · exact granted_resume w after

theorem onTransfers_despite {answer : Except Http.Error (List TransferRecord)}
    (hp : w.pending = []) (hoffset : offset.toNat = k * pageLimit)
    (granted : ∀ j < k, refusals .transfers level (j * pageLimit) = false)
    (h : IsAnswer (refusals .transfers level offset.toNat)
      (Archive.page offset.toNat (a.transfersAt level)) answer)
    (head : UInt64) (after : Resume) :
    let v := w.onTransfers level head offset after answer
    v = w.onTransfers level head offset after
        (.ok (Archive.page offset.toNat ((a.despite refusals).transfersAt level))) ∧
      Granted refusals v.receiver := by
  have fits := (a.despite refusals).length_transfersAt_lt level
  rw [hoffset] at h
  rw [Archive.transfersAt_despite] at fits ⊢
  rcases page_of_isAnswer granted h with ⟨⟨cause, rfl⟩, hnone⟩ | ⟨rfl, hmore⟩
  · rw [hoffset, hnone]
    exact ⟨onTransfers_error hp level head _ after cause, 0, rfl, nofun⟩
  · rw [← hoffset]
    refine ⟨rfl, ?_⟩
    simp only [onTransfers]
    split
    · rename_i hfull
      have hnext := Archive.toNat_nextPage fits hfull
      exact ⟨k + 1, by rw [hnext, hoffset, Nat.succ_mul], hmore⟩
    · exact ⟨0, rfl, nofun⟩

theorem onUpdates_despite {answer : Except Http.Error (List UpdateRecord)}
    (hp : w.pending = []) (hoffset : offset.toNat = k * pageLimit)
    (granted : ∀ j < k, refusals .updates level (j * pageLimit) = false)
    (h : IsAnswer (refusals .updates level offset.toNat)
      (Archive.page offset.toNat (a.updatesAt level)) answer)
    (head : UInt64) (after : Resume) :
    let v := w.onUpdates level head offset after answer
    v = w.onUpdates level head offset after
        (.ok (Archive.page offset.toNat ((a.despite refusals).updatesAt level))) ∧
      Granted refusals v.receiver := by
  have fits := (a.despite refusals).length_updatesAt_lt level
  rw [hoffset] at h
  rw [Archive.updatesAt_despite] at fits ⊢
  rcases page_of_isAnswer granted h with ⟨⟨cause, rfl⟩, hnone⟩ | ⟨rfl, hmore⟩
  · rw [hoffset, hnone]
    exact ⟨onUpdates_error hp level head _ after cause, granted_nextLevel w level head after⟩
  · rw [← hoffset]
    refine ⟨rfl, ?_⟩
    simp only [onUpdates]
    split
    · rename_i hfull
      have hnext := Archive.toNat_nextPage fits hfull
      exact ⟨k + 1, by rw [hnext, hoffset, Nat.succ_mul], hmore⟩
    · exact granted_nextLevel _ level head after

end Refused

section Turn

variable {b : Archive}

/-- What the receiving task does in one step of catching up, with an explorer that answers from an
archive. -/
inductive Turn (b : Archive) (head : UInt64) (after : Resume) (w : Watcher) : Watcher → Prop where
  | check {level : UInt64} (point : w.receiver = .level level head after) :
      Turn b head after w { w with receiver := .transfers level head 0 after }
  | transfers {level offset : UInt64}
      (point : w.receiver = .transfers level head offset after) :
      Turn b head after w
        (w.onTransfers level head offset after
          (.ok (Archive.page offset.toNat (b.transfersAt level))))
  | updates {level offset : UInt64}
      (point : w.receiver = .updates level head offset after) :
      Turn b head after w
        (w.onUpdates level head offset after (.ok (Archive.page offset.toNat (b.updatesAt level))))

/-- Refusals make no other steps than the smaller archive does. -/
theorem turn_of_receives (hpoint : w.receiver.Replays start head after)
    (hgranted : Granted refusals w.receiver) (hgo : w.shutdown.value = false)
    (ok : a.AnswersDespite refusals w act) (h : w.step? act = some v) (ha : act.Receives) :
    w.pending = [] ∧ Turn (a.despite refusals) head after w v ∧ Granted refusals v.receiver := by
  have htakes := takes_of_receives ha h
  generalize hreceiver : w.receiver = receiver at hpoint hgranted htakes
  cases hpoint with
  | level level lower upper =>
    cases act with
    | check =>
      obtain ⟨hp, _, _, _, hr, rfl⟩ := check_cases h
      cases hreceiver.symm.trans hr
      rw [hgo]
      exact ⟨hp, .check hr, 0, (Nat.zero_mul _).symm, nofun⟩
    | _ => exact htakes.elim
  | transfers level offset lower upper =>
    cases act with
    | transfersPage answer =>
      obtain ⟨hp, _, _, _, _, hr, rfl⟩ := transfersPage_cases h
      cases hreceiver.symm.trans hr
      obtain ⟨k, hoffset, hbefore⟩ := hgranted
      obtain ⟨heq, hnext⟩ := onTransfers_despite hp hoffset hbefore
        (ok level head _ after hr) head after
      rw [heq] at hnext ⊢
      exact ⟨hp, .transfers hr, hnext⟩
    | _ => exact htakes.elim
  | updates level offset lower upper =>
    cases act with
    | updatesPage answer =>
      obtain ⟨hp, _, _, _, _, hr, rfl⟩ := updatesPage_cases h
      cases hreceiver.symm.trans hr
      obtain ⟨k, hoffset, hbefore⟩ := hgranted
      obtain ⟨heq, hnext⟩ := onUpdates_despite hp hoffset hbefore
        (ok level head _ after hr) head after
      rw [heq] at hnext ⊢
      exact ⟨hp, .updates hr, hnext⟩
    | _ => exact htakes.elim

theorem Turn.kept (t : Turn b head after w v) : v.kept = w.kept := by
  cases t with
  | check point => rfl
  | transfers point => exact kept_onTransfers w _ head _ after _
  | updates point => exact kept_onUpdates w _ head _ after _

theorem Turn.replaying (t : Turn b head after w v) (hp : w.pending = [])
    (hw : Replaying b base start head after w) :
    Replaying b base start head after v ∨ Resumed b base start head after v := by
  have hpoint := hw.point
  have hline := hw.line
  cases t with
  | check point =>
    rw [point] at hpoint hline
    cases hpoint with
    | level _ lower upper =>
      refine .inl ⟨.transfers _ 0 lower upper, ?_⟩
      show w.inLine = _
      rw [hline]
      simp [Archive.replayedAt]
  | transfers point =>
    rw [point] at hpoint hline
    cases hpoint with
    | transfers _ _ lower upper =>
      exact .inl (replaying_onTransfers lower upper hp hline)
  | updates point =>
    rw [point] at hpoint hline
    cases hpoint with
    | updates _ _ lower upper => exact replaying_onUpdates lower upper hp hline

end Turn

section Underway

variable {line : List Event}

/-- Catching up is under way or over, and when it is over the events of `line` are in line. -/
structure Underway (a : Archive) (refusals : Refusals) (after : Resume) (line : List Event)
    (w : Watcher) : Prop where
  stage : (∃ base start head, Replaying (a.despite refusals) base start head after w ∧
      line = base ++ ((a.despite refusals).replay start head).filterMap Record.event? ++
        after.events) ∨
    w.receiver = after.point ∧ w.inLine = line
  granted : Granted refusals w.receiver
  going : w.shutdown.value = false
  opened : w.consumer ≠ .done

theorem Underway.line_of_point (hw : Underway a refusals after line w)
    (hr : w.receiver = after.point) : w.inLine = line := by
  rcases hw.stage with ⟨base, start, head, hreplay, -⟩ | ⟨-, hline⟩
  · have hpoint := hreplay.point
    rw [hr] at hpoint
    cases after <;> cases hpoint
  · exact hline

/-- Past the point after catching up nothing is allowed that the receiving task would take. -/
theorem not_receives_of_point (hr : w.receiver = after.point)
    (ok : a.AnswersDespite refusals w act) (h : w.step? act = some v) : ¬act.Receives := by
  intro ha
  have htakes := takes_of_receives ha h
  rw [hr] at htakes
  cases after <;> cases act <;> first | exact htakes.elim | exact ok.elim

/-- A step is one of catching up, or one that the receiving task has no part in. -/
theorem Underway.cases (hw : Underway a refusals after line w)
    (ok : a.AnswersDespite refusals w act) (h : w.step? act = some v) :
    (∃ base start head, Replaying (a.despite refusals) base start head after w ∧
        line = base ++ ((a.despite refusals).replay start head).filterMap Record.event? ++
          after.events ∧
        w.pending = [] ∧ Turn (a.despite refusals) head after w v ∧
        Granted refusals v.receiver) ∨
      ¬act.Receives := by
  by_cases ha : act.Receives
  · rcases hw.stage with ⟨base, start, head, hreplay, hline⟩ | ⟨hr, -⟩
    · have hturn := turn_of_receives hreplay.point hw.granted hw.going ok h ha
      exact .inl ⟨base, start, head, hreplay, hline, hturn⟩
    · exact absurd ha (not_receives_of_point hr ok h)
  · exact .inr ha

/-- The pushing task does not end before the receiving task does, and nothing says to stop that was
not sent. -/
theorem opened_of_not_receives (hr : ∀ result, w.receiver ≠ .done result)
    (hc : w.consumer ≠ .done) (hgo : w.shutdown.value = false)
    (ok : a.AnswersDespite refusals w act) (h : w.step? act = some v) (ha : ¬act.Receives) :
    v.shutdown.value = false ∧ v.consumer ≠ .done := by
  cases act with
  | enqueue =>
    obtain ⟨e, rest, -, -, rfl⟩ := enqueue_cases h
    exact ⟨hgo, hc⟩
  | take =>
    obtain ⟨e, rest, -, -, rfl⟩ := take_cases h
    exact ⟨hgo, nofun⟩
  | push answer =>
    obtain ⟨e, -, rfl⟩ := push_cases h
    rcases onPush_cases w e answer with ⟨level, -, -, hpush⟩ | hpush <;> rw [hpush] <;>
      exact ⟨hgo, nofun⟩
  | store written =>
    obtain ⟨level, -, rfl⟩ := store_cases h
    exact ⟨hgo, nofun⟩
  | close =>
    obtain ⟨⟨result, hdone⟩, -⟩ := close_cases h
    exact absurd hdone (hr result)
  | send value =>
    cases h
    exact ⟨ok, hc⟩
  | dropSender =>
    cases h
    exact ⟨hgo, hc⟩
  | _ => exact absurd trivial ha

theorem Underway.ne_done (hw : Underway a refusals after line w) (result : Except Hub.Error Unit) :
    w.receiver ≠ .done result := by
  intro hdone
  rcases hw.stage with ⟨base, start, head, hreplay, -⟩ | ⟨hr, -⟩
  · have hpoint := hreplay.point
    rw [hdone] at hpoint
    cases hpoint
  · rw [hdone] at hr
    cases after <;> cases hr

theorem Underway.step (hw : Underway a refusals after line w)
    (ok : a.AnswersDespite refusals w act) (h : w.step? act = some v) :
    Underway a refusals after line v := by
  rcases hw.cases ok h with ⟨base, start, head, hreplay, hline, hp, hturn, hgranted⟩ | ha
  · -- Catching up itself leaves the other task and the shutdown channel alone.
    have hkept := hturn.kept
    simp only [kept, pushSide, Prod.mk.injEq] at hkept
    obtain ⟨-, hvalue, -, hconsumer, -⟩ := hkept
    refine ⟨?_, hgranted, hvalue.trans hw.going, hconsumer ▸ hw.opened⟩
    rcases hturn.replaying hp hreplay with hnext | hover
    · exact .inl ⟨base, start, head, hnext, hline⟩
    · exact .inr ⟨hover.point, hover.line.trans hline.symm⟩
  · have hside := receiveSide_of_not_receives h ha
    obtain ⟨hgo, hopened⟩ := opened_of_not_receives hw.ne_done hw.opened hw.going ok h ha
    have hr : v.receiver = w.receiver := congrArg Prod.fst hside
    have hin : v.inLine = w.inLine := congrArg (·.2.2.2) hside
    refine ⟨?_, hr ▸ hw.granted, hgo, hopened⟩
    rcases hw.stage with ⟨base, start, head, hreplay, hline⟩ | ⟨hpoint, hline⟩
    · exact .inl ⟨base, start, head, hreplay.of_receiveSide hside, hline⟩
    · exact .inr ⟨hr.trans hpoint, hin.trans hline⟩

/-- With the answer about the head it is settled what will be in line. -/
theorem Underway.of_onHead (hgo : w.shutdown.value = false) (hc : w.consumer ≠ .done) (a : Archive)
    (refusals : Refusals) (start : UInt64) (after : Resume) (answer : Except Http.Error UInt64) :
    Underway a refusals after
      (w.inLine ++ (a.broughtDespite refusals start answer).filterMap Record.event? ++ after.events)
      (w.onHead start after answer) := by
  have hkept := kept_onHead w start after answer
  simp only [kept, pushSide, Prod.mk.injEq] at hkept
  obtain ⟨-, hvalue, -, hconsumer, -⟩ := hkept
  have hgranted : Granted refusals (w.onHead start after answer).receiver := by
    unfold onHead
    split
    · split
      · trivial
      · exact granted_resume w after
    · exact granted_resume w after
  refine ⟨?_, hgranted, hvalue.trans hgo, hconsumer ▸ hc⟩
  cases answer with
  | error cause =>
    refine .inr ⟨resume_receiver w after, ?_⟩
    show (w.resume after).inLine = _
    rw [resume_inLine]
    simp [Archive.broughtDespite]
  | ok head =>
    have hbrought : (a.broughtDespite refusals start (.ok head)) =
        (a.despite refusals).replay start head :=
      (Archive.replay_despite a refusals start head).symm
    rw [hbrought]
    rcases replaying_onHead (a := a.despite refusals) w start head after with hreplay | hover
    · exact .inl ⟨w.inLine, start, head, hreplay, rfl⟩
    · exact .inr ⟨hover.point, hover.line⟩

end Underway

end Watcher
end TokenWatch.Tezos
