import TokenWatch.Proofs.Event.Canonical
import TokenWatch.Proofs.Tezos.CatchUp

/-!
The events that the Tezos watcher hands to the sink, compared with the records that it was given.
-/
namespace TokenWatch.Tezos

variable {e : Event}

structure Record.Reports (r : Record) (e : Event) : Prop where
  canonical : e.IsCanonical
  chain : e.chain = .tezos
  level : e.level = some r.level
  event : r.event? = some e

theorem Record.reports_of_event? {r : Record} (h : r.event? = some e) : r.Reports e := by
  rcases event?_cases h with ⟨t, hlevel, rfl⟩ | ⟨u, hlevel, rfl⟩
  · have hsome : t.level.isSome := by rw [hlevel]; rfl
    exact ⟨Event.isCanonical_ofTransfer ⟨fun _ => rfl, fun _ => hsome⟩ nofun nofun, rfl, hlevel, h⟩
  · have hsome : u.level.isSome := by rw [hlevel]; rfl
    exact ⟨Event.isCanonical_ofUpdate hsome, rfl, hlevel, h⟩

/-- What follows when catching up is over. -/
def Receiver.after : Receiver → Resume
  | .head _ after | .level _ _ after | .transfers _ _ _ after | .updates _ _ _ after => after
  | _ => .subscribe

namespace Watcher

variable {w v : Watcher} {a : Action} {as : List Action}

def Action.records : Action → List Record
  | .transfersPage (.ok rs) => rs.map .transfer
  | .updatesPage (.ok rs) => rs.map .update
  | .batch (.ok b) => b.content
  | _ => []

/-- The events in line, and those that are put off until catching up is over. -/
def known (w : Watcher) : List Event := w.inLine ++ w.receiver.after.events

theorem known_resume (w : Watcher) (after : Resume) :
    (w.resume after).known = w.inLine ++ after.events := by
  have hpoint : after.point.after.events = [] := by
    cases after <;> rfl
  rw [known, resume_inLine, resume_receiver, hpoint, List.append_nil]

theorem known_nextLevel (w : Watcher) (level head : UInt64) (after : Resume) :
    (w.nextLevel level head after).known = w.inLine ++ after.events := by
  unfold nextLevel
  split
  · rfl
  · exact known_resume w after

theorem known_onHead (w : Watcher) (start : UInt64) (after : Resume)
    (answer : Except Http.Error UInt64) :
    (w.onHead start after answer).known = w.inLine ++ after.events := by
  unfold onHead
  split
  · split
    · rfl
    · exact known_resume w after
  · exact known_resume w after

theorem known_onTransfers (hp : w.pending = []) (level head : UInt64) (offset : UInt64)
    (after : Resume) (answer : Except Http.Error (List TransferRecord)) :
    (w.onTransfers level head offset after answer).known =
      w.inLine ++ (Action.transfersPage answer).records.filterMap Record.event? ++
        after.events := by
  cases answer with
  | error cause => simp [onTransfers, known, inLine, Receiver.after, Action.records]
  | ok page =>
    simp only [onTransfers, known, inLine, hp, Action.records, filterMap_event?_transfer,
      List.append_nil]
    split <;> rfl

theorem known_onUpdates (hp : w.pending = []) (level head : UInt64) (offset : UInt64)
    (after : Resume) (answer : Except Http.Error (List UpdateRecord)) :
    (w.onUpdates level head offset after answer).known =
      w.inLine ++ (Action.updatesPage answer).records.filterMap Record.event? ++
        after.events := by
  cases answer with
  | error cause => simp [onUpdates, known_nextLevel, Action.records]
  | ok page =>
    simp only [onUpdates, Action.records, filterMap_event?_update]
    split
    · simp only [known, inLine, hp, List.append_nil, Receiver.after]
    · simp only [known_nextLevel, inLine, hp, List.append_nil]

theorem known_onEvents (hp : w.pending = []) (hr : w.receiver = .listen) (first : Bool)
    (events : List Event) : (w.onEvents first events).known = w.inLine ++ events := by
  unfold onEvents
  split
  · rfl
  · simp [known, inLine, hp, hr, Receiver.after, Resume.events]

theorem known_onBatch (hp : w.pending = []) (hr : w.receiver = .listen)
    (answer : Except Hub.Error Batch) :
    (w.onBatch answer).known =
      w.inLine ++ (Action.batch answer).records.filterMap Record.event? := by
  cases answer with
  | error cause => simp [onBatch, known, inLine, Receiver.after, Resume.events, Action.records]
  | ok batch =>
    rw [Action.records, Batch.filterMap_event?_content]
    cases hchannel : batch.channel? with
    | none =>
      have hevents : batch.events = [] := by
        cases batch with
        | ignored => rfl
        | _ => cases hchannel
      rw [onBatch_of_ignored w hchannel, known, hr, hevents]
      rfl
    | some channel =>
      have hline : (w.seen channel).inLine = w.inLine := by
        cases channel <;> rfl
      rw [onBatch_of_channel w hchannel, known_onEvents, hline]
      · rw [pending_seen, hp]
      · rw [receiver_seen, hr]

/-- A step of the receiving task puts the events of the records in line that it brings, and perhaps
those that were put off. -/
theorem known_of_receives (h : w.step? a = some v) (ha : a.Receives) :
    ∃ es ⊆ w.receiver.after.events,
      v.known = w.inLine ++ a.records.filterMap Record.event? ++ es := by
  have hquiet : v.pending = w.pending → v.enqueued = w.enqueued → a.records = [] →
      v.known = w.inLine ++ a.records.filterMap Record.event? ++ v.receiver.after.events := by
    intro hpending henqueued hrecords
    rw [known, inLine, inLine, hpending, henqueued, hrecords, List.filterMap_nil, List.append_nil]
  cases a with
  | load answer =>
    obtain ⟨-, -, rfl⟩ := load_cases h
    refine ⟨_, ?_, hquiet rfl rfl rfl⟩
    cases (w.watermark.load answer).2 <;> exact List.nil_subset _
  | head answer =>
    obtain ⟨-, start, after, hr, rfl⟩ := head_cases h
    refine ⟨after.events, ?_, ?_⟩
    · rw [hr]
      exact List.Subset.refl _
    · have hrecords : (Action.head answer).records = [] := rfl
      rw [known_onHead, hrecords, List.filterMap_nil, List.append_nil]
  | check =>
    obtain ⟨-, level, head, after, hr, rfl⟩ := check_cases h
    refine ⟨_, ?_, hquiet rfl rfl rfl⟩
    rw [hr]
    dsimp only
    split
    · exact List.nil_subset _
    · exact List.Subset.refl _
  | transfersPage answer =>
    obtain ⟨hp, level, head, offset, after, hr, rfl⟩ := transfersPage_cases h
    refine ⟨after.events, ?_, known_onTransfers hp level head offset after answer⟩
    rw [hr]
    exact List.Subset.refl _
  | updatesPage answer =>
    obtain ⟨hp, level, head, offset, after, hr, rfl⟩ := updatesPage_cases h
    refine ⟨after.events, ?_, known_onUpdates hp level head offset after answer⟩
    rw [hr]
    exact List.Subset.refl _
  | subscribe answer =>
    obtain ⟨-, hr, rfl⟩ := subscribe_cases h
    refine ⟨_, ?_, hquiet rfl rfl rfl⟩
    cases answer <;> exact List.nil_subset _
  | notice =>
    obtain ⟨-, hr, rfl⟩ := notice_cases h
    refine ⟨_, ?_, hquiet rfl rfl rfl⟩
    dsimp only
    split <;> exact List.nil_subset _
  | batch answer =>
    obtain ⟨hp, hr, rfl⟩ := batch_cases h
    refine ⟨[], List.nil_subset _, ?_⟩
    rw [known_onBatch hp hr, List.append_nil]
  | _ => exact ha.elim

/-- Every event that is known is that of a record which one of the actions brought. -/
def Reporting (as : List Action) (w : Watcher) : Prop :=
  ∀ e ∈ w.known, ∃ a ∈ as, ∃ r ∈ a.records, r.event? = some e

theorem Reporting.step (hw : Reporting as w) (h : w.step? a = some v) :
    Reporting (as ++ [a]) v := by
  have hold : ∀ e ∈ w.known, ∃ b ∈ as ++ [a], ∃ r ∈ b.records, r.event? = some e := by
    intro e he
    obtain ⟨b, hb, hr⟩ := hw e he
    exact ⟨b, List.mem_append_left _ hb, hr⟩
  intro e he
  by_cases ha : a.Receives
  · obtain ⟨es, hes, hv⟩ := known_of_receives h ha
    rw [hv] at he
    rcases List.mem_append.mp he with he | he
    · rcases List.mem_append.mp he with he | he
      · exact hold e (List.mem_append_left _ he)
      · obtain ⟨r, hr, hevent⟩ := List.mem_filterMap.mp he
        exact ⟨a, List.mem_append_right _ List.mem_cons_self, r, hr, hevent⟩
    · exact hold e (List.mem_append_right _ (hes he))
  · have hside := receiveSide_of_not_receives h ha
    simp only [receiveSide, Prod.mk.injEq] at hside
    rw [known, hside.1, hside.2.2.2] at he
    exact hold e he

theorem reporting_of_run {allowed : Watcher → Action → Prop} {stored : Option String}
    {shutdown : Shutdown} (run : Run step? allowed (start stored shutdown) as w) :
    Reporting as w := by
  have hstart : Reporting [] (start stored shutdown) := List.forall_mem_nil _
  have hrun := run.preserves_along (P := Reporting) (fun _ _ _ _ hw _ h => hw.step h) hstart
  rwa [List.nil_append] at hrun

/-- What is handed to the sink says what one of the given records says. -/
theorem exists_reports {allowed : Watcher → Action → Prop} {stored : Option String}
    {shutdown : Shutdown} (run : Run step? allowed (start stored shutdown) as w) {e : Event}
    (he : e ∈ w.handed ++ w.inHand) : ∃ a ∈ as, ∃ r ∈ a.records, r.Reports e := by
  have hline := (inOrder_of_run run).handed_append
  have hknown : e ∈ w.known := by
    apply List.mem_append_left
    rw [← hline, List.append_assoc, ← List.append_assoc]
    exact List.mem_append_left _ he
  obtain ⟨a, ha, r, hr, hevent⟩ := reporting_of_run run e hknown
  exact ⟨a, ha, r, hr, Record.reports_of_event? hevent⟩

end Watcher
end TokenWatch.Tezos
