import TokenWatch.Proofs.Ethereum.Address
import TokenWatch.Proofs.Ethereum.Placing
import TokenWatch.Proofs.Ethereum.Rounds
import TokenWatch.Proofs.Event.Canonical
import TokenWatch.Proofs.Event.Recorded

/-!
The events that the Ethereum watcher hands to the sink, compared with the words of the logs.
-/
namespace TokenWatch.Ethereum
open Time Recorded

variable {σ : Type} {log : Log} {e : Event}

/-- An event that says of a log what its words say. The low twenty bytes of the words are the
parties. -/
structure Log.Reports (log : Log) (e : Event) : Prop where
  canonical : e.IsCanonical
  chain : e.chain = .ethereum
  contract : Spells e.contract log.address.toNat
  parties : ∃ source target, log.Moves source target ∧
    (e.kind = .mint ↔ source.toNat % 2 ^ 160 = 0) ∧
    (e.kind = .burned ↔ source.toNat % 2 ^ 160 ≠ 0 ∧ target.toNat % 2 ^ 160 = 0) ∧
    (e.kind ≠ .mint → Spells e.source (source.toNat % 2 ^ 160)) ∧
    Spells e.target (target.toNat % 2 ^ 160)

namespace Address

theorem toText_ne_empty (a : Address) : a.toText ≠ "" := by
  obtain ⟨digits, htext, -⟩ := exists_digits a
  intro hempty
  rw [hempty] at htext
  cases htext

theorem isZeroAddress_eq (a : Address) :
    Chain.ethereum.isZeroAddress a.toText = decide (a.toNat = 0) := by
  rw [Bool.eq_iff_iff, decide_eq_true_eq, isZeroAddress_toText]
  exact ⟨fun h => h ▸ rfl, fun h => BitVec.eq_of_toNat_eq h⟩

end Address

namespace Handler

variable {p : Placed} {around : Surroundings (StateM σ)}

/-- The kind of an event is decided by the numbers of its parties. -/
theorem Placed.kind_event (p : Placed) (time : Moment) :
    ((p.event time).kind = .mint ↔ p.transfer.source.toNat = 0) ∧
    ((p.event time).kind = .burned ↔
      p.transfer.source.toNat ≠ 0 ∧ p.transfer.target.toNat = 0) := by
  have hkind : (p.event time).kind =
      if p.transfer.source.toNat = 0 then .mint
      else if p.transfer.target.toNat = 0 then .burned
      else .transfer := by
    simp only [event, Event.kind_ofTransfer, report, EventKind.derive, Address.isZeroAddress_eq,
      decide_eq_true_eq]
  rw [hkind]
  by_cases hsource : p.transfer.source.toNat = 0
  · simp [hsource]
  · by_cases htarget : p.transfer.target.toNat = 0
    · simp [hsource, htarget]
    · simp [hsource, htarget]

theorem Placed.source_event {time : Moment} (h : (p.event time).kind ≠ .mint) :
    (p.event time).source = p.transfer.source.toText := by
  have hsome : (p.report time).source = some p.transfer.source.toText := rfl
  rw [event, Event.kind_ofTransfer] at h
  exact Event.source_of_not_mint hsome h

/-- The event of a placed transfer says what the log says. -/
theorem Placed.reports (h : place log = .ok (some p)) (time : Moment) :
    log.Reports (p.event time) := by
  obtain ⟨hcontract, ⟨source, target, hmoves, hsource, htarget⟩, -⟩ :=
    LoggedTransfer.of_ofLog (of_place h)
  have hsourceNat : p.transfer.source.toNat = source.toNat % 2 ^ 160 := by
    rw [hsource, Word.toAddress, BitVec.toNat_setWidth]
  have htargetNat : p.transfer.target.toNat = target.toNat % 2 ^ 160 := by
    rw [htarget, Word.toAddress, BitVec.toNat_setWidth]
  have hkind := p.kind_event time
  rw [hsourceNat, htargetNat] at hkind
  refine ⟨?_, rfl, ?_, source, target, hmoves, hkind.1, hkind.2, ?_, ?_⟩
  · refine Event.isCanonical_ofTransfer ⟨nofun, nofun⟩ nofun fun _ hblank => ?_
    exact Address.toText_ne_empty _ (Option.some.inj hblank)
  · rw [← hcontract]
    exact Address.toText_spells p.transfer.contract
  · intro hmint
    rw [source_event hmint, ← hsourceNat]
    exact Address.toText_spells p.transfer.source
  · rw [← htargetNat]
    exact Address.toText_spells p.transfer.target

def Surroundings.recorded (around : Surroundings (StateM σ)) :
    Surroundings (StateM (Recorded σ)) where
  cached key := lift (around.cached key)
  lookUp hash := lift (around.lookUp hash)
  remember key entry := lift (around.remember key entry)
  push := Recorded.push around.push

theorem pushes_resolve (Q : Event → Prop) (hash : BlockHash) :
    Pushes Q (BlockTime.resolve around.recorded.toSurroundings hash) := by
  apply (pushes_lift _).bind
  intro r
  split
  · exact pushes_pure _
  · apply (pushes_lift _).bind
    intro r
    split
    · exact pushes_pure _
    · exact (pushes_lift _).bind fun _ => pushes_pure _

/-- Whatever comes of a log, it is only handed over as what it is. -/
theorem pushes_handle (around : Surroundings (StateM σ)) (log : Log) :
    Pushes log.Reports (handle around.recorded log) := by
  cases hplace : place log with
  | error e =>
    rw [handle_of_error hplace]
    exact pushes_pure _
  | ok placed =>
    cases placed with
    | none =>
      rw [handle_of_none hplace]
      exact pushes_pure _
    | some p =>
      rw [handle_of_placed hplace]
      apply (pushes_resolve _ p.blockHash).bind
      intro r
      split
      · exact pushes_pure _
      · rename_i time _
        apply (pushes_push (Placed.reports hplace time)).bind
        intro r
        split <;> exact pushes_pure _

end Handler

namespace Attended
open Watcher

variable {around : Handler.Surroundings (StateM σ)} {s t : Attended (Recorded σ)} {a : Action}

def Reporting (s : Attended (Recorded σ)) : Prop :=
  ∀ e ∈ s.world.pushed, ∃ log ∈ s.watcher.handled, log.Reports e

theorem Reporting.handle (h : Reporting s) (hc : s.watcher.consumer = .handling log) :
    Reporting { s.work around.recorded with
      watcher := { s.watcher with consumer := .idle, handled := log :: s.watcher.handled } } := by
  intro e he
  simp only [work, hc] at he
  rcases (Handler.pushes_handle around log).of_mem he with hnew | hold
  · exact ⟨log, List.mem_cons_self, hnew⟩
  · obtain ⟨earlier, hearlier, hreports⟩ := h e hold
    exact ⟨earlier, List.mem_cons_of_mem _ hearlier, hreports⟩

theorem Reporting.step (h : Reporting s) (step : act? around.recorded s a = some t) :
    Reporting t := by
  by_cases ha : a = .handle
  · subst ha
    obtain ⟨w, hstep, rfl⟩ := act_cases step
    obtain ⟨log, hc, rfl⟩ := handle_cases hstep
    exact h.handle hc
  · obtain ⟨hhandled, hrest⟩ := Prod.mk.inj (worked_of_not_handle ha step)
    obtain ⟨-, hworld⟩ := Prod.mk.inj hrest
    unfold Reporting
    rw [hhandled, hworld]
    exact h

theorem reporting_of_run {allowed : Attended (Recorded σ) → Action → Prop} {as : List Action}
    {retry : RetrySchedule} {shutdown : Shutdown} {world : σ}
    (run : Run (act? around.recorded) allowed (start retry shutdown ⟨world, []⟩) as s) :
    Reporting s :=
  run.preserves (fun _ _ _ h _ step => h.step step) (List.forall_mem_nil _)

end Attended
end TokenWatch.Ethereum
