import TokenWatch.Proofs.Bitmark.Stopping
import TokenWatch.Proofs.Ethereum.Stopping
import TokenWatch.Proofs.Tezos.Stopping

/-!
Watchers that were told to stop, and what they still need of their chains.
-/
namespace TokenWatch

variable {retry : RetrySchedule} {stored : Option String}
  {ethereumSteps : List Ethereum.Watcher.Action} {ethereum : Ethereum.Watcher}
  {bitmarkSteps : List Bitmark.Watcher.Action} {bitmark : Bitmark.Watcher}
  {tezosSteps : List Tezos.Watcher.Action} {tezos : Tezos.Watcher}

/-- Once a watcher has been told to stop, it always has a step that needs nothing of its chain until
it is over. For the Ethereum watcher and for the Bitmark watcher that holds from their start, and
from the connection to the database. The Tezos watcher has none exactly where it waits for the
answer to its subscriptions, with nothing left to push, and there it stays until the hub answers. -/
theorem canMove_after_shutdown
    (ethereumRun :
      Run Ethereum.Watcher.step? Anything (.start retry (.start false)) ethereumSteps ethereum)
    (bitmarkRun : Run Bitmark.Watcher.step? Anything (.start (.start false)) bitmarkSteps bitmark)
    (tezosRun : Run Tezos.Watcher.step? Anything (.start stored (.start false)) tezosSteps tezos) :
    (ethereum.shutdown.value = true → ¬ethereum.IsOver → ethereum.CanMove) ∧
    (bitmark.shutdown.value = true → bitmark.receiver ≠ .connect → bitmark.result? = none →
      bitmark.CanMove) ∧
    (tezos.shutdown.value = true → tezos.result? = none →
      (tezos.CanMove ↔ ¬tezos.AwaitsHub) ∧
      (tezos.AwaitsHub → ∀ a next, tezos.step? a = some next →
        (∃ answer, a = .subscribe answer) ∨ next.AwaitsHub)) := by
  have hethereum := Ethereum.Watcher.attentive_of_run ethereumRun
  have hbitmark := Bitmark.Watcher.attentive_of_run bitmarkRun
  have horder := Tezos.Watcher.inOrder_of_run tezosRun
  have htold := Tezos.Watcher.told_of_run tezosRun
  refine ⟨hethereum.canMove, fun stop started => hbitmark.canMove started stop, ?_⟩
  intro stop unfinished
  constructor
  · exact Tezos.Watcher.canMove_iff horder htold stop unfinished
  · exact fun hawaits a next h => (hawaits.step h).2

/-- The value `true` is sent to all three, to the Tezos watcher while the last page of the catch-up
is read. -/
theorem canMove_after_shutdown_catchUp :
    ∃ ethereum bitmark tezos,
      Run Ethereum.Watcher.step? Anything (.start .fixed (.start false)) [.call, .send true]
        ethereum ∧
      Run Bitmark.Watcher.step? Anything (.start (.start false)) [.connect (.ok ()), .send true]
        bitmark ∧
      Run Tezos.Watcher.step? Anything (.start (some "5") (.start false))
        [.load (some (some "5")), .head (.ok 5), .check, .transfersPage (.ok []), .send true,
          .updatesPage (.ok [])] tezos ∧
      ethereum.CanMove ∧ bitmark.CanMove ∧
      tezos.shutdown.value = true ∧ tezos.result? = none ∧ ¬tezos.CanMove := by
  have ethereumRun : Run Ethereum.Watcher.step? Anything (.start .fixed (.start false))
      [.call, .send true] _ := .of_foldlM rfl
  have bitmarkRun : Run Bitmark.Watcher.step? Anything (.start (.start false))
      [.connect (.ok ()), .send true] _ := .of_foldlM rfl
  have tezosRun : Run Tezos.Watcher.step? Anything (.start (some "5") (.start false))
      [.load (some (some "5")), .head (.ok 5), .check, .transfersPage (.ok []), .send true,
        .updatesPage (.ok [])] _ := .of_foldlM rfl
  obtain ⟨hethereum, hbitmark, htezos⟩ :=
    canMove_after_shutdown ethereumRun bitmarkRun tezosRun
  obtain ⟨hiff, -⟩ := htezos rfl rfl
  refine ⟨_, _, _, ethereumRun, bitmarkRun, tezosRun, ?_, ?_, rfl, rfl, ?_⟩
  · exact hethereum rfl (by decide)
  · exact hbitmark rfl nofun rfl
  · exact fun hmove => hiff.mp hmove ⟨rfl, rfl, rfl, rfl⟩

end TokenWatch
