import TokenWatch.Proofs.Bitmark.Reporting
import TokenWatch.Proofs.Ethereum.Reporting
import TokenWatch.Proofs.Tezos.Reporting

/-!
The events of all three watchers: whatever is handed to the sink keeps to one model and says what a
log, a record or a transaction says.
-/
namespace TokenWatch

/-- Whatever the nodes, the indexer, the ledger, the caches and the sink answer, in whatever order
the tasks take their steps, and whenever a watcher is told to stop: each event that is handed to
the sink, accepted or not, is canonical. The event of the Ethereum watcher says what the words of a
log say, that of the Tezos watcher what a record says, and that of the Bitmark watcher what a
transaction of the ledger says. -/
theorem Event.pushed_events_canonical :
    (∀ {σ : Type} (around : Ethereum.Handler.Surroundings (StateM σ)) retry shutdown world as s,
      Run (Ethereum.Attended.act? around.recorded) Anything (.start retry shutdown ⟨world, []⟩)
          as s →
        ∀ e ∈ s.world.pushed, ∃ log ∈ s.watcher.handled, log.Reports e) ∧
    (∀ stored shutdown as w, Run Tezos.Watcher.step? Anything (.start stored shutdown) as w →
      ∀ e ∈ w.handed ++ w.inHand, ∃ a ∈ as, ∃ r ∈ a.records, r.Reports e) ∧
    (∀ {σ : Type} (around : Bitmark.Handler.Surroundings (StateM σ)) shutdown world as s,
      Run (Bitmark.Attended.act? around.recorded) Anything (.start shutdown ⟨world, []⟩) as s →
        ∀ e ∈ s.world.pushed, ∃ t, around.Holds t ∧ t.Reports e) := by
  refine ⟨?_, ?_, ?_⟩
  · intro σ around retry shutdown world as s run
    exact Ethereum.Attended.reporting_of_run run
  · intro stored shutdown as w run e he
    exact Tezos.Watcher.exists_reports run he
  · intro σ around shutdown world as s run
    exact Bitmark.Attended.reporting_of_run run

/-- A token that comes from the zero address and goes to it, with other bytes before the addresses
in the words; a token of Tezos without a source; a bitmark in the transaction that issues it. -/
theorem Event.pushed_events_canonical_of_mints :
    let time : Time.Moment := ⟨⟨1970, 1, 1, Tezos.isDate_1970⟩, .ofSeconds 0, 0, Tezos.universal_lt⟩
    let log : Ethereum.Log := ⟨7, [Ethereum.Standard.signature .erc721,
      0x010000000000000000000000000000000000000000#256,
      0x020000000000000000000000000000000000000000#256, 5], [], some 3, some 4, none⟩
    let node : Ethereum.Handler.Surroundings (StateM Unit) :=
      { cached := fun _ => pure none, lookUp := fun _ => pure (.ok time)
        remember := fun _ _ => pure false, push := fun _ => pure (.ok ()) }
    let t : Bitmark.Transaction := ⟨"ff", "owner", "ff", none⟩
    let ledger : Bitmark.Handler.Surroundings (StateM Unit) :=
      { transactionsOf := fun _ => pure (.ok ["ff"]), transaction := fun _ => pure (.ok t)
        push := fun _ => pure (.ok ()) }
    (∃ s, Run (Ethereum.Attended.act? node.recorded) Anything
        (.start ⟨1, 1, 1⟩ (.start false) ⟨(), []⟩)
        [.call, .subscribed (.ok ()), .hear (some log), .enqueue, .take, .handle] s ∧
      ∃ e ∈ s.world.pushed, log.Reports e) ∧
    (∃ w, Run Tezos.Watcher.step? Anything (Tezos.Watcher.start none (.start false))
        [.load (some none), .subscribe (.ok ()), .batch (.ok (.transfers [Tezos.mintRecord 1 2])),
          .enqueue, .take] w ∧
      ∃ e ∈ w.handed ++ w.inHand, e.IsCanonical ∧ e.level = some 2) ∧
    ∃ s, Run (Bitmark.Attended.act? ledger.recorded) Anything (.start (.start false) ⟨(), []⟩)
        [.connect (.ok ()), .hear (.notification ⟨"1", time⟩), .enqueue, .take, .handle] s ∧
      ∃ e ∈ s.world.pushed, e.IsCanonical ∧ e.kind = .mint := by
  intro time log node t ledger
  obtain ⟨ethereum, tezos, bitmark⟩ := Event.pushed_events_canonical
  refine ⟨?_, ?_, ?_⟩
  · let p : Ethereum.Handler.Placed := ⟨⟨.erc721, 7, 0, 0, 5⟩, 3, 4, 0⟩
    have hplace : Ethereum.Handler.place log = .ok (some p) := rfl
    have hpushed :
        p.event time ∈ (Ethereum.Handler.handle node.recorded log ⟨(), []⟩).2.pushed := by
      rw [Ethereum.Handler.handle_of_placed hplace]
      exact List.mem_singleton.mpr rfl
    have run : Run (Ethereum.Attended.act? node.recorded) Anything
        (.start ⟨1, 1, 1⟩ (.start false) ⟨(), []⟩)
        [.call, .subscribed (.ok ()), .hear (some log), .enqueue, .take, .handle] _ :=
      Run.of_foldlM rfl
    obtain ⟨source, hhandled, reports⟩ := ethereum node _ _ _ _ _ run (p.event time) hpushed
    cases List.mem_singleton.mp hhandled
    exact ⟨_, run, p.event time, hpushed, reports⟩
  · have run : Run Tezos.Watcher.step? Anything (Tezos.Watcher.start none (.start false))
        [.load (some none), .subscribe (.ok ()), .batch (.ok (.transfers [Tezos.mintRecord 1 2])),
          .enqueue, .take] _ := Run.of_foldlM rfl
    let e : Event := .ofTransfer .tezos ⟨none, "", "", .ofNat 1, "1", 0, time, some 2⟩
    obtain ⟨a, -, r, -, reports⟩ := tezos none _ _ _ run e (List.mem_singleton.mpr rfl)
    exact ⟨_, run, e, List.mem_singleton.mpr rfl, reports.canonical, rfl⟩
  · let e : Event := .ofTransfer .bitmark (t.report (.ofNat 255) time)
    have run : Run (Bitmark.Attended.act? ledger.recorded) Anything
        (.start (.start false) ⟨(), []⟩)
        [.connect (.ok ()), .hear (.notification ⟨"1", time⟩), .enqueue, .take, .handle] _ :=
      Run.of_foldlM rfl
    have hid : Bitmark.Transaction.idNumber? "ff" = some 255 := by decide +kernel
    have hevent : t.toEvent time = .ok e := by
      simp only [Bitmark.Transaction.toEvent, Bitmark.Transaction.tokenId, t, hid]
      rfl
    have hpushed : e ∈ (Bitmark.Handler.handleNotification ledger.recorded
        ⟨"1", time⟩ ⟨(), []⟩).2.pushed := by
      have hhandled : Bitmark.Handler.handleTransaction ledger.recorded time "ff" ⟨(), []⟩ =
          (true, ⟨(), [e]⟩) := by
        have htransaction : ledger.recorded.transaction "ff" ⟨(), []⟩ = (.ok t, ⟨(), []⟩) := rfl
        rw [Bitmark.Handler.handleTransaction, Run.bind_state, htransaction]
        simp only [hevent]
        rfl
      show e ∈ (Bitmark.Handler.handleTransaction ledger.recorded time "ff" ⟨(), []⟩).2.pushed
      rw [hhandled]
      exact List.mem_singleton.mpr rfl
    obtain ⟨t', -, reports⟩ := bitmark ledger _ _ _ _ run e hpushed
    exact ⟨_, run, e, hpushed, reports.canonical, rfl⟩

end TokenWatch
