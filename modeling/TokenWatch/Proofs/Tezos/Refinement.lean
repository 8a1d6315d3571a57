import TokenWatch.Proofs.Tezos.Account
import TokenWatch.Proofs.Tezos.Delivery

/-!
The two tasks of the Tezos watcher together do what the sequential account says, in every order of
their steps.
-/
namespace TokenWatch.Tezos.Watcher

variable {w v : Watcher} {a : Action} {as : List Action} {tape : List Observation}

def learn (w : Watcher) : Action → List Observation
  | .load answer => [.checkpoint (w.watermark.load answer).2]
  | .head answer => [.head answer]
  | .check => [.stopping w.shutdown.value]
  | .transfersPage answer =>
    match w.receiver with
    | .transfers level _ offset _ =>
      [.page .transfers level offset (answer.map (·.map .transfer))]
    | _ => []
  | .updatesPage answer =>
    match w.receiver with
    | .updates level _ offset _ => [.page .updates level offset (answer.map (·.map .update))]
    | _ => []
  | .subscribe answer => [.subscribed answer]
  | .notice => [.change w.shutdown.notice.2]
  | .batch answer => [.batch w.watermark.current answer]
  | _ => []

def learnAll (w : Watcher) : List Action → List Observation
  | [] => []
  | a :: as =>
    match w.step? a with
    | some v => w.learn a ++ v.learnAll as
    | none => []

def resumed (fresh : Channel → Bool) : Resume → List Observation → Account
  | .subscribe, tape => Tezos.subscribe fresh tape
  | .batch events, tape => (listen fresh tape).after events

def laterLevels (fresh : Channel → Bool) (level head : UInt64) (after : Resume)
    (tape : List Observation) : Account :=
  (replayLevels (level + 1) (head.toNat - level.toNat) tape).andThen (resumed fresh after)

/-- What is still to come at the point that the receiving task has come to. -/
def account (w : Watcher) (tape : List Observation) : Account :=
  match w.receiver with
  | .load => session w.fresh tape
  | .head start after => (catchUp start tape).andThen (resumed w.fresh after)
  | .level level head after =>
    (replayLevel level tape).andThen (laterLevels w.fresh level head after)
  | .transfers level head offset after =>
    ((pages .transfers level offset tape).andThen (pages .updates level 0)).andThen
      (laterLevels w.fresh level head after)
  | .updates level head offset after =>
    (pages .updates level offset tape).andThen (laterLevels w.fresh level head after)
  | .subscribe => Tezos.subscribe w.fresh tape
  | .listen => listen w.fresh tape
  | .done result => .ended result

theorem account_of_receiveSide (h : v.receiveSide = w.receiveSide) (tape : List Observation) :
    v.account tape = w.account tape := by
  simp only [receiveSide, Prod.mk.injEq] at h
  obtain ⟨hr, ht, hu, -⟩ := h
  have hfresh : v.fresh = w.fresh := by
    funext c
    cases c
    · exact ht
    · exact hu
  simp only [account, hr, hfresh]

/-- The rest of a level's successors is the next level and the rest of its successors. -/
theorem laterLevels_of_lt (fresh : Channel → Bool) {level head : UInt64} (h : level < head)
    (after : Resume) (tape : List Observation) :
    laterLevels fresh level head after tape =
      (replayLevel (level + 1) tape).andThen (laterLevels fresh (level + 1) head after) := by
  have hlt : level.toNat < head.toNat := UInt64.lt_iff_toNat_lt.mp h
  have hnext := toNat_level_add_one h
  have hcount : head.toNat - level.toNat = (head.toNat - (level + 1).toNat) + 1 := by omega
  unfold laterLevels
  rw [hcount, replayLevels, Account.andThen_assoc]

theorem laterLevels_of_not_lt (fresh : Channel → Bool) {level head : UInt64} (h : ¬level < head)
    (after : Resume) (tape : List Observation) :
    laterLevels fresh level head after tape = resumed fresh after tape := by
  have hcount : head.toNat - level.toNat = 0 := by
    have := mt UInt64.lt_iff_toNat_lt.mpr h
    omega
  unfold laterLevels
  rw [hcount]
  rfl

theorem account_resume (w : Watcher) (after : Resume) (tape : List Observation) :
    ((w.resume after).account tape).after (w.resume after).pending =
      (resumed w.fresh after tape).after w.pending := by
  cases after with
  | subscribe => rfl
  | batch events => exact (Account.after_after _ _ _).symm

theorem account_nextLevel (w : Watcher) (level head : UInt64) (after : Resume)
    (tape : List Observation) :
    ((w.nextLevel level head after).account tape).after (w.nextLevel level head after).pending =
      (laterLevels w.fresh level head after tape).after w.pending := by
  unfold nextLevel
  split
  · rename_i hlt
    rw [laterLevels_of_lt w.fresh hlt]
    rfl
  · rename_i hlt
    rw [laterLevels_of_not_lt w.fresh hlt]
    exact account_resume w after tape

theorem account_onHead (w : Watcher) (start : UInt64) (after : Resume)
    (answer : Except Http.Error UInt64) (tape : List Observation) :
    ((w.onHead start after answer).account tape).after (w.onHead start after answer).pending =
      ((catchUp start (.head answer :: tape)).andThen (resumed w.fresh after)).after w.pending := by
  cases answer with
  | error cause => exact account_resume w after tape
  | ok head =>
    simp only [onHead]
    split
    · rename_i hle
      have hle : start.toNat ≤ head.toNat := UInt64.le_iff_toNat_le.mp hle
      have hcount : head.toNat + 1 - start.toNat = (head.toNat - start.toNat) + 1 := by omega
      rw [catchUp, hcount, replayLevels, Account.andThen_assoc]
      rfl
    · rename_i hle
      have hcount : head.toNat + 1 - start.toNat = 0 := by
        have := mt UInt64.le_iff_toNat_le.mpr hle
        omega
      rw [catchUp, hcount, account_resume]
      rfl

theorem account_onTransfers (w : Watcher) (hp : w.pending = []) (level head : UInt64)
    (offset : UInt64) (after : Resume) (answer : Except Http.Error (List TransferRecord))
    (tape : List Observation) :
    ((w.onTransfers level head offset after answer).account tape).after
        (w.onTransfers level head offset after answer).pending =
      ((pages .transfers level offset
          (.page .transfers level offset (answer.map (·.map .transfer)) :: tape)).andThen
        (pages .updates level 0)).andThen (laterLevels w.fresh level head after) := by
  cases answer with
  | error cause => simp [onTransfers, hp, pages, Except.map, account]
  | ok page =>
    simp only [Except.map, pages, and_self, if_true, List.length_map,
      filterMap_event?_transfer, Account.after_andThen, onTransfers]
    split <;> simp [account]

theorem account_onUpdates (w : Watcher) (hp : w.pending = []) (level head : UInt64)
    (offset : UInt64) (after : Resume) (answer : Except Http.Error (List UpdateRecord))
    (tape : List Observation) :
    ((w.onUpdates level head offset after answer).account tape).after
        (w.onUpdates level head offset after answer).pending =
      (pages .updates level offset
          (.page .updates level offset (answer.map (·.map .update)) :: tape)).andThen
        (laterLevels w.fresh level head after) := by
  cases answer with
  | error cause =>
    simp only [Except.map, pages, and_self, if_true, Account.next_andThen, onUpdates]
    rw [account_nextLevel, hp, Account.after_nil]
  | ok page =>
    simp only [Except.map, pages, and_self, if_true, List.length_map,
      filterMap_event?_update, Account.after_andThen, onUpdates]
    split
    · simp [account]
    · rw [account_nextLevel]
      rfl

theorem account_onEvents (w : Watcher) (hp : w.pending = []) (hr : w.receiver = .listen)
    (first : Bool) (events : List Event) (tape : List Observation) :
    ((w.onEvents first events).account tape).after (w.onEvents first events).pending =
      (closeGap first w.watermark.current tape).andThen fun tape =>
        (listen w.fresh tape).after events := by
  unfold onEvents closeGap
  split
  · simp only [account, hp, Account.after_nil]
    rfl
  · simp [account, hr]

theorem account_onBatch (w : Watcher) (hp : w.pending = []) (hr : w.receiver = .listen)
    (answer : Except Hub.Error Batch) (tape : List Observation) :
    ((w.onBatch answer).account tape).after (w.onBatch answer).pending =
      listen w.fresh (.batch w.watermark.current answer :: tape) := by
  cases answer with
  | error e => simp [onBatch, account, hp, listen]
  | ok batch =>
    cases hchannel : batch.channel? with
    | none =>
      rw [onBatch_of_ignored w hchannel]
      simp [account, hp, hr, listen, hchannel]
    | some channel =>
      have hp : (w.seen channel).pending = [] := (pending_seen w channel).trans hp
      have hr : (w.seen channel).receiver = .listen := (receiver_seen w channel).trans hr
      have hevents :=
        account_onEvents (w.seen channel) hp hr (w.fresh channel) batch.events tape
      rw [watermark_seen, fresh_seen] at hevents
      rw [onBatch_of_channel w hchannel, listen_batch w.fresh _ hchannel]
      exact hevents

/-- A step of the receiving task follows the account: what it makes pending is what the account
says next. -/
theorem account_of_receives (h : w.step? a = some v) (ha : a.Receives)
    (tape : List Observation) :
    w.account (w.learn a ++ tape) = (v.account tape).after v.pending := by
  cases a with
  | load answer =>
    obtain ⟨hp, hr, rfl⟩ := load_cases h
    cases hl : (w.watermark.load answer).2 with
    | none => simp [account, hr, hp, learn, hl, afterLoad, session]
    | some level =>
      simp only [account, hr, hp, learn, hl, afterLoad, session, Account.after_nil]
      rfl
  | head answer =>
    obtain ⟨hp, start, after, hr, rfl⟩ := head_cases h
    rw [account_onHead, hp, Account.after_nil]
    simp [account, hr, learn]
  | check =>
    obtain ⟨hp, level, head, after, hr, rfl⟩ := check_cases h
    cases hs : w.shutdown.value <;> simp [account, hr, hp, learn, hs, replayLevel]
  | transfersPage answer =>
    obtain ⟨hp, level, head, offset, after, hr, rfl⟩ := transfersPage_cases h
    rw [account_onTransfers w hp]
    simp [account, hr, learn]
  | updatesPage answer =>
    obtain ⟨hp, level, head, offset, after, hr, rfl⟩ := updatesPage_cases h
    rw [account_onUpdates w hp]
    simp [account, hr, learn]
  | subscribe answer =>
    obtain ⟨hp, hr, rfl⟩ := subscribe_cases h
    cases answer <;> simp [account, hr, hp, learn, afterSubscribe, Tezos.subscribe]
  | notice =>
    obtain ⟨hp, hr, rfl⟩ := notice_cases h
    cases hs : w.shutdown.notice.2 <;> simp [account, hr, hp, learn, hs, listen]
  | batch answer =>
    obtain ⟨hp, hr, rfl⟩ := batch_cases h
    rw [account_onBatch w hp hr]
    simp [account, hr, learn]
  | _ => exact ha.elim

theorem learn_of_not_receives (ha : ¬a.Receives) : w.learn a = [] := by
  cases a <;> first | rfl | exact absurd trivial ha

/-- What is in line and what the account says is still to come stay one and the same whole. -/
theorem account_of_run {allowed : Watcher → Action → Prop} (run : Run step? allowed w as v) :
    (w.account (w.learnAll as)).after w.inLine = (v.account []).after v.inLine := by
  induction run with
  | nil w => rfl
  | @cons w u v a as _ h _ ih =>
    have hlearn : w.learnAll (a :: as) = w.learn a ++ u.learnAll as := by
      rw [learnAll, h]
    rw [hlearn, ← ih]
    by_cases ha : a.Receives
    · obtain ⟨-, hline⟩ := inLine_of_receives h ha
      rw [account_of_receives h ha, Account.after_after, hline]
    · have hside := receiveSide_of_not_receives h ha
      rw [learn_of_not_receives ha, List.nil_append, account_of_receiveSide hside]
      simp only [receiveSide, Prod.mk.injEq] at hside
      rw [hside.2.2.2]

/-- Without anything more to learn the account is over or it waits. -/
theorem account_nil (w : Watcher) :
    w.account [] = .waiting ∨ ∃ result, w.receiver = .done result ∧
      w.account [] = .ended result := by
  unfold account
  split
  case h_7 => exact .inl (listen_nil w.fresh)
  case h_8 result hr => exact .inr ⟨result, hr, rfl⟩
  all_goals exact .inl rfl

theorem outcome_account_nil (w : Watcher) (result : Except Hub.Error Unit) :
    w.receiver = .done result ↔ (w.account []).outcome = .ended result := by
  constructor
  · intro hr
    simp only [account, hr, Account.ended]
  · intro houtcome
    rcases account_nil w with hwait | ⟨other, hr, hended⟩
    · rw [hwait] at houtcome
      cases houtcome
    · rw [hended] at houtcome
      cases houtcome
      exact hr

theorem events_account_nil (w : Watcher) : (w.account []).events = [] := by
  rcases account_nil w with h | ⟨result, -, h⟩ <;> rw [h] <;> rfl

/-- The two tasks do together what the one sequential account tells of what the receiving task
learnt. Its events go through the queue into the sink, each once and in order, and the watcher
does not return before the last of them was pushed. -/
theorem tasks_follow_session {stored : Option String} {shutdown : Shutdown}
    (run : Run step? Anything (start stored shutdown) as w) :
    let told := session (fun _ => true) ((start stored shutdown).learnAll as)
    w.handed ++ w.inHand ++ w.queue = w.enqueued.reverse ∧
      w.queue.length ≤ queueSlots ∧
      w.enqueued.reverse ++ w.pending = told.events ∧
      (∀ result, w.receiver = .done result ↔ told.outcome = .ended result) ∧
      ∀ result, w.result? = some result →
        told.outcome = .ended result ∧ w.handed = w.enqueued.reverse ∧ w.handed = told.events := by
  intro told
  have horder := inOrder_of_run run
  have hfresh : (start stored shutdown).fresh = fun _ => true := by
    funext c
    cases c <;> rfl
  have htold : told = (w.account []).after w.inLine := by
    rw [← account_of_run run, account]
    simp only [hfresh]
    rfl
  have hline : told.events = w.inLine := by
    rw [htold, Account.after, events_account_nil, List.append_nil]
  have hend : ∀ result, w.receiver = .done result ↔ told.outcome = .ended result := by
    intro result
    rw [htold]
    exact outcome_account_nil w result
  refine ⟨horder.order, horder.bounded, hline.symm, hend, ?_⟩
  intro result hresult
  obtain ⟨hr, hqueued, hall⟩ := horder.handed_of_result hresult
  exact ⟨(hend result).mp hr, hqueued, hline ▸ hall⟩

/-- A feed that brings one transfer and then fails, without a checkpoint. -/
theorem tasks_follow_session_one_transfer :
    let actions : List Action :=
      [.load (some none), .subscribe (.ok ()), .batch (.ok (.transfers [mintRecord 1 5])), .enqueue,
        .batch (.error .timeout), .take, .push (.ok ()), .store true, .close]
    ∃ w, Run step? Anything (start none (.start false)) actions w ∧
      w.handed.map Event.level = [some 5] ∧
      w.handed =
        (session (fun _ => true) ((start none (.start false)).learnAll actions)).events := by
  intro actions
  have run : Run step? Anything (start none (.start false)) actions _ := .of_foldlM rfl
  obtain ⟨-, -, -, -, hreturn⟩ := tasks_follow_session run
  exact ⟨_, run, rfl, (hreturn (.error .timeout) rfl).2.2⟩

end TokenWatch.Tezos.Watcher
