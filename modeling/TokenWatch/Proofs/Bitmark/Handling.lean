import TokenWatch.Proofs.Bitmark.Attempts
import TokenWatch.Proofs.Bitmark.Listening

/-!
The Bitmark watcher handles the notifications that it received, in order, and skips what fails and
nothing else.
-/
namespace TokenWatch.Bitmark.Attended
open Time Text Watcher Handler

variable {σ : Type} {around : Surroundings (StateM σ)} {s t : Attended (Logged σ)} {a : Action}
  {as bs : List Action} {world : σ} {value : Bool} {w : Watcher}

theorem act_cases {around : Surroundings (StateM σ)} {s t : Attended σ}
    (step : act? around s a = some t) :
    s.watcher.step? a = some t.watcher ∧ t.world = s.attend around a := by
  obtain ⟨w, hstep, rfl⟩ := Option.map_eq_some_iff.mp step
  exact ⟨hstep, rfl⟩

structure Kept (around : Surroundings (StateM σ)) (world : σ) (as : List Action)
    (s : Attended (Logged σ)) : Prop where
  orderly : s.watcher.Orderly
  listened : Listened as s.watcher
  worked : (s.watcher.handled.reverse.mapM (handleNotification around.logged) ⟨world, []⟩).2 =
    s.world

theorem attend_of_ne_handle {around : Surroundings (StateM σ)} (other : a ≠ .handle)
    (s : Attended σ) : s.attend around a = s.world := by
  cases a with
  | handle => exact absurd rfl other
  | _ => rfl

theorem worked_step {around : Surroundings (StateM σ)} {s t : Attended σ}
    (h : (s.watcher.handled.reverse.mapM (handleNotification around) world).2 = s.world)
    (step : act? around s a = some t) :
    (t.watcher.handled.reverse.mapM (handleNotification around) world).2 = t.world := by
  obtain ⟨hstep, hworld⟩ := act_cases step
  by_cases ha : a = .handle
  · subst ha
    obtain ⟨n, hc, hw⟩ := handle_cases hstep
    have hhandled : t.watcher.handled = n :: s.watcher.handled := by rw [hw]
    rw [hworld, hhandled, List.reverse_cons, List.mapM_append, Run.bind_state, h]
    simp only [attend, hc]
    rfl
  · rw [handled_of_step hstep ha, h, hworld, attend_of_ne_handle ha]

theorem kept_of_run
    (run : Run (act? around.logged) Anything (start (.start value) ⟨world, []⟩) as s) :
    Kept around world as s := by
  have hstart : Kept around world [] (start (.start value) ⟨world, []⟩) :=
    ⟨orderly_start _, listened_start _, rfl⟩
  refine run.preserves_along (fun as s a t h _ step => ?_) hstart
  obtain ⟨hstep, -⟩ := act_cases step
  exact ⟨h.orderly.step hstep, h.listened.step hstep, worked_step h.worked step⟩

/-- What the watcher can do, it does with any ledger and any sink. -/
theorem exists_run_of_run {around : Surroundings (StateM σ)} {s : Attended σ}
    (run : Run step? Anything s.watcher bs w) :
    ∃ t, Run (act? around) Anything s bs t ∧ t.watcher = w := by
  induction bs generalizing s with
  | nil =>
    cases run
    exact ⟨s, .nil s, rfl⟩
  | cons b bs ih =>
    cases run with
    | @cons _ v _ _ _ _ step rest =>
      obtain ⟨t, hrun, hw⟩ := ih (s := ⟨v, s.attend around b⟩) rest
      exact ⟨t, .cons trivial (Option.map_eq_some_iff.mpr ⟨v, step, rfl⟩) hrun, hw⟩

/-- A Bitmark watcher with any ledger and any sink, whatever its listener comes with, signals at any
time, and its two tasks in any order. The handled notifications are those that were heard, once each
and in order, but for the ones still in hand; these are handled without help from outside, and the
watcher is over only after that. The receiving task ends when it is told to stop or the listener
fails and for no other reason, and hears nothing more from then on; until then, and after a lost
connection, which changes nothing, it comes to hear whatever is next. Of a notification the row is
looked up and, if this is found, each identifier is attempted once for each place where it stands,
in order: pushed exactly if its transaction is fetched and the bitmark has a number, for the time at
which the notification came; the accepted pushes are counted. An identifier that fails, and a
notification whatever comes of it, is to the others as if it were not there, but for the world that
it leaves. -/
theorem notifications_handled_in_order
    (run : Run (act? around.logged) Anything (start (.start value) ⟨world, []⟩) as s) :
    s.watcher.handled.reverse ++ s.watcher.pending = notifications as ∧
    (∀ result, s.watcher.result? = some result → s.watcher.handled.reverse = notifications as) ∧
    (∃ bs t, (∀ b ∈ bs, b.Passes) ∧ Run (act? around.logged) Anything s bs t ∧
      t.watcher.handled.reverse = notifications as ∧
      ∀ result, s.watcher.receiver = .done result → t.watcher.result? = some result) ∧
    (∀ result, s.watcher.receiver = .done result → Ended as result) ∧
    (¬s.watcher.IsClosed → ∀ cause, .failed cause ∉ heard as) ∧
    (∀ t, act? around.logged s (.hear .lost) = some t → t = s) ∧
    (s.watcher.receiver.passed = .listen → ¬s.watcher.shutdown.IsReady → ∀ h, ∃ bs t u,
      (∀ b ∈ bs, b.Passes) ∧ Run (act? around.logged) Anything s bs t ∧
        act? around.logged t (.hear h) = some u ∧ u.watcher = t.watcher.onHeard h) ∧
    (∃ ds : List Treatment, ds.map Treatment.notification = s.watcher.handled.reverse ∧
      (∀ d ∈ ds, d.Proper) ∧ s.world.exchanges = ds.flatMap Treatment.exchanges ∧
      s.watcher.handled.reverse.mapM (handleNotification around) world =
        (ds.map Treatment.result, s.world.world)) ∧
    (∀ time before id after u,
      handleTransaction around time id (handleAll around time before u).2 =
        (false, (handleAll around time before u).2) →
      handleAll around time (before ++ id :: after) u = handleAll around time (before ++ after) u) ∧
    ∀ before after n u,
      (handleNotification around n (before.mapM (handleNotification around) u).2).2 =
        (before.mapM (handleNotification around) u).2 →
      ∃ earlier later result v,
        (before ++ after).mapM (handleNotification around) u = (earlier ++ later, v) ∧
        (before ++ n :: after).mapM (handleNotification around) u =
          (earlier ++ result :: later, v) := by
  have kept : Kept around world as s := kept_of_run run
  have hconserved : s.watcher.handled.reverse ++ s.watcher.pending = notifications as :=
    kept.orderly.conserved.trans kept.listened.received
  refine ⟨hconserved, fun result hresult => ?_, ?_, kept.listened.ended, kept.listened.going,
    fun t hlost => ?_, fun hlisten quiet h => ?_, ?_,
    fun time before id after u skipped => handleAll_of_skipped skipped after,
    fun before after n u => mapM_of_skipped⟩
  · rwa [kept.orderly.pending_of_result? hresult, List.append_nil] at hconserved
  · obtain ⟨bs, w, passes, hrun, hdrained, -, hover⟩ := kept.orderly.exists_passed
    obtain ⟨t, hrun', rfl⟩ := exists_run_of_run hrun
    have kept' : Kept around world (as ++ bs) t := kept_of_run (run.append hrun')
    have hall := kept'.orderly.conserved.trans kept'.listened.received
    rw [hdrained, List.append_nil, notifications_of_passes passes] at hall
    exact ⟨bs, t, passes, hrun', hall, hover⟩
  · obtain ⟨hstep, hworld⟩ := act_cases hlost
    obtain ⟨-, -, hsame⟩ := hear_cases hstep
    cases t
    cases s
    exact congrArg₂ Attended.mk hsame hworld
  · obtain ⟨bs, v, passes, hrun, hstep⟩ := kept.orderly.exists_hear hlisten quiet h
    obtain ⟨t, hrun', rfl⟩ := exists_run_of_run hrun
    exact ⟨bs, t, _, passes, hrun', Option.map_eq_some_iff.mpr ⟨_, hstep, rfl⟩, rfl⟩
  · obtain ⟨ds, hds, proper, hresults, hlogged⟩ :=
      exists_treatments around s.watcher.handled.reverse ⟨world, []⟩
    have hworld := kept.worked
    rw [Exchanges] at hlogged
    rw [hlogged] at hworld
    refine ⟨ds, hds, proper, ?_, Prod.ext hresults ?_⟩
    · rw [← hworld]
      rfl
    · rw [← hworld]

/-- The row of one notification is not found; the connection is lost; of the next row one
transaction stands twice and one cannot be fetched, and the watcher is told to stop while that
notification waits for room in the queue. -/
theorem notifications_handled_in_order_lost_connection :
    let time : Moment := ⟨⟨1970, 1, 1, by decide⟩, .ofSeconds 0, 0, by decide⟩
    let issue : Transaction := ⟨"0f", "owner", "0f", none⟩
    let around : Surroundings (StateM Unit) :=
      { transactionsOf := fun eventId =>
          if eventId = "1" then pure (.error (.eventNotFound 1)) else pure (.ok ["0f", "a", "0f"])
        transaction := fun id =>
          if id = "0f" then pure (.ok issue) else pure (.error (.database "down"))
        push := fun _ => pure (.ok ()) }
    let notification (eventId : String) : Notification := ⟨eventId, time⟩
    ∃ as s, Run (act? around.logged) Anything (start (.start false) ⟨(), []⟩) as s ∧
      s.watcher.result? = some (.ok ()) ∧
      s.watcher.handled.reverse = [notification "1", notification "2"] ∧
      notifications as = [notification "1", notification "2"] ∧
      ∃ ds : List Treatment, s.world.exchanges = ds.flatMap Treatment.exchanges ∧
        ds.map Treatment.notification = [notification "1", notification "2"] ∧
        ds.map Treatment.result = [.error (.eventNotFound 1), .ok 2] := by
  intro time issue around notification
  let as : List Action :=
    [.connect (.ok ()), .hear (.notification (notification "1")), .enqueue, .hear .lost, .take,
      .hear (.notification (notification "2")), .send true, .handle, .enqueue, .notice, .take,
      .handle, .close]
  obtain ⟨s, run, hover, hhandled⟩ : ∃ s,
      Run (act? around.logged) Anything (start (.start false) ⟨(), []⟩) as s ∧
      s.watcher.result? = some (.ok ()) ∧
      s.watcher.handled.reverse = [notification "1", notification "2"] :=
    ⟨_, .of_foldlM rfl, rfl, rfl⟩
  have numbers : Numbers "0f" 15 := by
    have bound : 15 < 2 ^ 512 := by
      calc 15 < 2 ^ 4 := by decide
        _ ≤ 2 ^ 512 := Nat.pow_le_pow_right (by decide) (by decide)
    refine ⟨?_, by decide, bound⟩
    show ∀ c ∈ ['0', 'f'], c.toLower ∈ Hex.alphabet
    simp only [List.forall_mem_cons, List.not_mem_nil, false_implies, implies_true, and_true]
    decide
  obtain ⟨e, event, -⟩ := Transaction.exists_event (t := issue) numbers time
  have hpushed : handleTransaction around time "0f" () = (true, ()) :=
    handleTransaction_of_event rfl event
  have hrow : handleAll around time ["0f", "a", "0f"] () = (2, ()) := by
    rw [handleAll_cons, hpushed, handleAll_cons, handleTransaction_of_error rfl, handleAll_cons,
      hpushed]
    rfl
  have hcounted : ([notification "1", notification "2"].mapM (handleNotification around) ()).1 =
      [.error (.eventNotFound 1), .ok 2] := by
    have hfound : handleNotification around (notification "2") () = (.ok 2, ()) := by
      rw [handleNotification_of_ok rfl]
      exact congrArg (fun counted => (Except.ok counted.1, counted.2)) hrow
    simp only [List.mapM_cons, Run.bind_state, hfound]
    rfl
  obtain ⟨-, hall, -, -, -, -, -, ⟨ds, hds, -, hexchanges, hresults⟩, -⟩ :=
    notifications_handled_in_order run
  rw [hhandled] at hds hresults
  refine ⟨as, s, run, hover, hhandled, ?_, ds, hexchanges, hds, ?_⟩
  · rw [← hall _ hover, hhandled]
  · rw [← hcounted, hresults]

end TokenWatch.Bitmark.Attended
