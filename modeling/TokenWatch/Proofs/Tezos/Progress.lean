import TokenWatch.Proofs.Tezos.GapClosure

/-!
Catching up comes to its end. From every state at which nothing says to stop, honest answers lead
to the point after it, with all events pushed.
-/
namespace TokenWatch.Tezos.Watcher

variable {a : Archive} {level head c : UInt64} {after : Resume} {point target : Receiver}
  {w u v : Watcher} {act : Action} {text : String} {shutdown : Shutdown}

/-- Nothing is on its way between the two tasks, and nothing says to stop. -/
structure AtRest (w : Watcher) : Prop where
  pending : w.pending = []
  queue : w.queue = []
  consumer : w.consumer = .idle
  going : w.shutdown.value = false

/-- Honest answers can bring the watcher to rest at a point, without another head and without a
batch of records. -/
def LeadsTo (a : Archive) (w : Watcher) (point : Receiver) : Prop :=
  ∃ as v, Run step? a.Answers w as v ∧ heads as = [] ∧ (∀ act ∈ as, act.Quiet) ∧ v.AtRest ∧
    v.receiver = point

theorem LeadsTo.trans (h : LeadsTo a w point)
    (next : ∀ v : Watcher, v.AtRest → v.receiver = point → LeadsTo a v target) :
    LeadsTo a w target := by
  obtain ⟨as, v, run, hheads, hquiet, hrest, hr⟩ := h
  obtain ⟨bs, u, run', hheads', hquiet', hrest', hr'⟩ := next v hrest hr
  refine ⟨as ++ bs, u, run.append run', ?_, ?_, hrest', hr'⟩
  · rw [heads_append, hheads, hheads']
    rfl
  · intro act hact
    rcases List.mem_append.mp hact with hact | hact
    · exact hquiet act hact
    · exact hquiet' act hact

theorem LeadsTo.of_step (ok : a.Answers w act) (hhead : act.head? = none) (hq : act.Quiet)
    (h : w.step? act = some u) (hu : LeadsTo a u point) : LeadsTo a w point := by
  obtain ⟨as, v, run, hheads, hquiet, hrest, hr⟩ := hu
  refine ⟨act :: as, v, .cons ok h run, ?_, List.forall_mem_cons.mpr ⟨hq, hquiet⟩, hrest, hr⟩
  rw [heads_cons, hhead, hheads]
  rfl

section Drain

def backlog (w : Watcher) : Nat :=
  5 * w.pending.length + 4 * w.queue.length +
    match w.consumer with
    | .pushing _ => 2
    | .storing _ => 1
    | _ => 0

/-- While events are on their way, the queue or the pushing task can move one of them on. -/
theorem exists_backlog_lt (hc : w.consumer ≠ .done) (hpos : 0 < w.backlog) :
    ∃ act u, ¬act.Receives ∧ w.step? act = some u ∧ u.backlog < w.backlog ∧
      u.consumer ≠ .done ∧ u.shutdown = w.shutdown := by
  cases hconsumer : w.consumer with
  | done => exact absurd hconsumer hc
  | pushing e =>
    refine ⟨.push (.ok ()), w.onPush e (.ok ()), id, by simp [step?, hconsumer], ?_⟩
    rcases onPush_cases w e (.ok ()) with ⟨level, -, -, h⟩ | h
    · rw [h]
      exact ⟨by simp [backlog, hconsumer], by simp, rfl⟩
    · rw [h]
      exact ⟨by simp [backlog, hconsumer], by simp, rfl⟩
  | storing level =>
    have hstep : w.step? (.store true) =
        some { w with consumer := .idle, stored := some (Checkpoint.toText level) } := by
      simp [step?, hconsumer]
    refine ⟨.store true, _, id, hstep, ?_, ?_, rfl⟩
    · simp [backlog, hconsumer]
    · simp
  | idle =>
    cases hqueue : w.queue with
    | cons e rest =>
      have hstep : w.step? .take = some { w with consumer := .pushing e, queue := rest } := by
        simp [step?, hconsumer, hqueue]
      refine ⟨.take, _, id, hstep, ?_, ?_, rfl⟩
      · simp [backlog, hconsumer, hqueue]
        omega
      · simp
    | nil =>
      cases hpending : w.pending with
      | nil => simp [backlog, hconsumer, hqueue, hpending] at hpos
      | cons e rest =>
        have hstep : w.step? .enqueue =
            some { w with pending := rest, queue := [e], enqueued := e :: w.enqueued } := by
          simp [step?, hpending, hqueue, queueSlots]
        refine ⟨.enqueue, _, id, hstep, ?_, ?_, rfl⟩
        · simp [backlog, hconsumer, hqueue, hpending]
          omega
        · simp [hconsumer]

theorem answers_of_not_receives (ha : ¬act.Receives) : a.Answers w act := by
  cases act <;> first | trivial | exact absurd trivial ha

/-- All events on their way can be pushed while the receiving task stays where it is. -/
theorem leadsTo_receiver (hc : w.consumer ≠ .done) (hgo : w.shutdown.value = false) :
    LeadsTo a w w.receiver := by
  induction hn : w.backlog using Nat.strongRecOn generalizing w with
  | ind n ih =>
    by_cases hpos : 0 < w.backlog
    · obtain ⟨act, u, ha, h, hlt, hcu, hshutdown⟩ := exists_backlog_lt hc hpos
      have hr : u.receiver = w.receiver := congrArg Prod.fst (receiveSide_of_not_receives h ha)
      have hu := ih u.backlog (hn ▸ hlt) hcu (hshutdown ▸ hgo) rfl
      rw [hr] at hu
      exact .of_step (answers_of_not_receives ha) (head?_of_not_receives ha)
        (quiet_of_not_receives ha) h hu
    · have hzero : w.backlog = 0 := Nat.eq_zero_of_not_pos hpos
      unfold backlog at hzero
      have hpending : w.pending = [] := List.length_eq_zero_iff.mp (by omega)
      have hqueue : w.queue = [] := List.length_eq_zero_iff.mp (by omega)
      have hidle : w.consumer = .idle := by
        cases hconsumer : w.consumer with
        | idle => rfl
        | done => exact absurd hconsumer hc
        | _ => simp [hconsumer] at hzero
      have hrest : w.AtRest := ⟨hpending, hqueue, hidle, hgo⟩
      exact ⟨[], w, .nil w, rfl, by simp, hrest, rfl⟩

end Drain

section CatchUp

def nextPoint (level head : UInt64) (after : Resume) : Receiver :=
  if level < head then .level (level + 1) head after else after.point

theorem receiver_nextLevel (w : Watcher) (level head : UInt64) (after : Resume) :
    (w.nextLevel level head after).receiver = nextPoint level head after := by
  unfold nextLevel nextPoint
  split
  · rfl
  · exact resume_receiver w after

theorem AtRest.of_kept (hw : w.AtRest) (hkept : u.kept = w.kept) :
    u.consumer ≠ .done ∧ u.shutdown.value = false := by
  simp only [kept, pushSide, Prod.mk.injEq] at hkept
  obtain ⟨-, hvalue, -, hconsumer, -⟩ := hkept
  refine ⟨?_, hvalue.trans hw.going⟩
  rw [hconsumer, hw.consumer]
  simp

theorem AtRest.leadsTo (hw : w.AtRest) (ok : a.Answers w act) (hhead : act.head? = none)
    (hbatch : act.batch? = none) (h : w.step? act = some u) (hkept : u.kept = w.kept)
    (hr : u.receiver = point) : LeadsTo a w point := by
  obtain ⟨hc, hgo⟩ := hw.of_kept hkept
  have hu := leadsTo_receiver (a := a) hc hgo
  rw [hr] at hu
  exact .of_step ok hhead (fun b hb => by cases hbatch.symm.trans hb) h hu

theorem length_page_le {α : Type} (offset : Nat) (l : List α) :
    (Archive.page offset l).length ≤ l.length - offset := by
  rw [Archive.page, List.length_take, List.length_drop]
  exact Nat.min_le_right _ _

theorem leadsTo_of_updates {offset : UInt64} (hw : w.AtRest)
    (hr : w.receiver = .updates level head offset after) :
    LeadsTo a w (nextPoint level head after) := by
  induction hn : (a.updatesAt level).length - offset.toNat using Nat.strongRecOn
    generalizing w offset with
  | ind n ih =>
    let page := Archive.page offset.toNat (a.updatesAt level)
    have hstep : w.step? (.updatesPage (.ok page)) =
        some (w.onUpdates level head offset after (.ok page)) := by
      simp [step?, hw.pending, receive?, hr]
    have ok : a.Answers w (.updatesPage (.ok page)) := by
      intro level' head' offset' after' hr'
      cases hr.symm.trans hr'
      rfl
    have hkept := kept_onUpdates w level head offset after (.ok page)
    have hlength : page.length ≤ n := hn ▸ length_page_le offset.toNat (a.updatesAt level)
    by_cases hfull : pageLimit ≤ page.length
    · have hpoint : (w.onUpdates level head offset after (.ok page)).receiver =
          .updates level head (nextPage offset) after := by
        simp [onUpdates, hfull]
      refine (hw.leadsTo ok rfl rfl hstep hkept hpoint).trans fun v hv hrv => ?_
      have hnext := Archive.toNat_nextPage (a.length_updatesAt_lt level) hfull
      have hlimit : 0 < pageLimit := by decide
      exact ih _ (by omega) hv hrv rfl
    · have hpoint : (w.onUpdates level head offset after (.ok page)).receiver =
          nextPoint level head after := by
        simp [onUpdates, hfull, receiver_nextLevel]
      exact hw.leadsTo ok rfl rfl hstep hkept hpoint

theorem leadsTo_of_transfers {offset : UInt64} (hw : w.AtRest)
    (hr : w.receiver = .transfers level head offset after) :
    LeadsTo a w (.updates level head 0 after) := by
  induction hn : (a.transfersAt level).length - offset.toNat using Nat.strongRecOn
    generalizing w offset with
  | ind n ih =>
    let page := Archive.page offset.toNat (a.transfersAt level)
    have hstep : w.step? (.transfersPage (.ok page)) =
        some (w.onTransfers level head offset after (.ok page)) := by
      simp [step?, hw.pending, receive?, hr]
    have ok : a.Answers w (.transfersPage (.ok page)) := by
      intro level' head' offset' after' hr'
      cases hr.symm.trans hr'
      rfl
    have hkept := kept_onTransfers w level head offset after (.ok page)
    have hlength : page.length ≤ n := hn ▸ length_page_le offset.toNat (a.transfersAt level)
    by_cases hfull : pageLimit ≤ page.length
    · have hpoint : (w.onTransfers level head offset after (.ok page)).receiver =
          .transfers level head (nextPage offset) after := by
        simp [onTransfers, hfull]
      refine (hw.leadsTo ok rfl rfl hstep hkept hpoint).trans fun v hv hrv => ?_
      have hnext := Archive.toNat_nextPage (a.length_transfersAt_lt level) hfull
      have hlimit : 0 < pageLimit := by decide
      exact ih _ (by omega) hv hrv rfl
    · have hpoint : (w.onTransfers level head offset after (.ok page)).receiver =
          .updates level head 0 after := by
        simp [onTransfers, hfull]
      exact hw.leadsTo ok rfl rfl hstep hkept hpoint

/-- From any level on, honest answers lead to what catching up is followed by. -/
theorem leadsTo_of_level (hw : w.AtRest) (hr : w.receiver = .level level head after) :
    LeadsTo a w after.point := by
  induction hn : head.toNat - level.toNat using Nat.strongRecOn generalizing w level with
  | ind n ih =>
    have hstep : w.step? .check = some { w with receiver := .transfers level head 0 after } := by
      simp [step?, hw.pending, receive?, hr, hw.going]
    have ok : a.Answers w .check := trivial
    have hfirst : LeadsTo a w (.transfers level head 0 after) :=
      hw.leadsTo ok rfl rfl hstep rfl rfl
    have hlevel : LeadsTo a w (nextPoint level head after) :=
      (hfirst.trans fun v hv hrv => leadsTo_of_transfers hv hrv).trans
        fun v hv hrv => leadsTo_of_updates hv hrv
    by_cases hlt : level < head
    · refine hlevel.trans fun v hv hrv => ?_
      have hrv : v.receiver = .level (level + 1) head after := by
        simpa [nextPoint, hlt] using hrv
      have hnext := toNat_level_add_one hlt
      have hless := UInt64.lt_iff_toNat_lt.mp hlt
      exact ih _ (by omega) hv hrv rfl
    · simpa [nextPoint, hlt] using hlevel

/-- A new watcher with a checkpoint can catch up to any head and push all that it replays. -/
theorem exists_caught_up (hc : Checkpoint.ofText? text = some c)
    (hgo : shutdown.value = false) (head : UInt64) :
    ∃ as v, Run step? a.Answers (Watcher.start (some text) shutdown) as v ∧ heads as = [head] ∧
      (∀ act ∈ as, act.Quiet) ∧ v.AtRest ∧ v.receiver = .subscribe := by
  have hload : Watermark.fresh.load (some (some text)) = (⟨c⟩, some c) := Watermark.load_fresh hc
  let loaded : Watcher :=
    { Watcher.start (some text) shutdown with watermark := ⟨c⟩, receiver := .head c .subscribe }
  have hfirst : (Watcher.start (some text) shutdown).step? (.load (some (some text))) =
      some loaded := by
    simp [step?, receive?, Watcher.start, hload, loaded]
  have hsecond : loaded.step? (.head (.ok head)) =
      some (loaded.onHead c .subscribe (.ok head)) := rfl
  have hrest : loaded.AtRest := ⟨rfl, rfl, rfl, hgo⟩
  obtain ⟨hconsumer, hvalue⟩ := hrest.of_kept (kept_onHead loaded c .subscribe (.ok head))
  have hcaught : LeadsTo a (loaded.onHead c .subscribe (.ok head)) .subscribe := by
    have hstay := leadsTo_receiver (a := a) hconsumer hvalue
    by_cases hle : c ≤ head
    · have hpoint : (loaded.onHead c .subscribe (.ok head)).receiver =
          .level c head .subscribe := by
        simp [onHead, hle]
      rw [hpoint] at hstay
      exact hstay.trans fun v hv hrv => leadsTo_of_level hv hrv
    · have hpoint : (loaded.onHead c .subscribe (.ok head)).receiver = .subscribe := by
        simp [onHead, hle, resume]
      rwa [hpoint] at hstay
  obtain ⟨as, v, run, hheads, hquiet, hv, hr⟩ := hcaught
  refine ⟨.load (some (some text)) :: .head (.ok head) :: as, v,
    .cons rfl hfirst (.cons ⟨head, rfl⟩ hsecond run), ?_, ?_, hv, hr⟩
  · rw [heads_cons, heads_cons, hheads]
    rfl
  · have hload : (Action.load (some (some text))).Quiet := fun _ hb => by cases hb
    have hhead : (Action.head (.ok head)).Quiet := fun _ hb => by cases hb
    exact List.forall_mem_cons.mpr ⟨hload, List.forall_mem_cons.mpr ⟨hhead, hquiet⟩⟩

end CatchUp

end TokenWatch.Tezos.Watcher
