import TokenWatch.Proofs.Bitmark.Step
import TokenWatch.Proofs.Event.Canonical
import TokenWatch.Proofs.Event.Recorded
import TokenWatch.Proofs.Run

/-!
The events that the Bitmark watcher hands to the sink, compared with the transactions of the ledger.
-/
namespace TokenWatch.Bitmark
open Time Recorded

variable {σ : Type}

/-- An event that says what a transaction says. A bitmark is issued by the transaction that has its
identifier. -/
structure Transaction.Reports (t : Transaction) (e : Event) : Prop where
  canonical : e.IsCanonical
  chain : e.chain = .bitmark
  mint : e.kind = .mint ↔ t.id = t.bitmarkId
  target : e.target = t.owner
  source : e.kind ≠ .mint → e.source = t.previousOwner.getD ""
  txId : e.txId = t.id

namespace Transaction

variable {t : Transaction} {e : Event} {time : Moment}

def report (t : Transaction) (tokenId : TokenId) (time : Moment) : Transfer where
  source := if t.IsIssue then none else some (t.previousOwner.getD "")
  target := t.owner
  contract := ""
  tokenId := tokenId
  txId := t.id
  index := 0
  time := time
  level := none

theorem toEvent_cases (h : t.toEvent time = .ok e) :
    ∃ tokenId, e = .ofTransfer .bitmark (t.report tokenId time) := by
  unfold toEvent at h
  split at h
  · cases h
  · rename_i tokenId _
    exact ⟨tokenId, (Except.ok.inj h).symm⟩

theorem reports_of_toEvent (h : t.toEvent time = .ok e) : t.Reports e := by
  obtain ⟨tokenId, rfl⟩ := toEvent_cases h
  have canonical : (Event.ofTransfer .bitmark (t.report tokenId time)).IsCanonical :=
    Event.isCanonical_ofTransfer ⟨nofun, nofun⟩ (fun _ => rfl) nofun
  by_cases issue : t.IsIssue
  · have hsource : (t.report tokenId time).source = none := if_pos issue
    have hkind : (Event.ofTransfer .bitmark (t.report tokenId time)).kind = .mint := by
      rw [Event.kind_ofTransfer, hsource]
      rfl
    refine ⟨canonical, rfl, ?_, rfl, fun hmint => absurd hkind hmint, rfl⟩
    exact iff_of_true hkind issue.symm
  · have hsource : (t.report tokenId time).source = some (t.previousOwner.getD "") := if_neg issue
    have hmint : EventKind.derive .bitmark (t.report tokenId time).source
        (t.report tokenId time).target ≠ .mint := by
      rw [hsource]
      nofun
    refine ⟨canonical, rfl, ?_, rfl, fun _ => Event.source_of_not_mint hsource hmint, rfl⟩
    exact iff_of_false hmint fun hid => issue hid.symm

end Transaction

namespace Handler

def Surroundings.recorded (around : Surroundings (StateM σ)) :
    Surroundings (StateM (Recorded σ)) where
  transactionsOf eventId := lift (around.transactionsOf eventId)
  transaction id := lift (around.transaction id)
  push := Recorded.push around.push

def Surroundings.Holds (around : Surroundings (StateM σ)) (t : Transaction) : Prop :=
  ∃ id world, (around.transaction id world).1 = .ok t

variable {around : Surroundings (StateM σ)}

def Surroundings.Reports (around : Surroundings (StateM σ)) (e : Event) : Prop :=
  ∃ t, around.Holds t ∧ t.Reports e

theorem pushes_handleTransaction (time : Moment) (id : String) :
    Pushes around.Reports (handleTransaction around.recorded time id) := by
  apply (pushes_lift _).bind
  intro r
  split
  · exact pushes_pure _
  · rename_i t ht
    split
    · exact pushes_pure _
    · rename_i e he
      apply (pushes_push ⟨t, ⟨id, r.world, ht⟩, Transaction.reports_of_toEvent he⟩).bind
      intro r
      split <;> exact pushes_pure _

theorem pushes_handleAll (time : Moment) (ids : List String) :
    Pushes around.Reports (handleAll around.recorded time ids) := by
  induction ids with
  | nil => exact pushes_pure _
  | cons id ids ih =>
    apply (pushes_handleTransaction time id).bind
    intro r
    exact ih.bind fun _ => pushes_pure _

/-- Whatever comes of a notification, transactions are only handed over as what they are. -/
theorem pushes_handleNotification (n : Notification) :
    Pushes around.Reports (handleNotification around.recorded n) := by
  apply (pushes_lift _).bind
  intro r
  split
  · exact pushes_pure _
  · exact (pushes_handleAll n.receivedAt _).bind fun _ => pushes_pure _

end Handler

/-- A watcher with the world in which its notifications are handled. -/
structure Attended (σ : Type) where
  watcher : Watcher
  world : σ

namespace Attended
open Watcher

variable {around : Handler.Surroundings (StateM σ)}

def start (shutdown : Shutdown) (world : σ) : Attended σ := ⟨.start shutdown, world⟩

/-- The world after an action: that after the notification in hand, if it was handled. -/
def attend (around : Handler.Surroundings (StateM σ)) (s : Attended σ) : Action → σ
  | .handle =>
    match s.watcher.consumer with
    | .handling n => ((Handler.handleNotification around n).run s.world).2
    | _ => s.world
  | _ => s.world

def act? (around : Handler.Surroundings (StateM σ)) (s : Attended σ) (a : Action) :
    Option (Attended σ) :=
  (s.watcher.step? a).map fun watcher => ⟨watcher, s.attend around a⟩

def Reporting (around : Handler.Surroundings (StateM σ)) (s : Attended (Recorded σ)) : Prop :=
  ∀ e ∈ s.world.pushed, around.Reports e

variable {s t : Attended (Recorded σ)} {a : Action}

theorem Reporting.step (h : Reporting around s) (step : act? around.recorded s a = some t) :
    Reporting around t := by
  obtain ⟨w, hstep, rfl⟩ := Option.map_eq_some_iff.mp step
  cases a with
  | handle =>
    obtain ⟨n, hc, rfl⟩ := handle_cases hstep
    intro e he
    simp only [attend, hc] at he
    rcases (Handler.pushes_handleNotification n).of_mem he with hnew | hold
    · exact hnew
    · exact h e hold
  | _ => exact h

theorem reporting_of_run {allowed : Attended (Recorded σ) → Action → Prop} {as : List Action}
    {shutdown : Shutdown} {world : σ}
    (run : Run (act? around.recorded) allowed (start shutdown ⟨world, []⟩) as s) :
    Reporting around s :=
  run.preserves (fun _ _ _ h _ step => h.step step) (List.forall_mem_nil _)

end Attended
end TokenWatch.Bitmark
