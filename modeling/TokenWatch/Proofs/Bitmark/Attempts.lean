import TokenWatch.Proofs.Bitmark.Reporting
import TokenWatch.Proofs.Event.Numbers

/-!
What is asked of the ledger and of the sink to handle a notification, and what the identifiers of a
row have to do with each other.
-/
namespace TokenWatch.Bitmark.Handler
open Time

inductive Exchange where
  | row (eventId : String) (answer : Except Error (List String))
  | fetch (id : String) (answer : Except Error Transaction)
  | push (e : Event) (answer : PushResult)

structure Logged (σ : Type) where
  world : σ
  exchanges : List Exchange

variable {σ α : Type} {around : Surroundings (StateM σ)} {time : Moment} {id eventId : String}
  {s : Logged σ} {world u v : σ}

section Logging

def exchange (note : α → Exchange) (x : StateM σ α) : StateM (Logged σ) α := fun s =>
  ((x s.world).1, ⟨(x s.world).2, s.exchanges ++ [note (x s.world).1]⟩)

def Surroundings.logged (around : Surroundings (StateM σ)) : Surroundings (StateM (Logged σ)) where
  transactionsOf eventId := exchange (.row eventId) (around.transactionsOf eventId)
  transaction id := exchange (.fetch id) (around.transaction id)
  push e := exchange (.push e) (around.push e)

/-- One computation does, with a record of these exchanges, what another does without. -/
def Exchanges (s : Logged σ) (x : StateM (Logged σ) α) (y : StateM σ α) (xs : List Exchange) :
    Prop :=
  x s = ((y s.world).1, ⟨(y s.world).2, s.exchanges ++ xs⟩)

end Logging

section Attempting

structure Attempt where
  id : String
  fetched : Except Error Transaction
  pushed : Option (Event × PushResult)

namespace Attempt

def accepted (a : Attempt) : Bool := a.pushed.any fun (_, answer) => answer.isOk

def exchanges (a : Attempt) : List Exchange :=
  .fetch a.id a.fetched :: (a.pushed.map fun (e, answer) => .push e answer).toList

/-- One push if the transaction was fetched and its bitmark has a number, and else none. -/
structure Proper (a : Attempt) (time : Moment) : Prop where
  pushed : a.pushed ≠ none ↔ ∃ t n, a.fetched = .ok t ∧ Numbers t.bitmarkId n
  event : ∀ e answer, a.pushed = some (e, answer) → ∃ t n, a.fetched = .ok t ∧
    Numbers t.bitmarkId n ∧ t.Reports e ∧ e.tokenId = .ofNat n ∧ e.time = time

end Attempt

variable {t : Transaction} {e : Event} {cause : Error} {n : Nat}

theorem handleTransaction_of_error (h : (around.transaction id world).1 = .error cause) :
    handleTransaction around time id world = (false, (around.transaction id world).2) := by
  rw [handleTransaction, Run.bind_state, h]
  rfl

theorem handleTransaction_of_rejected (h : (around.transaction id world).1 = .ok t)
    (rejected : t.toEvent time = .error cause) :
    handleTransaction around time id world = (false, (around.transaction id world).2) := by
  rw [handleTransaction, Run.bind_state, h]
  simp only [rejected]
  rfl

theorem handleTransaction_of_event (h : (around.transaction id world).1 = .ok t)
    (event : t.toEvent time = .ok e) :
    handleTransaction around time id world =
      ((around.push e (around.transaction id world).2).1.isOk,
        (around.push e (around.transaction id world).2).2) := by
  rw [handleTransaction, Run.bind_state, h]
  simp only [event, Run.bind_state]
  cases (around.push e (around.transaction id world).2).1 with
  | error cause => rfl
  | ok _ => rfl

theorem Attempt.proper_of_error : Attempt.Proper ⟨id, .error cause, none⟩ time where
  pushed := iff_of_false (fun h => h rfl) nofun
  event := by rintro _ _ ⟨⟩

theorem Attempt.proper_of_rejected (h : ∀ n, ¬Numbers t.bitmarkId n) :
    Attempt.Proper ⟨id, .ok t, none⟩ time where
  pushed := by
    refine iff_of_false (fun h => h rfl) ?_
    rintro ⟨_, n, ⟨⟩, hn⟩
    exact h n hn
  event := by rintro _ _ ⟨⟩

theorem Attempt.proper_of_event (numbers : Numbers t.bitmarkId n) (event : t.toEvent time = .ok e)
    (answer : PushResult) : Attempt.Proper ⟨id, .ok t, some (e, answer)⟩ time where
  pushed := iff_of_true nofun ⟨t, n, rfl, numbers⟩
  event := by
    rintro _ _ ⟨⟩
    obtain ⟨e', he, hid⟩ := Transaction.exists_event numbers time
    obtain rfl : e = e' := Except.ok.inj (event.symm.trans he)
    obtain ⟨tokenId, he⟩ := Transaction.toEvent_cases event
    refine ⟨t, n, rfl, numbers, Transaction.reports_of_toEvent event, hid, ?_⟩
    rw [he]
    rfl

/-- Each identifier is attempted: fetched, and pushed if there is something to push. -/
theorem exists_attempt (around : Surroundings (StateM σ)) (time : Moment) (id : String)
    (s : Logged σ) :
    ∃ a : Attempt, a.id = id ∧ a.Proper time ∧
      (handleTransaction around time id s.world).1 = a.accepted ∧
      Exchanges s (handleTransaction around.logged time id) (handleTransaction around time id)
        a.exchanges := by
  cases hfetch : (around.transaction id s.world).1 with
  | error cause =>
    have hplain := @handleTransaction_of_error _ around time _ _ _ hfetch
    have hlogged := @handleTransaction_of_error _ around.logged time _ s _ hfetch
    refine ⟨⟨id, .error cause, none⟩, rfl, Attempt.proper_of_error, congrArg Prod.fst hplain, ?_⟩
    rw [Exchanges, hplain, hlogged, ← hfetch]
    rfl
  | ok t =>
    by_cases numbers : ∃ n, Numbers t.bitmarkId n
    · obtain ⟨n, numbers⟩ := numbers
      obtain ⟨e, event, -⟩ := Transaction.exists_event numbers time
      have hplain := handleTransaction_of_event hfetch event
      have hlogged := @handleTransaction_of_event _ around.logged time _ s _ _ hfetch event
      let answer := (around.push e (around.transaction id s.world).2).1
      refine ⟨⟨id, .ok t, some (e, answer)⟩, rfl, Attempt.proper_of_event numbers event answer,
        congrArg Prod.fst hplain, ?_⟩
      rw [Exchanges, hplain, hlogged, Attempt.exchanges, ← hfetch, Option.map_some,
        Option.toList_some, List.append_cons]
      rfl
    · have hnone : ∀ n, ¬Numbers t.bitmarkId n := not_exists.mp numbers
      have rejected := Transaction.toEvent_of_not_numbers hnone time
      have hplain := handleTransaction_of_rejected hfetch rejected
      have hlogged := @handleTransaction_of_rejected _ around.logged time _ s _ _ hfetch rejected
      refine ⟨⟨id, .ok t, none⟩, rfl, Attempt.proper_of_rejected hnone, congrArg Prod.fst hplain,
        ?_⟩
      rw [Exchanges, hplain, hlogged, ← hfetch]
      rfl

end Attempting

section Rows

variable {ids before after : List String}

theorem handleAll_cons (id : String) (ids : List String) (world : σ) :
    handleAll around time (id :: ids) world =
      ((handleAll around time ids (handleTransaction around time id world).2).1 +
          (handleTransaction around time id world).1.toNat,
        (handleAll around time ids (handleTransaction around time id world).2).2) := by
  rw [handleAll, Run.bind_state, Run.bind_state]
  cases (handleTransaction around time id world).1 <;> rfl

/-- The identifiers after some others are handled in the world that these leave. -/
theorem handleAll_append (before after : List String) (world : σ) :
    handleAll around time (before ++ after) world =
      ((handleAll around time before world).1 +
          (handleAll around time after (handleAll around time before world).2).1,
        (handleAll around time after (handleAll around time before world).2).2) := by
  induction before generalizing world with
  | nil =>
    rw [List.nil_append]
    exact Prod.ext (Nat.zero_add _).symm rfl
  | cons id before ih =>
    rw [List.cons_append, handleAll_cons, ih, handleAll_cons]
    exact Prod.ext (Nat.add_right_comm _ _ _) rfl

/-- An identifier that comes to nothing and leaves the world as it is might as well not be there. -/
theorem handleAll_of_skipped
    (h : handleTransaction around time id (handleAll around time before world).2 =
      (false, (handleAll around time before world).2)) (after : List String) :
    handleAll around time (before ++ id :: after) world =
      handleAll around time (before ++ after) world := by
  rw [handleAll_append, handleAll_append, handleAll_cons, h]
  rfl

theorem exists_attempts (around : Surroundings (StateM σ)) (time : Moment) (ids : List String)
    (s : Logged σ) :
    ∃ attempts : List Attempt, attempts.map Attempt.id = ids ∧ (∀ a ∈ attempts, a.Proper time) ∧
      (handleAll around time ids s.world).1 = attempts.countP Attempt.accepted ∧
      Exchanges s (handleAll around.logged time ids) (handleAll around time ids)
        (attempts.flatMap Attempt.exchanges) := by
  induction ids generalizing s with
  | nil =>
    refine ⟨[], rfl, List.forall_mem_nil _, rfl, ?_⟩
    rw [Exchanges, List.flatMap_nil, List.append_nil]
    rfl
  | cons id ids ih =>
    obtain ⟨a, rfl, proper, haccepted, hfirst⟩ := exists_attempt around time id s
    rw [Exchanges] at hfirst
    obtain ⟨attempts, rfl, hproper, hcount, hrest⟩ :=
      ih (handleTransaction around.logged time a.id s).2
    rw [Exchanges, hfirst] at hrest
    rw [hfirst] at hcount
    refine ⟨a :: attempts, rfl, List.forall_mem_cons.mpr ⟨proper, hproper⟩, ?_, ?_⟩
    · rw [handleAll_cons, List.countP_cons, ← hcount, haccepted]
      cases a.accepted <;> rfl
    · rw [Exchanges, handleAll_cons, handleAll_cons, hfirst, List.flatMap_cons, ← List.append_assoc]
      simp only [hrest]

end Rows

section Notifications

structure Treatment where
  notification : Notification
  row : Except Error (List String)
  attempts : List Attempt

namespace Treatment

def exchanges (d : Treatment) : List Exchange :=
  .row d.notification.eventId d.row :: d.attempts.flatMap Attempt.exchanges

def result (d : Treatment) : Except Error Nat :=
  d.row.map fun _ => d.attempts.countP Attempt.accepted

/-- The identifiers of the row, and they alone, were attempted as often and in the order as they
stand there, for the time at which the notification came. -/
structure Proper (d : Treatment) : Prop where
  attempted : d.attempts.map Attempt.id = (d.row.toOption.getD [])
  proper : ∀ a ∈ d.attempts, a.Proper d.notification.receivedAt

end Treatment

theorem handleNotification_of_error {n : Notification} {cause : Error}
    (h : (around.transactionsOf n.eventId world).1 = .error cause) :
    handleNotification around n world =
      (.error cause, (around.transactionsOf n.eventId world).2) := by
  rw [handleNotification, Run.bind_state, h]
  rfl

theorem handleNotification_of_ok {n : Notification} {ids : List String}
    (h : (around.transactionsOf n.eventId world).1 = .ok ids) :
    handleNotification around n world =
      (.ok (handleAll around n.receivedAt ids (around.transactionsOf n.eventId world).2).1,
        (handleAll around n.receivedAt ids (around.transactionsOf n.eventId world).2).2) := by
  rw [handleNotification, Run.bind_state, h]
  rfl

theorem exists_treatment (around : Surroundings (StateM σ)) (n : Notification) (s : Logged σ) :
    ∃ d : Treatment, d.notification = n ∧ d.Proper ∧
      (handleNotification around n s.world).1 = d.result ∧
      Exchanges s (handleNotification around.logged n) (handleNotification around n)
        d.exchanges := by
  cases hrow : (around.transactionsOf n.eventId s.world).1 with
  | error cause =>
    have hplain := handleNotification_of_error hrow
    have hlogged := @handleNotification_of_error _ around.logged s _ _ hrow
    refine ⟨⟨n, .error cause, []⟩, rfl, ⟨rfl, List.forall_mem_nil _⟩,
      congrArg Prod.fst hplain, ?_⟩
    rw [Exchanges, hplain, hlogged, ← hrow]
    rfl
  | ok ids =>
    have hplain := handleNotification_of_ok hrow
    have hlogged := @handleNotification_of_ok _ around.logged s _ _ hrow
    obtain ⟨attempts, rfl, proper, hcount, hall⟩ := exists_attempts around n.receivedAt ids
      (around.logged.transactionsOf n.eventId s).2
    refine ⟨⟨n, .ok (attempts.map Attempt.id), attempts⟩, rfl, ⟨rfl, proper⟩, ?_, ?_⟩
    · rw [hplain]
      exact congrArg Except.ok hcount
    · rw [Exchanges] at hall ⊢
      rw [hlogged, hall, hplain, Treatment.exchanges, ← hrow, List.append_cons]
      rfl

/-- Whatever comes of a notification, the next one is handled. -/
theorem exists_treatments (around : Surroundings (StateM σ)) (ns : List Notification)
    (s : Logged σ) :
    ∃ ds : List Treatment, ds.map Treatment.notification = ns ∧ (∀ d ∈ ds, d.Proper) ∧
      (ns.mapM (handleNotification around) s.world).1 = ds.map Treatment.result ∧
      Exchanges s (ns.mapM (handleNotification around.logged)) (ns.mapM (handleNotification around))
        (ds.flatMap Treatment.exchanges) := by
  induction ns generalizing s with
  | nil =>
    refine ⟨[], rfl, List.forall_mem_nil _, rfl, ?_⟩
    rw [Exchanges, List.flatMap_nil, List.append_nil]
    rfl
  | cons n ns ih =>
    obtain ⟨d, rfl, proper, hresult, hfirst⟩ := exists_treatment around n s
    rw [Exchanges] at hfirst
    obtain ⟨ds, rfl, hproper, hresults, hrest⟩ :=
      ih (handleNotification around.logged d.notification s).2
    rw [Exchanges, hfirst] at hrest
    rw [hfirst] at hresults
    refine ⟨d :: ds, rfl, List.forall_mem_cons.mpr ⟨proper, hproper⟩, ?_, ?_⟩
    · rw [List.mapM_cons]
      exact congrArg₂ List.cons hresult hresults
    · rw [Exchanges, List.mapM_cons, List.mapM_cons]
      simp only [Run.bind_state, hfirst, hrest, List.flatMap_cons, List.append_assoc]
      rfl

/-- A notification that leaves the world as it is changes nothing for the others. -/
theorem mapM_of_skipped {before after : List Notification} {n : Notification}
    (h : (handleNotification around n (before.mapM (handleNotification around) world).2).2 =
      (before.mapM (handleNotification around) world).2) :
    ∃ earlier later result w,
      (before ++ after).mapM (handleNotification around) world = (earlier ++ later, w) ∧
      (before ++ n :: after).mapM (handleNotification around) world =
        (earlier ++ result :: later, w) := by
  rw [List.mapM_append, List.mapM_append, List.mapM_cons]
  simp only [Run.bind_state, h]
  exact ⟨_, _, _, _, rfl, rfl⟩

end Notifications
end TokenWatch.Bitmark.Handler
