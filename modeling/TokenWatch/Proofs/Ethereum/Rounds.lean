import TokenWatch.Ethereum.Handler
import TokenWatch.Proofs.Ethereum.Order

/-!
An Ethereum watcher with its node and its handler. A script says what the node has for each call;
what came of each call is kept, and so is what the handling of each log came to.
-/
namespace TokenWatch.Ethereum
open Watcher

/-- What the node has for one call. -/
inductive Offer where
  /-- No answer comes. -/
  | hangs
  | refused (cause : String)
  /-- The logs of a stream, and whether it ends after them. -/
  | stream (logs : List Log) (ends : Bool)

/-- What came of one call. -/
structure Round where
  /-- A call that was given up has none. -/
  answer : Option (Except String Unit)
  heard : List Log
  ended : Bool

namespace Round

def fresh : Round := ⟨none, [], false⟩

def Over (r : Round) : Prop := r.answer = some (.ok ()) → r.ended = true

def answered (answer : Except String Unit) (r : Round) : Round := { r with answer := some answer }

def next (log : Option Log) (r : Round) : Round :=
  match log with
  | some log => { r with heard := r.heard ++ [log] }
  | none => { r with ended := true }

end Round

/-- What was heard in all rounds; these are newest first. -/
def heard (rounds : List Round) : List Log := rounds.reverse.flatMap Round.heard

@[simp] theorem heard_cons (r : Round) (rounds : List Round) :
    heard (r :: rounds) = heard rounds ++ r.heard := by
  simp [heard]

theorem heard_answered (answer : Except String Unit) (rounds : List Round) :
    heard (rounds.modifyHead (.answered answer)) = heard rounds := by
  cases rounds with
  | nil => rfl
  | cons r earlier => simp only [List.modifyHead_cons, heard_cons, Round.answered]

theorem heard_next (log : Option Log) (r : Round) (earlier : List Round) :
    heard ((r :: earlier).modifyHead (.next log)) = heard (r :: earlier) ++ log.toList := by
  cases log <;> simp [Round.next]

namespace Offer

def Answers : Offer → Except String Unit → Prop
  | refused cause, .error e => e = cause
  | stream _ _, .ok () => True
  | _, _ => False

/-- What can come next of a stream after what was heard; `none` is its end. -/
def Yields : Offer → List Log → Option Log → Prop
  | stream logs _, heard, some log => heard ++ [log] <+: logs
  | stream logs ends, heard, none => heard = logs ∧ ends = true
  | _, _, _ => False

def Fits (o : Offer) (r : Round) : Prop :=
  match r.answer with
  | none => r.heard = [] ∧ r.ended = false
  | some (.error cause) => o = .refused cause ∧ r.heard = [] ∧ r.ended = false
  | some (.ok ()) =>
    ∃ logs ends, o = .stream logs ends ∧ r.heard <+: logs ∧
      (r.ended = true → r.heard = logs ∧ ends = true)

variable {o : Offer} {r : Round}

theorem fits_fresh (o : Offer) : o.Fits .fresh := ⟨rfl, rfl⟩

theorem Fits.not_ended (h : o.Fits r) (pending : r.answer = none) : r.ended = false := by
  simp only [Fits, pending] at h
  exact h.2

theorem Fits.answered {answer : Except String Unit} (h : o.Fits r) (pending : r.answer = none)
    (ok : o.Answers answer) : o.Fits (r.answered answer) := by
  obtain ⟨hheard, hended⟩ : r.heard = [] ∧ r.ended = false := by
    simpa only [Fits, pending] using h
  cases answer with
  | error e =>
    cases o with
    | refused cause => exact ⟨congrArg _ ok.symm, hheard, hended⟩
    | hangs | stream => cases ok
  | ok _ =>
    cases o with
    | stream logs ends =>
      refine ⟨logs, ends, rfl, ?_, fun hend => ?_⟩
      · simp only [Round.answered, hheard, List.nil_prefix]
      · rw [Round.answered, hended] at hend
        cases hend
    | hangs | refused => cases ok

theorem Fits.next {log : Option Log} (h : o.Fits r) (listening : r.answer = some (.ok ()))
    (going : r.ended = false) (ok : o.Yields r.heard log) : o.Fits (r.next log) := by
  obtain ⟨logs, ends, rfl, hprefix, -⟩ : ∃ logs ends, o = .stream logs ends ∧ r.heard <+: logs ∧
      (r.ended = true → r.heard = logs ∧ ends = true) := by
    simpa only [Fits, listening] using h
  cases log with
  | some log =>
    simp only [Round.next, Fits, listening, going]
    exact ⟨logs, ends, rfl, ok, nofun⟩
  | none =>
    simp only [Round.next, Fits, listening]
    exact ⟨logs, ends, rfl, hprefix, fun _ => ok⟩

end Offer

/-- A watcher with what came of its calls, and the world in which logs are handled. What the cache,
the chain and the sink will answer may stand in it in advance. -/
structure Attended (σ : Type) where
  watcher : Watcher
  /-- Newest first, as are the results. -/
  rounds : List Round
  world : σ
  results : List (Except Handler.Error (Option Event))

namespace Attended

variable {σ : Type} {around : Handler.Surroundings (StateM σ)} {script : Nat → Offer}
  {s t : Attended σ} {a : Action} {as : List Action} {world : σ} {retry : RetrySchedule}
  {shutdown : Shutdown}

def start (retry : RetrySchedule) (shutdown : Shutdown) (world : σ) : Attended σ :=
  ⟨.start retry shutdown, [], world, []⟩

/-- Handles the log in hand. -/
def work (around : Handler.Surroundings (StateM σ)) (s : Attended σ) : Attended σ :=
  match s.watcher.consumer with
  | .handling log =>
    let outcome := (Handler.handle around log).run s.world
    { s with world := outcome.2, results := outcome.1 :: s.results }
  | _ => s

def attend (around : Handler.Surroundings (StateM σ)) (s : Attended σ) : Action → Attended σ
  | .call => { s with rounds := .fresh :: s.rounds }
  | .subscribed answer => { s with rounds := s.rounds.modifyHead (.answered answer) }
  | .hear log => { s with rounds := s.rounds.modifyHead (.next log) }
  | .handle => s.work around
  | _ => s

def act? (around : Handler.Surroundings (StateM σ)) (s : Attended σ) (a : Action) :
    Option (Attended σ) :=
  (s.watcher.step? a).map fun watcher => { s.attend around a with watcher }

/-- The node keeps to the script. -/
def Scripted (script : Nat → Offer) (s : Attended σ) (a : Action) : Prop :=
  match a, s.rounds with
  | .subscribed answer, _ :: earlier => (script earlier.length).Answers answer
  | .hear log, r :: earlier => (script earlier.length).Yields r.heard log
  | .subscribed _, [] => False
  | .hear _, [] => False
  | _, _ => True

theorem rounds_work (around : Handler.Surroundings (StateM σ)) (s : Attended σ) :
    (s.work around).rounds = s.rounds := by
  unfold work
  split <;> rfl

/-- Only the receiving task has to do with the node. -/
theorem rounds_attend (around : Handler.Surroundings (StateM σ)) (s : Attended σ)
    (ha : ¬a.Receives) : (s.attend around a).rounds = s.rounds := by
  cases a with
  | handle => exact rounds_work around s
  | take | close | elapse | send | dropSender => rfl
  | _ => exact absurd trivial ha

theorem act_cases (h : act? around s a = some t) :
    ∃ w, s.watcher.step? a = some w ∧ t = { s.attend around a with watcher := w } := by
  obtain ⟨w, hstep, rfl⟩ := Option.map_eq_some_iff.mp h
  exact ⟨w, hstep, rfl⟩

theorem act_of_step {w : Watcher} (h : s.watcher.step? a = some w) :
    act? around s a = some { s.attend around a with watcher := w } := by
  rw [act?, h]
  rfl

section Conversation

def At (last? : Option Round) : Receiver → Prop
  | .ready | .waiting _ => ∀ r ∈ last?, r.Over
  | .calling => ∃ r ∈ last?, r.answer = none
  | .listen | .sending _ => ∃ r ∈ last?, r.answer = some (.ok ()) ∧ r.ended = false
  | .done => True

/-- The rounds are what the node had for them, and one follows when the one before is over. -/
structure Conversed (script : Nat → Offer) (rounds : List Round) (receiver : Receiver) : Prop where
  fits : ∀ r earlier, r :: earlier <:+ rounds → (script earlier.length).Fits r
  settled : ∀ r ∈ rounds.tail, r.Over
  last : At rounds.head? receiver

variable {rounds : List Round} {receiver receiver' : Receiver} {r r' : Round}

theorem conversed_nil (script : Nat → Offer) : Conversed script [] .ready where
  fits r earlier h := by simp at h
  settled := nofun
  last := nofun

/-- A step of the receiving task that is not about a call. -/
theorem Conversed.move (h : Conversed script rounds receiver)
    (last : At rounds.head? receiver → At rounds.head? receiver') :
    Conversed script rounds receiver' :=
  ⟨h.fits, h.settled, last h.last⟩

theorem Conversed.call (h : Conversed script rounds .ready) :
    Conversed script (.fresh :: rounds) .calling where
  fits r earlier hsuffix := by
    rcases List.suffix_cons_iff.mp hsuffix with heq | hsuffix
    · obtain ⟨rfl, rfl⟩ := List.cons.inj heq
      exact Offer.fits_fresh _
    · exact h.fits r earlier hsuffix
  settled := by
    cases rounds with
    | nil => exact nofun
    | cons last earlier => exact List.forall_mem_cons.mpr ⟨h.last last rfl, h.settled⟩
  last := ⟨.fresh, rfl, rfl⟩

/-- Something comes of the last round. -/
theorem Conversed.tell (h : Conversed script (r :: rounds) receiver)
    (fits : (script rounds.length).Fits r') (last : At (some r') receiver') :
    Conversed script (r' :: rounds) receiver' where
  fits other earlier hsuffix := by
    rcases List.suffix_cons_iff.mp hsuffix with heq | hsuffix
    · obtain ⟨rfl, rfl⟩ := List.cons.inj heq
      exact fits
    · exact h.fits other earlier (hsuffix.trans (List.suffix_cons _ _))
  settled := h.settled
  last := last

/-- The call that is under way. -/
theorem Conversed.exists_call (h : Conversed script rounds .calling) :
    ∃ r earlier, rounds = r :: earlier ∧ r.answer = none ∧ (script earlier.length).Fits r := by
  obtain ⟨r, hr, hpending⟩ := h.last
  obtain ⟨earlier, rfl⟩ := List.head?_eq_some_iff.mp hr
  exact ⟨r, earlier, rfl, hpending, h.fits r earlier List.suffix_rfl⟩

/-- The stream that is listened to. -/
theorem Conversed.exists_stream (h : Conversed script rounds .listen) :
    ∃ r earlier, rounds = r :: earlier ∧ r.answer = some (.ok ()) ∧ r.ended = false ∧
      (script earlier.length).Fits r := by
  obtain ⟨r, hr, hok, hgoing⟩ := h.last
  obtain ⟨earlier, rfl⟩ := List.head?_eq_some_iff.mp hr
  exact ⟨r, earlier, rfl, hok, hgoing, h.fits r earlier List.suffix_rfl⟩

/-- A round with those before it and after it, which are newest first. -/
theorem exists_earlier {k : Nat} (h : rounds.reverse[k]? = some r) :
    ∃ newer earlier, rounds = newer ++ r :: earlier ∧ earlier.length = k := by
  obtain ⟨hk, rfl⟩ := List.getElem?_eq_some_iff.mp h
  refine ⟨(rounds.reverse.drop (k + 1)).reverse, (rounds.reverse.take k).reverse, ?_, ?_⟩
  · rw [← List.reverse_inj, List.reverse_append, List.reverse_cons, List.reverse_reverse,
      List.reverse_reverse, List.append_assoc, List.singleton_append, List.getElem_cons_drop,
      List.take_append_drop]
  · rw [List.length_reverse, List.length_take, Nat.min_eq_left (Nat.le_of_lt hk)]

/-- Each round is what the node had for its call, and over when another call follows. -/
theorem Conversed.round {k : Nat} (h : Conversed script rounds receiver)
    (hr : rounds.reverse[k]? = some r) :
    (script k).Fits r ∧ (k + 1 < rounds.length → r.Over) := by
  obtain ⟨newer, earlier, rfl, rfl⟩ := exists_earlier hr
  refine ⟨h.fits r earlier (List.suffix_append _ _), fun hmore => ?_⟩
  cases newer with
  | nil => exact absurd hmore (Nat.lt_irrefl _)
  | cons last newer => exact h.settled r (List.mem_append_right _ List.mem_cons_self)

theorem at_wake {last? : Option Round} (h : At last? receiver) : At last? receiver.wake := by
  cases receiver with
  | calling =>
    obtain ⟨r, hr, hpending⟩ := h
    intro r' hr' hok
    obtain rfl := Option.mem_unique hr hr'
    rw [hpending] at hok
    cases hok
  | _ => exact h

end Conversation

section Keeping

structure Listening (script : Nat → Offer) (s : Attended σ) : Prop where
  conversed : Conversed script s.rounds s.watcher.receiver
  received : s.watcher.received.reverse = heard s.rounds

theorem listening_start (script : Nat → Offer) (retry : RetrySchedule) (shutdown : Shutdown)
    (world : σ) : Listening script (start retry shutdown world) where
  conversed := conversed_nil script
  received := rfl

/-- An action that is not about a call. -/
theorem Listening.move (h : Listening script s) (rounds : t.rounds = s.rounds)
    (received : t.watcher.received = s.watcher.received)
    (last : At s.rounds.head? s.watcher.receiver → At s.rounds.head? t.watcher.receiver) :
    Listening script t where
  conversed := rounds ▸ h.conversed.move last
  received := by rw [rounds, received, h.received]

theorem Listening.call (h : Listening script s) (hr : s.watcher.receiver = .ready) :
    Listening script { s.attend around .call with
      watcher := { s.watcher with
        receiver := .calling, calls := s.watcher.clock :: s.watcher.calls } } := by
  constructor
  · show Conversed script (.fresh :: s.rounds) .calling
    exact (hr ▸ h.conversed).call
  · show s.watcher.received.reverse = heard (.fresh :: s.rounds)
    rw [heard_cons, h.received]
    exact (List.append_nil _).symm

theorem Listening.subscribed {answer : Except String Unit} (h : Listening script s)
    (hr : s.watcher.receiver = .calling) (ok : Scripted script s (.subscribed answer)) :
    Listening script { s.attend around (.subscribed answer) with
      watcher := s.watcher.onAnswer answer } := by
  obtain ⟨r, earlier, hrounds, hpending, hfits⟩ := (hr ▸ h.conversed).exists_call
  have hconversed : Conversed script (r :: earlier) s.watcher.receiver := hrounds ▸ h.conversed
  have hanswers : (script earlier.length).Answers answer := by
    simpa only [Scripted, hrounds] using ok
  have hfits' := hfits.answered hpending hanswers
  have hheard : s.watcher.received.reverse = heard (s.rounds.modifyHead (.answered answer)) := by
    rw [heard_answered, h.received]
  cases answer with
  | ok _ =>
    refine ⟨?_, hheard⟩
    show Conversed script (s.rounds.modifyHead _) .listen
    rw [hrounds]
    exact hconversed.tell hfits' ⟨_, rfl, rfl, hfits.not_ended hpending⟩
  | error e =>
    refine ⟨?_, hheard⟩
    show Conversed script (s.rounds.modifyHead _) (.waiting _)
    rw [hrounds]
    refine hconversed.tell hfits' fun r' hr' hok => ?_
    cases hr'
    cases hok

theorem Listening.hear {log : Option Log} (h : Listening script s)
    (hr : s.watcher.receiver = .listen) (ok : Scripted script s (.hear log)) :
    Listening script { s.attend around (.hear log) with watcher := s.watcher.onHeard log } := by
  obtain ⟨r, earlier, hrounds, hok, hgoing, hfits⟩ := (hr ▸ h.conversed).exists_stream
  have hconversed : Conversed script (r :: earlier) s.watcher.receiver := hrounds ▸ h.conversed
  have hyields : (script earlier.length).Yields r.heard log := by
    simpa only [Scripted, hrounds] using ok
  have hfits' := hfits.next hok hgoing hyields
  have hheard : heard (s.rounds.modifyHead (.next log)) =
      s.watcher.received.reverse ++ log.toList := by
    rw [hrounds, heard_next, ← hrounds, h.received]
  cases log with
  | some log =>
    constructor
    · show Conversed script (s.rounds.modifyHead _) (.sending log)
      rw [hrounds]
      exact hconversed.tell hfits' ⟨_, rfl, hok, hgoing⟩
    · show (log :: s.watcher.received).reverse = heard (s.rounds.modifyHead _)
      rw [hheard, List.reverse_cons]
      rfl
  | none =>
    constructor
    · show Conversed script (s.rounds.modifyHead _) (.waiting _)
      rw [hrounds]
      refine hconversed.tell hfits' fun r' hr' _ => ?_
      cases hr'
      rfl
    · show s.watcher.received.reverse = heard (s.rounds.modifyHead _)
      rw [hheard]
      exact (List.append_nil _).symm

theorem Listening.step (h : Listening script s) (ok : Scripted script s a)
    (step : act? around s a = some t) : Listening script t := by
  obtain ⟨w, hstep, rfl⟩ := act_cases step
  by_cases ha : a.Receives
  · cases a with
    | call =>
      obtain ⟨hr, -, rfl⟩ := call_cases hstep
      exact h.call hr
    | subscribed answer =>
      obtain ⟨hr, -, rfl⟩ := subscribed_cases hstep
      exact h.subscribed hr ok
    | hear log =>
      obtain ⟨hr, -, rfl⟩ := hear_cases hstep
      exact h.hear hr ok
    | enqueue =>
      obtain ⟨log, hr, -, rfl⟩ := enqueue_cases hstep
      exact h.move rfl rfl fun hlast => by rw [hr] at hlast; exact hlast
    | resubscribe =>
      obtain ⟨due, hr, -, -, rfl⟩ := resubscribe_cases hstep
      exact h.move rfl rfl fun hlast => by rw [hr] at hlast; exact hlast
    | notice =>
      obtain ⟨-, -, rfl⟩ := notice_cases hstep
      refine h.move rfl rfl fun hlast => ?_
      dsimp only
      split
      · trivial
      · exact at_wake hlast
    | _ => cases ha
  · obtain ⟨hreceiver, hreceived⟩ := Prod.mk.inj (receiveSide_of_not_receives ha hstep)
    exact h.move (rounds_attend around s ha) hreceived fun hlast => hreceiver ▸ hlast

end Keeping

section Working

/-- The results are those of the handled logs one after the other, whatever each came to. -/
def Worked (around : Handler.Surroundings (StateM σ)) (world : σ) (s : Attended σ) : Prop :=
  (s.watcher.handled.reverse.mapM (Handler.handle around)).run world =
    (s.results.reverse, s.world)

theorem worked_start (retry : RetrySchedule) (shutdown : Shutdown) (world : σ) :
    Worked around world (start retry shutdown world) := rfl

theorem Worked.handle {log : Log} (h : Worked around world s)
    (hc : s.watcher.consumer = .handling log) :
    Worked around world { s.work around with
      watcher := { s.watcher with consumer := .idle, handled := log :: s.watcher.handled } } := by
  unfold Worked at h ⊢
  simp only [work, hc, List.reverse_cons, List.mapM_append, List.mapM_cons, List.mapM_nil,
    StateT.run_bind, h]
  rfl

/-- Only the handling of a log changes the world. -/
theorem worked_of_not_handle (ha : a ≠ .handle) (step : act? around s a = some t) :
    (t.watcher.handled, t.results, t.world) = (s.watcher.handled, s.results, s.world) := by
  obtain ⟨w, hstep, rfl⟩ := act_cases step
  cases a with
  | call =>
    obtain ⟨-, -, rfl⟩ := call_cases hstep
    rfl
  | subscribed answer =>
    obtain ⟨-, -, rfl⟩ := subscribed_cases hstep
    cases answer with
    | ok _ => rfl
    | error _ => rfl
  | hear log =>
    obtain ⟨-, -, rfl⟩ := hear_cases hstep
    cases log with
    | some _ => rfl
    | none => rfl
  | enqueue =>
    obtain ⟨log, -, -, rfl⟩ := enqueue_cases hstep
    rfl
  | resubscribe =>
    obtain ⟨due, -, -, -, rfl⟩ := resubscribe_cases hstep
    rfl
  | notice =>
    obtain ⟨-, -, rfl⟩ := notice_cases hstep
    rfl
  | take =>
    obtain ⟨log, rest, -, -, rfl⟩ := take_cases hstep
    rfl
  | handle => exact absurd rfl ha
  | close =>
    obtain ⟨-, -, -, rfl⟩ := close_cases hstep
    rfl
  | elapse millis =>
    obtain ⟨-, rfl⟩ := elapse_cases hstep
    rfl
  | send value | dropSender =>
    cases hstep
    rfl

theorem Worked.move (h : Worked around world s)
    (same : (t.watcher.handled, t.results, t.world) = (s.watcher.handled, s.results, s.world)) :
    Worked around world t := by
  obtain ⟨hhandled, hrest⟩ := Prod.mk.inj same
  obtain ⟨hresults, hworld⟩ := Prod.mk.inj hrest
  unfold Worked
  rw [hhandled, hresults, hworld]
  exact h

theorem Worked.step (h : Worked around world s) (step : act? around s a = some t) :
    Worked around world t := by
  by_cases ha : a = .handle
  · subst ha
    obtain ⟨w, hstep, rfl⟩ := act_cases step
    obtain ⟨log, hc, rfl⟩ := handle_cases hstep
    exact h.handle hc
  · exact h.move (worked_of_not_handle ha step)

end Working

end Attended
end TokenWatch.Ethereum
