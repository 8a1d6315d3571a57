import Mathlib.Data.List.Nodup
import TokenWatch.Proofs.Hub.Numbering

/-!
Which answer an invocation gets: that of the first completion with its own id after it was written,
or the error that ended the connection before one came.
-/
namespace TokenWatch.Hub

namespace Note

/-- What a note answers to an invocation that was written under an id. -/
def reply? (id : String) (command : Command) : Note → Option Reply
  | completed key result failure =>
    if key = id then
      some (match failure with
        | some failure => .error (.invocation command.target failure)
        | none => .ok result)
    else none
  | lost e => some (.error (.closed (some e.message)))
  | _ => none

def answer? (id : String) (command : Command) (later : List Note) : Option Reply :=
  later.findSome? (reply? id command)

theorem answer?_append (id : String) (command : Command) (later ns : List Note) :
    answer? id command (later ++ ns) = (answer? id command later).or (answer? id command ns) :=
  List.findSome?_append

end Note

namespace Connection
open Note (answer? TakenAs)

variable {c v : Connection} {as : List Action} {h ns later : List Note} {messages : List Message}
  {frames : OpenFrame} {id : String} {command : Command} {k : Nat}

section Waiting

variable {waiting others : List (String × Command)}

theorem takeWaiting_some (h : takeWaiting id waiting = some (command, others)) :
    ∃ before after, waiting = before ++ (id, command) :: after ∧ others = before ++ after := by
  induction waiting generalizing others with
  | nil => cases h
  | cons p rest ih =>
    obtain ⟨key, other⟩ := p
    simp only [takeWaiting] at h
    split at h
    · rename_i hkey
      cases h
      exact ⟨[], rest, by rw [hkey]; rfl, rfl⟩
    · obtain ⟨⟨found, remaining⟩, hfound, heq⟩ := Option.map_eq_some_iff.mp h
      cases heq
      obtain ⟨before, after, hrest, hremaining⟩ := ih hfound
      exact ⟨(key, other) :: before, after, by rw [hrest]; rfl, by rw [hremaining]; rfl⟩

theorem takeWaiting_none (h : takeWaiting id waiting = none) :
    ∀ p ∈ waiting, p.1 ≠ id := by
  induction waiting with
  | nil => exact List.forall_mem_nil _
  | cons p rest ih =>
    obtain ⟨key, other⟩ := p
    simp only [takeWaiting] at h
    split at h
    · cases h
    · rename_i hkey
      exact List.forall_mem_cons.mpr ⟨hkey, ih (Option.map_eq_none_iff.mp h)⟩

end Waiting

section Tickets

/-- The invocations that are queued, on the wire or answered. -/
def tickets (c : Connection) : List Nat :=
  c.commands.map (·.ticket) ++ c.waiting.map (·.2.ticket) ++ c.replies.map (·.1)

def Ticketed (h : List Note) (c : Connection) : Prop :=
  ∀ t, c.tickets.count t ≤ (Note.tickets h).count t

theorem tickets_lose (c : Connection) (e : Error) : (c.lose e).tickets = c.tickets := by
  simp only [tickets, lose, List.map_append, List.map_map, List.map_nil, List.append_nil,
    List.append_assoc]
  rfl

theorem tickets_finish (c : Connection) (t : Nat) :
    c.finish.tickets.count t = c.tickets.count t := by
  simp only [tickets, finish, List.map_append, List.map_map, List.map_nil, List.nil_append,
    List.count_append, Function.comp_def]
  omega

/-- No change puts an invocation into a second place. -/
theorem Change.tickets_le (change : Change c ns v) (t : Nat) :
    v.tickets.count t ≤ c.tickets.count t + (Note.tickets ns).count t := by
  cases change with
  | @answered id command others result failure running found =>
    obtain ⟨before, after, hwaiting, rfl⟩ := takeWaiting_some found
    simp [tickets, hwaiting, List.count_cons]
    omega
  | lost e running => exact tickets_lose c e ▸ Nat.le_add_right _ _
  | sent running first =>
    simp [tickets, first, send, List.count_cons]
    omega
  | unsent running first =>
    simp [tickets, first, List.count_cons]
    omega
  | finished ending held empty => exact Nat.le_add_right_of_le (Nat.le_of_eq (tickets_finish _ t))
  | deserted ending gone => exact Nat.le_add_right_of_le (Nat.le_of_eq (tickets_finish c t))
  | closed running gone =>
    simp only [tickets, List.map_nil, List.nil_append, List.count_append]
    omega
  | queued command going =>
    simp [tickets, Note.tickets, Note.ticket?, List.count_cons]
    omega
  | refused command ended =>
    simp [tickets, Note.tickets, Note.ticket?, List.count_cons]
    omega
  | _ => exact Nat.le_add_right _ _

theorem Change.ticketed (hc : Ticketed h c) (change : Change c ns v) : Ticketed (h ++ ns) v := by
  intro t
  rw [Note.tickets, List.filterMap_append, List.count_append]
  exact Nat.le_trans (change.tickets_le t) (Nat.add_le_add_right (hc t) _)

end Tickets

section Answers

def Settled (id : String) (command : Command) (later : List Note) (c : Connection) : Prop :=
  match answer? id command later with
  | some r => (command.ticket, r) ∈ c.replies
  | none => (id, command) ∈ c.waiting

theorem Settled.append (settled : Settled id command later c)
    (kept : ∀ p ∈ c.replies, p ∈ v.replies)
    (next : (id, command) ∈ c.waiting → Settled id command ns v) :
    Settled id command (later ++ ns) v := by
  unfold Settled at settled
  unfold Settled
  rw [Note.answer?_append]
  split at settled
  · rename_i r hr
    rw [hr]
    exact kept _ settled
  · rename_i hnone
    rw [hnone, Option.none_or]
    exact next settled

/-- The invocations on the wire and the answers that were given are those of invocations that the
task took. -/
structure Answering (h : List Note) (c : Connection) : Prop where
  waiting : ∀ id command, (id, command) ∈ c.waiting →
    ∃ k later, TakenAs h k command true later ∧ id = numberText k ∧ answer? id command later = none
  distinct : (c.waiting.map (·.1)).Nodup
  settled : ∀ k command later, TakenAs h k command true later →
    Settled (numberText k) command later c
  replies : ∀ t r, (t, r) ∈ c.replies → r = .error (.closed none) ∨
    ∃ k command later, TakenAs h k command true later ∧ command.ticket = t ∧
      answer? (numberText k) command later = some r

/-- A change that takes no invocation answers some of those on the wire. -/
theorem Answering.answer (hc : Answering h c) (quiet : Note.takings ns = [])
    (fewer : v.waiting.Sublist c.waiting) (kept : ∀ p ∈ c.replies, p ∈ v.replies)
    (going : ∀ id command, (id, command) ∈ v.waiting → answer? id command ns = none)
    (settled : ∀ id command, (id, command) ∈ c.waiting → Settled id command ns v)
    (given : ∀ t r, (t, r) ∈ v.replies → (t, r) ∈ c.replies ∨ r = .error (.closed none) ∨
      ∃ id command, (id, command) ∈ c.waiting ∧ command.ticket = t ∧
        answer? id command ns = some r) :
    Answering (h ++ ns) v where
  waiting id command hv := by
    obtain ⟨k, later, htaken, hid, hnone⟩ := hc.waiting id command (fewer.subset hv)
    refine ⟨k, later ++ ns, htaken.append ns, hid, ?_⟩
    rw [Note.answer?_append, hnone, going id command hv]
    rfl
  distinct := (fewer.map _).nodup hc.distinct
  settled k command later htaken := by
    obtain ⟨before, rfl, hbefore⟩ := htaken.of_append quiet
    exact (hc.settled k command before hbefore).append kept (settled _ _)
  replies t r hv := by
    rcases given t r hv with hold | hclosed | ⟨id, command, hwaiting, ht, hr⟩
    · rcases hc.replies t r hold with hclosed | ⟨k, command, later, htaken, ht, hr⟩
      · exact .inl hclosed
      · refine .inr ⟨k, command, later ++ ns, htaken.append ns, ht, ?_⟩
        rw [Note.answer?_append, hr]
        rfl
    · exact .inl hclosed
    · obtain ⟨k, later, htaken, rfl, hnone⟩ := hc.waiting id command hwaiting
      refine .inr ⟨k, command, later ++ ns, htaken.append ns, ht, ?_⟩
      rw [Note.answer?_append, hnone, hr]
      rfl

theorem mem_refused {refused : List Nat} {replies : List (Nat × Reply)} {t : Nat} {r : Reply}
    (h : (t, r) ∈ refused.map (·, .error (.closed none)) ++ replies) :
    r = .error (.closed none) ∨ (t, r) ∈ replies := by
  rcases List.mem_append.mp h with hrefused | hold
  · obtain ⟨ticket, -, heq⟩ := List.mem_map.mp hrefused
    cases heq
    exact .inl rfl
  · exact .inr hold

/-- A change that answers nothing but that the connection is closed, to invocations that are not on
the wire. -/
theorem Answering.refuse (hc : Answering h c) (quiet : Note.takings ns = [])
    (same : v.waiting = c.waiting)
    (closed : ∃ refused : List Nat,
      v.replies = refused.map (·, .error (.closed none)) ++ c.replies)
    (unanswered : ∀ id command, (id, command) ∈ c.waiting → answer? id command ns = none) :
    Answering (h ++ ns) v := by
  obtain ⟨refused, hreplies⟩ := closed
  refine hc.answer quiet (same ▸ List.Sublist.refl _) ?_ ?_ ?_ ?_
  · intro p hp
    rw [hreplies]
    exact List.mem_append_right _ hp
  · rw [same]
    exact unanswered
  · intro id command hwaiting
    unfold Settled
    rw [unanswered id command hwaiting, same]
    exact hwaiting
  · intro t r hv
    rw [hreplies] at hv
    rcases mem_refused hv with hclosed | hold
    · exact .inr (.inl hclosed)
    · exact .inl hold

/-- No invocation on the wire has the next number. -/
theorem Answering.fresh (hc : Answering h c) :
    numberText ((Note.takings h).length + 1) ∉ c.waiting.map (·.1) := by
  intro hmem
  obtain ⟨⟨key, command⟩, hwaiting, hkey⟩ := List.mem_map.mp hmem
  obtain ⟨k, later, htaken, rfl, -⟩ := hc.waiting key command hwaiting
  have hk := htaken.le
  have hsame : k = (Note.takings h).length + 1 := numberText_injective hkey
  omega

/-- The task takes an invocation, and puts it on the wire or answers that the connection is
closed. -/
theorem Answering.take (hc : Answering h c) {written : Bool}
    (waits : v.waiting =
      c.waiting ++
        if written then [(numberText ((Note.takings h).length + 1), command)] else [])
    (closed : ∃ refused : List Nat,
      v.replies = refused.map (·, .error (.closed none)) ++ c.replies) :
    Answering (h ++ [.taken command written]) v := by
  obtain ⟨refused, hreplies⟩ := closed
  have old (id : String) (other : Command) (later : List Note) :
      answer? id other (later ++ [.taken command written]) = answer? id other later := by
    rw [Note.answer?_append]
    exact Option.or_none
  have new : TakenAs (h ++ [.taken command written]) ((Note.takings h).length + 1) command
      written [] :=
    ⟨h, rfl, rfl⟩
  constructor
  · intro id other hv
    rw [waits] at hv
    rcases List.mem_append.mp hv with hwaiting | hnew
    · obtain ⟨k, later, htaken, hid, hnone⟩ := hc.waiting id other hwaiting
      exact ⟨k, _, htaken.append _, hid, (old id other later).trans hnone⟩
    · cases written with
      | true =>
        cases List.mem_singleton.mp hnew
        exact ⟨_, [], new, rfl, rfl⟩
      | false => cases hnew
  · rw [waits, List.map_append]
    cases written with
    | true =>
      rw [List.nodup_append_comm]
      exact List.nodup_cons.mpr ⟨hc.fresh, hc.distinct⟩
    | false => exact (List.append_nil _).symm ▸ hc.distinct
  · intro k other later htaken
    rcases htaken.of_concat with ⟨hk, rfl, rfl, rfl⟩ | ⟨before, rfl, hbefore⟩
    · subst hk
      show (numberText ((Note.takings h).length + 1), other) ∈ v.waiting
      rw [waits]
      exact List.mem_append_right _ (List.mem_singleton_self _)
    · refine (hc.settled k other before hbefore).append ?_ ?_
      · intro p hp
        rw [hreplies]
        exact List.mem_append_right _ hp
      · intro hwaiting
        show (numberText k, other) ∈ v.waiting
        rw [waits]
        exact List.mem_append_left _ hwaiting
  · intro t r hv
    rw [hreplies] at hv
    rcases mem_refused hv with hclosed | hold
    · exact .inl hclosed
    · rcases hc.replies t r hold with hclosed | ⟨k, other, later, htaken, ht, hr⟩
      · exact .inl hclosed
      · exact .inr ⟨k, other, _, htaken.append _, ht, (old _ other later).trans hr⟩

theorem answer?_completed (id key : String) (command : Command) (result : Option Json.Value)
    (failure : Option String) :
    answer? id command [.completed key result failure] =
      if key = id then some (outcome command result failure) else none := by
  rw [answer?, List.findSome?_singleton]
  rfl

/-- A completion answers the invocation that waits under its id, and no other. -/
theorem Answering.complete (hc : Answering h c) {others : List (String × Command)}
    (result : Option Json.Value) (failure : Option String)
    (found : takeWaiting id c.waiting = some (command, others)) :
    Answering (h ++ [.completed id result failure])
      { c with
        waiting := others
        replies := (command.ticket, outcome command result failure) :: c.replies } := by
  obtain ⟨before, after, hwaiting, rfl⟩ := takeWaiting_some found
  have other : ∀ key asked, (key, asked) ∈ before ++ after →
      answer? key asked [.completed id result failure] = none := by
    intro key asked hmem
    have hdistinct := hc.distinct
    rw [hwaiting, List.map_append, List.map_cons, List.nodup_middle, ← List.map_append] at hdistinct
    have hkey : key ∈ (before ++ after).map (·.1) := List.mem_map_of_mem (f := (·.1)) hmem
    have hne : id ≠ key := fun heq => (List.nodup_cons.mp hdistinct).1 (heq ▸ hkey)
    rw [answer?_completed, if_neg hne]
  have own : answer? id command [.completed id result failure] =
      some (outcome command result failure) := by
    rw [answer?_completed, if_pos rfl]
  refine hc.answer rfl ?_ ?_ other ?_ ?_
  · rw [hwaiting]
    exact (List.Sublist.refl before).append (List.sublist_cons_self _ _)
  · exact fun p hp => List.mem_cons_of_mem _ hp
  · intro key asked hmem
    rw [hwaiting, List.mem_append, List.mem_cons] at hmem
    unfold Settled
    rcases hmem with hmem | heq | hmem
    · rw [other key asked (List.mem_append_left _ hmem)]
      exact List.mem_append_left _ hmem
    · cases heq
      rw [own]
      exact List.mem_cons_self
    · rw [other key asked (List.mem_append_right _ hmem)]
      exact List.mem_append_right _ hmem
  · intro t r hv
    rcases List.mem_cons.mp hv with heq | hold
    · cases heq
      have hmem : (id, command) ∈ c.waiting := by simp [hwaiting]
      exact .inr (.inr ⟨id, command, hmem, rfl, own⟩)
    · exact .inl hold

/-- The loss of a connection answers every invocation on the wire. -/
theorem Answering.lose (hc : Answering h c) (e : Error) :
    Answering (h ++ [.lost e]) (c.lose e) := by
  have own (id : String) (command : Command) :
      answer? id command [.lost e] = some (.error (.closed (some e.message))) := rfl
  refine hc.answer rfl (List.nil_sublist _) ?_ ?_ ?_ ?_
  · exact fun p hp => List.mem_append_right _ hp
  · exact fun id command hv => absurd hv List.not_mem_nil
  · intro id command hwaiting
    have hreply := List.mem_map_of_mem
      (f := fun p => (p.2.ticket, (.error (.closed (some e.message)) : Reply))) hwaiting
    exact List.mem_append_left _ hreply
  · intro t r hv
    rcases List.mem_append.mp hv with hnew | hold
    · obtain ⟨⟨id, command⟩, hwaiting, heq⟩ := List.mem_map.mp hnew
      cases heq
      exact .inr (.inr ⟨id, command, hwaiting, rfl, own id command⟩)
    · exact .inl hold

theorem finish_replies (c : Connection) :
    c.finish.replies =
      (c.commands.map (·.ticket)).map (·, .error (.closed none)) ++ c.replies := by
  rw [List.map_map]
  rfl

theorem Change.answering (hn : Numbered h c) (few : Few (h ++ ns)) (hc : Answering h c)
    (change : Change c ns v) : Answering (h ++ ns) v := by
  cases change with
  | answered result failure running found => exact hc.complete result failure found
  | @passedOver id result failure running missing =>
    refine hc.refuse rfl rfl ⟨[], rfl⟩ fun key command hwaiting => ?_
    have hne : id ≠ key := fun heq => takeWaiting_none missing (key, command) hwaiting heq.symm
    rw [answer?_completed, if_neg hne]
  | lost e running => exact hc.lose e
  | @sent command rest running first =>
    refine hc.take ?_ ⟨[], rfl⟩
    rw [← hn.next few]
    rfl
  | @unsent command rest running first =>
    exact hc.take (List.append_nil _).symm ⟨[command.ticket], rfl⟩
  | finished ending held empty =>
    exact hc.refuse rfl rfl ⟨_, finish_replies _⟩ fun _ _ _ => rfl
  | deserted ending gone =>
    exact hc.refuse rfl rfl ⟨_, finish_replies _⟩ fun _ _ _ => rfl
  | refused command ended =>
    exact hc.refuse rfl rfl ⟨[command.ticket], rfl⟩ fun _ _ _ => rfl
  | _ => exact hc.refuse rfl rfl ⟨[], rfl⟩ fun _ _ _ => rfl

theorem answering_of_run {allowed : Connection → Action → Prop}
    (run : Run step? allowed (ofHandshake frames messages) as v)
    (few : Few (historyOf frames messages as)) : Answering (historyOf frames messages as) v := by
  have start (frames : OpenFrame) : Few [] → Numbered [] (blank frames) ∧
      Answering [] (blank frames) := by
    refine fun _ => ⟨⟨rfl, rfl⟩, ?_, List.nodup_nil, ?_, ?_⟩
    · exact fun id command hmem => absurd hmem List.not_mem_nil
    · rintro k command later ⟨past, hsplit, -⟩
      simp at hsplit
    · exact fun t r hmem => absurd hmem List.not_mem_nil
  have each (h : List Note) (c : Connection) (ns : List Note) (v : Connection)
      (hc : Few h → Numbered h c ∧ Answering h c) (change : Change c ns v)
      (few : Few (h ++ ns)) : Numbered (h ++ ns) v ∧ Answering (h ++ ns) v := by
    obtain ⟨hnumbered, hanswering⟩ := hc few.of_append
    exact ⟨change.numbered hnumbered few, change.answering hnumbered few hanswering⟩
  exact (of_run start each run few).2

end Answers

theorem nodup_tickets {allowed : Connection → Action → Prop}
    (run : Run step? allowed (ofHandshake frames messages) as v)
    (distinct : (Note.tickets (historyOf frames messages as)).Nodup) : v.tickets.Nodup := by
  have hticketed : Ticketed (historyOf frames messages as) v :=
    of_run (fun _ t => Nat.le_refl _) (fun _ _ _ _ hc change => change.ticketed hc) run
  rw [List.nodup_iff_count_le_one] at distinct ⊢
  exact fun t => Nat.le_trans (hticketed t) (distinct t)

/-- As long as there are numbers, each invocation is written under its own among those that the
task took, and no other one under that number. It is answered once at most. One that was written
gets the answer of the first completion with its own number that comes later, or the error with
which the connection is lost before that, whatever else completes, and whether or not its caller
still waits for it. All other answers are that the connection is closed. -/
theorem completions_reach_their_invocation
    (run : Run step? Anything (ofHandshake frames messages) as v)
    (distinct : (Note.tickets (historyOf frames messages as)).Nodup)
    (few : (Note.takings (historyOf frames messages as)).length < UInt64.size) :
    let h := historyOf frames messages as
    v.sent.reverse.filter Written.isCall = (Note.written h).map frameOf ∧
    ((Note.written h).map fun p => numberText p.1).Nodup ∧
    (v.replies.map (·.1)).Nodup ∧
    (∀ k command later, TakenAs h k command true later → ∀ r,
      (command.ticket, r) ∈ v.replies ↔ answer? (numberText k) command later = some r) ∧
    ∀ t r, (t, r) ∈ v.replies → r = .error (.closed none) ∨
      ∃ k command later, TakenAs h k command true later ∧ command.ticket = t ∧
        answer? (numberText k) command later = some r := by
  intro h
  have hnumbered : Numbered h v := numbered_of_run run few
  have hanswering : Answering h v := answering_of_run run few
  have htickets := nodup_tickets run distinct
  obtain ⟨hplaces, honce, hapart⟩ := List.nodup_append.mp htickets
  refine ⟨hnumbered.frames, ?_, honce, ?_, hanswering.replies⟩
  · have hids := (Note.nodup_written h).map fun _ _ => numberText_injective
    rw [List.map_map] at hids
    exact hids
  · intro k command later htaken r
    have hsettled := hanswering.settled k command later htaken
    unfold Settled at hsettled
    constructor
    · intro hreply
      split at hsettled
      · rename_i r' hr
        have hsame := List.inj_on_of_nodup_map honce hreply hsettled rfl
        cases hsame
        exact hr
      · -- It would be on the wire and answered.
        have hwaits : command.ticket ∈ v.commands.map (·.ticket) ++ v.waiting.map (·.2.ticket) :=
          List.mem_append_right _ (List.mem_map_of_mem (f := (·.2.ticket)) hsettled)
        have hanswered : command.ticket ∈ v.replies.map (·.1) :=
          List.mem_map_of_mem (f := (·.1)) hreply
        exact absurd rfl (hapart _ hwaits _ hanswered)
    · intro hr
      rw [hr] at hsettled
      exact hsettled

/-- The hub answers the second of two invocations, and then closes the connection. -/
theorem completions_reach_their_invocation_second :
    let failed : List Char :=
      "\x7b\"type\":3,\"invocationId\":\"2\",\"error\":\"no\"\x7d\x1e".toList
    let as : List Action :=
      [.invoke ⟨0, "transfers", []⟩, .invoke ⟨1, "updates", []⟩, .takeCommand true,
        .takeCommand true, .receive (.text failed), .receive (.close (some "bye"))]
    ∃ v, Run step? Anything (ofHandshake .empty []) as v ∧
      (Note.tickets (historyOf .empty [] as)).Nodup ∧
      (Note.takings (historyOf .empty [] as)).length < UInt64.size ∧
      (1, .error (.invocation "updates" "no")) ∈ v.replies ∧
      (0, .error (.closed (some "hub connection closed: bye"))) ∈ v.replies := by
  intro failed as
  obtain ⟨v, hv⟩ : ∃ v, as.foldlM step? (ofHandshake .empty []) = some v := ⟨_, rfl⟩
  have run : Run step? Anything (ofHandshake .empty []) as v := .of_foldlM hv
  let transfers : Command := ⟨0, "transfers", []⟩
  let updates : Command := ⟨1, "updates", []⟩
  let closing : List Note :=
    [.completed "2" none (some "no"), .lost (.closed (some "bye"))]
  have hhistory : historyOf .empty [] as =
      [.invoked transfers, .invoked updates] ++
        .taken transfers true :: .taken updates true :: closing := rfl
  have distinct : (Note.tickets (historyOf .empty [] as)).Nodup := by
    rw [hhistory]
    decide
  have few : (Note.takings (historyOf .empty [] as)).length < UInt64.size := by
    rw [hhistory]
    decide
  obtain ⟨-, -, -, hanswers, -⟩ := completions_reach_their_invocation run distinct few
  have first : TakenAs (historyOf .empty [] as) 1 transfers true (.taken updates true :: closing) :=
    ⟨_, hhistory, rfl⟩
  have second : TakenAs (historyOf .empty [] as) 2 updates true closing :=
    ⟨[.invoked transfers, .invoked updates, .taken transfers true], hhistory, rfl⟩
  refine ⟨v, run, distinct, few, ?_, ?_⟩
  · exact (hanswers 2 updates _ second _).mpr rfl
  · exact (hanswers 1 transfers _ first _).mpr rfl

end Connection
end TokenWatch.Hub
