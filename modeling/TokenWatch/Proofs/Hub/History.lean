import TokenWatch.Proofs.Hub.Step
import TokenWatch.Proofs.Run

/-!
The history of a hub connection. A step may act on many messages; it is a chain of single changes,
each of which notes at most one thing. What every change preserves, every run preserves.
-/
namespace TokenWatch.Hub

/-- What is noted of a connection. -/
inductive Note where
  /-- A server invocation was put into the outbox. -/
  | dispatched (call : Call)
  /-- A completion was acted on. -/
  | completed (id : String) (result : Option Json.Value) (failure : Option String)
  /-- The caller asked for an invocation. -/
  | invoked (command : Command)
  /-- The task took an invocation and wrote its frame, or failed to. -/
  | taken (command : Command) (written : Bool)
  | lost (e : Error)

namespace Note

def call? : Note → Option Call
  | dispatched call => some call
  | _ => none

def ticket? : Note → Option Nat
  | invoked command => some command.ticket
  | _ => none

def taking? : Note → Option (Command × Bool)
  | taken command written => some (command, written)
  | _ => none

def error? : Note → Option Error
  | lost e => some e
  | _ => none

def calls (h : List Note) : List Call := h.filterMap call?

def tickets (h : List Note) : List Nat := h.filterMap ticket?

/-- The invocations that the task took, in order, and whether it wrote them. -/
def takings (h : List Note) : List (Command × Bool) := h.filterMap taking?

def loss? (h : List Note) : Option Error := h.findSome? error?

/-- What messages lead to in order, with room for some more invocations. A close message, and an
invocation that finds no room, are the last to be acted on. -/
def ofMessages (room : Nat) : List Message → List Note
  | [] => []
  | .invocation _ target arguments :: rest =>
    if room = 0 then [.lost .backlog]
    else .dispatched ⟨target, arguments⟩ :: ofMessages (room - 1) rest
  | .completion id result failure :: rest => .completed id result failure :: ofMessages room rest
  | .close failure :: _ => [.lost (.closed failure)]
  | .ping :: rest | .other _ :: rest => ofMessages room rest

end Note

namespace Connection

variable {c u v : Connection} {a : Action} {as : List Action} {i : Incoming} {h ns ms : List Note}
  {messages : List Message} {frames : OpenFrame}

def notesOfIncoming (c : Connection) : Incoming → List Note
  | .text cs =>
    match c.frames.push cs with
    | (_, .error e) => [.lost e]
    | (_, .ok pieces) =>
      match pieces.mapM Message.parse with
      | .error e => [.lost e]
      | .ok messages => Note.ofMessages (maxWaiting - c.outbox.length) messages
  | .close reason => [.lost (.closed reason)]
  | .other => []
  | .failed cause => [.lost (.webSocket cause)]
  | .ended => [.lost (.closed none)]

def notes (c : Connection) : Action → List Note
  | .ping written => if written then [] else [.lost writeFailure]
  | .takeCommand written =>
    match c.commands with
    | command :: _ => .taken command written :: if written then [] else [.lost writeFailure]
    | [] => []
  | .receive i => c.notesOfIncoming i
  | .invoke command => [.invoked command]
  | _ => []

/-- What a run leads to. -/
def history (c : Connection) : List Action → List Note
  | [] => []
  | a :: as =>
    c.notes a ++
      match c.step? a with
      | some v => history v as
      | none => []

/-- All that is noted from the handshake on, with the messages that came in one text with its
answer. -/
def historyOf (frames : OpenFrame) (messages : List Message) (as : List Action) : List Note :=
  Note.ofMessages maxWaiting messages ++ (ofHandshake frames messages).history as

theorem history_cons (step : c.step? a = some v) (as : List Action) :
    c.history (a :: as) = c.notes a ++ v.history as := by
  simp only [history, step]

inductive Change (c : Connection) : List Note → Connection → Prop where
  | framed (frames : OpenFrame) : Change c [] { c with frames }
  | pinged (running : c.phase = .running) :
      Change c [] { c with sent := .frame Message.encodedPing :: c.sent }
  | dispatched (call : Call) (running : c.phase = .running) (room : c.outbox.length < maxWaiting) :
      Change c [.dispatched call] { c with outbox := c.outbox ++ [call] }
  | answered {id : String} {command : Command} {others : List (String × Command)}
      (result : Option Json.Value) (failure : Option String) (running : c.phase = .running)
      (found : takeWaiting id c.waiting = some (command, others)) :
      Change c [.completed id result failure]
        { c with
          waiting := others
          replies := (command.ticket, outcome command result failure) :: c.replies }
  | passedOver {id : String} (result : Option Json.Value) (failure : Option String)
      (running : c.phase = .running) (missing : takeWaiting id c.waiting = none) :
      Change c [.completed id result failure] c
  | lost (e : Error) (running : c.phase = .running) : Change c [.lost e] (c.lose e)
  | sent {command : Command} {rest : List Command} (running : c.phase = .running)
      (first : c.commands = command :: rest) :
      Change c [.taken command true] ({ c with commands := rest }.send command true)
  | unsent {command : Command} {rest : List Command} (running : c.phase = .running)
      (first : c.commands = command :: rest) :
      Change c [.taken command false]
        { c with
          commands := rest
          lastId := c.lastId + 1
          replies := (command.ticket, .error (.closed none)) :: c.replies }
  | passedOn {call : Call} {later : List Call} (going : c.phase ≠ .ended) (held : c.held = true)
      (first : c.outbox = call :: later) (free : c.channel.length < channelSlots) :
      Change c [] { c with outbox := later, channel := c.channel ++ [.ok call] }
  | finished {e : Error} (ending : c.phase = .ending e) (held : c.held = true)
      (empty : c.outbox = []) :
      Change c [] { c with channel := c.channel ++ [Except.error e] }.finish
  | deserted {e : Error} (ending : c.phase = .ending e) (gone : c.held = false) :
      Change c [] c.finish
  | closed (running : c.phase = .running) (gone : c.held = false) :
      Change c [] { c with phase := .ended, commands := [], sent := .closed :: c.sent }
  | queued (command : Command) (going : c.phase ≠ .ended) :
      Change c [.invoked command] { c with commands := c.commands ++ [command] }
  | refused (command : Command) (ended : c.phase = .ended) :
      Change c [.invoked command]
        { c with replies := (command.ticket, .error (.closed none)) :: c.replies }
  | got {d : Delivery} {later : List Delivery} (held : c.held = true)
      (first : c.channel = d :: later) :
      Change c [] { c with channel := later, delivered := d :: c.delivered }
  | gotNothing (held : c.held = true) (empty : c.channel = []) (ended : c.phase = .ended) :
      Change c [] { c with delivered := .error (.closed none) :: c.delivered }
  | dropped (held : c.held = true) : Change c [] { c with held := false }

inductive Changes : Connection → List Note → Connection → Prop where
  | nil (c : Connection) : Changes c [] c
  | cons {c u v : Connection} {ns ms : List Note} (first : Change c ns u) (rest : Changes u ms v) :
      Changes c (ns ++ ms) v

theorem Changes.single (change : Change c ns v) : Changes c ns v := by
  simpa using Changes.cons change (.nil v)

theorem Changes.append (h : Changes c ns u) (h' : Changes u ms v) : Changes c (ns ++ ms) v := by
  induction h with
  | nil => exact h'
  | cons first _ ih =>
    rw [List.append_assoc]
    exact .cons first (ih h')

/-- What every change preserves, together with what it notes, a chain of changes preserves. -/
theorem Changes.preserves {P : List Note → Connection → Prop}
    (each : ∀ h c ns v, P h c → Change c ns v → P (h ++ ns) v) (changes : Changes c ns v)
    (start : P h c) : P (h ++ ns) v := by
  induction changes generalizing h with
  | nil => rwa [List.append_nil]
  | cons first _ ih =>
    rw [← List.append_assoc]
    exact ih (each _ _ _ _ start first)

section Steps

theorem dispatch_changes (messages : List Message) (hrun : c.phase = .running) :
    Changes c (Note.ofMessages (maxWaiting - c.outbox.length) messages) (c.dispatch messages) := by
  induction messages generalizing c with
  | nil => exact .nil c
  | cons m ms ih =>
    cases m with
    | invocation id target arguments =>
      by_cases hfull : maxWaiting ≤ c.outbox.length
      · have hroom : maxWaiting - c.outbox.length = 0 := by omega
        simp only [dispatch, if_pos hfull, Note.ofMessages, if_pos hroom]
        exact .single (.lost .backlog hrun)
      · have hroom : maxWaiting - c.outbox.length ≠ 0 := by omega
        simp only [dispatch, if_neg hfull, Note.ofMessages, if_neg hroom]
        have hrest := @ih { c with outbox := c.outbox ++ [⟨target, arguments⟩] } hrun
        rw [List.length_append, List.length_singleton, ← Nat.sub_sub] at hrest
        exact .cons (.dispatched ⟨target, arguments⟩ hrun (by omega)) hrest
    | completion id result failure =>
      simp only [dispatch, Note.ofMessages]
      split
      · rename_i hmissing
        exact .cons (.passedOver result failure hrun hmissing) (ih hrun)
      · rename_i command others hfound
        exact .cons (.answered result failure hrun hfound) (ih hrun)
    | close failure => exact .single (.lost (.closed failure) hrun)
    | ping => exact ih hrun
    | other kind => exact ih hrun

theorem receive_changes (i : Incoming) (hrun : c.phase = .running) :
    Changes c (c.notesOfIncoming i) (c.receive i) := by
  cases i with
  | text cs =>
    rcases hpush : c.frames.push cs with ⟨frames, error | pieces⟩
    · simp only [notesOfIncoming, receive, hpush]
      exact .cons (.framed frames) (.single (.lost error hrun))
    · rcases hparse : pieces.mapM Message.parse with error | messages
      · simp only [notesOfIncoming, receive, hpush, hparse]
        exact .cons (.framed frames) (.single (.lost error hrun))
      · simp only [notesOfIncoming, receive, hpush, hparse]
        exact .cons (.framed frames) (dispatch_changes messages hrun)
  | close reason => exact .single (.lost (.closed reason) hrun)
  | other => exact .nil c
  | failed cause => exact .single (.lost (.webSocket cause) hrun)
  | ended => exact .single (.lost (.closed none) hrun)

/-- A step is a chain of changes. -/
theorem step_changes (h : c.step? a = some v) : Changes c (c.notes a) v := by
  cases a with
  | ping written =>
    obtain ⟨hrun, rfl⟩ := ping_cases h
    cases written with
    | true => exact .single (.pinged hrun)
    | false => exact .single (.lost writeFailure hrun)
  | takeCommand written =>
    obtain ⟨command, rest, hrun, hcommands, rfl⟩ := takeCommand_cases h
    simp only [notes, hcommands]
    cases written with
    | true => exact .single (.sent hrun hcommands)
    | false => exact .cons (.unsent hrun hcommands) (.single (.lost writeFailure hrun))
  | forward =>
    obtain ⟨call, later, hrun, houtbox, hheld, hfree, rfl⟩ := forward_cases h
    exact .single (.passedOn (by simp [hrun]) hheld houtbox hfree)
  | receive i =>
    obtain ⟨hrun, rfl⟩ := receive_cases h
    exact receive_changes i hrun
  | close =>
    obtain ⟨hrun, hgone, rfl⟩ := close_cases h
    exact .single (.closed hrun hgone)
  | handOver =>
    obtain ⟨e, hending, ⟨hgone, rfl⟩ | ⟨hheld, hfree, ⟨call, later, houtbox, rfl⟩ |
      ⟨houtbox, rfl⟩⟩⟩ := handOver_cases h
    · exact .single (.deserted hending hgone)
    · exact .single (.passedOn (by simp [hending]) hheld houtbox hfree)
    · exact .single (.finished hending hheld houtbox)
  | invoke command =>
    obtain ⟨-, ⟨hended, rfl⟩ | ⟨hgoing, -, rfl⟩⟩ := invoke_cases h
    · exact .single (.refused command hended)
    · exact .single (.queued command hgoing)
  | next =>
    obtain ⟨hheld, ⟨d, later, hchannel, rfl⟩ | ⟨hchannel, hended, rfl⟩⟩ := next_cases h
    · exact .single (.got hheld hchannel)
    · exact .single (.gotNothing hheld hchannel hended)
  | drop =>
    obtain ⟨hheld, rfl⟩ := drop_cases h
    exact .single (.dropped hheld)

theorem run_changes {allowed : Connection → Action → Prop} (run : Run step? allowed c as v) :
    Changes c (c.history as) v := by
  induction run with
  | nil c => exact .nil c
  | cons _ step _ ih =>
    rw [history_cons step]
    exact (step_changes step).append ih

def blank (frames : OpenFrame) : Connection :=
  { frames, outbox := [], waiting := [], lastId := 0, commands := [], channel := [],
    phase := .running, held := true, sent := [], replies := [], delivered := [] }

theorem opening_changes (frames : OpenFrame) (messages : List Message) :
    Changes (blank frames) (Note.ofMessages maxWaiting messages) (ofHandshake frames messages) :=
  dispatch_changes messages rfl

/-- What holds of a connection without a history, and is preserved by every change, holds after
every run. -/
theorem of_run {allowed : Connection → Action → Prop} {P : List Note → Connection → Prop}
    (start : ∀ frames, P [] (blank frames))
    (each : ∀ h c ns v, P h c → Change c ns v → P (h ++ ns) v)
    (run : Run step? allowed (ofHandshake frames messages) as v) :
    P (historyOf frames messages as) v := by
  have hall : Changes (blank frames) (historyOf frames messages as) v :=
    (opening_changes frames messages).append (run_changes run)
  exact hall.preserves (h := []) each (start frames)

end Steps

end Connection
end TokenWatch.Hub
