import TokenWatch.Proofs.Hub.History

/-!
A hub connection on a virtual clock. What arrives on the socket and what the caller invokes come at
fixed moments, whereas the caller reads when it likes. Nothing that the task does takes time, and no
time passes while there is something for it to do.
-/
namespace TokenWatch.Hub

/-- What happens around a connection, apart from the caller's reading. -/
structure Script where
  /-- What arrives on the socket, each with its moment. -/
  arrivals : List (Nat × Incoming)
  invokes : List (Nat × Command)
  /-- Whether a write succeeds, by its moment and by what was written before. -/
  writable : Nat → List Written → Bool
  arrivals_sorted : arrivals.Pairwise fun x y => x.1 ≤ y.1
  invokes_sorted : invokes.Pairwise fun x y => x.1 ≤ y.1
  tickets_nodup : (invokes.map (·.2.ticket)).Nodup

/-- What the task turns to at a moment that its caller's reading should not change. -/
inductive Event where
  /-- The timer, which fires. -/
  | ping
  /-- An invocation of its caller. -/
  | take
  /-- What arrived on the socket. -/
  | receive
deriving DecidableEq

def Phase.error? : Phase → Option Error
  | ending e => some e
  | running | ended => none

/-- A connection on the clock, with what is still to come and what an observer noted. -/
structure Clocked where
  connection : Connection
  /-- Milliseconds since the handshake. -/
  clock : Nat
  /-- When the timer fires next. -/
  due : Nat
  arrivals : List (Nat × Incoming)
  invokes : List (Nat × Command)
  /-- The tickets of the invocations that the task took, newest first. -/
  taken : List Nat
  /-- What the task wrote, each with its moment, newest first. -/
  written : List (Nat × Written)
  /-- When and why the connection was lost. -/
  lost : Option (Nat × Error)

namespace Clocked
open Connection

inductive Action where
  | elapse (n : Nat)
  | event (e : Event)
  /-- The caller asks for its next invocation. -/
  | invoke
  | forward
  | handOver
  | next

/-- The connection becomes another one; what this wrote and whether it was lost is noted. -/
def becomes (s : Clocked) (c : Connection) : Clocked :=
  { s with
    connection := c
    written :=
      (c.sent.take (c.sent.length - s.connection.sent.length)).map (s.clock, ·) ++ s.written
    lost := s.lost <|> c.phase.error?.map (s.clock, ·) }

def start (script : Script) (frames : OpenFrame) (messages : List Message) : Clocked :=
  let silent : Clocked :=
    { connection := blank frames, clock := 0, due := pingPeriod, arrivals := script.arrivals,
      invokes := script.invokes, taken := [], written := [], lost := none }
  silent.becomes (ofHandshake frames messages)

def writes (script : Script) (s : Clocked) : Bool := script.writable s.clock s.connection.sent

/-- What an event is for the connection, unless its moment has not come. -/
def action? (script : Script) (s : Clocked) : Event → Option Connection.Action
  | .ping => if s.due ≤ s.clock then some (.ping (s.writes script)) else none
  | .take => some (.takeCommand (s.writes script))
  | .receive =>
    match s.arrivals with
    | (moment, i) :: _ => if moment ≤ s.clock then some (.receive i) else none
    | [] => none

/-- What an event uses up. A timer that fired fires again after a period. -/
def spend (s : Clocked) : Event → Clocked
  | .ping => { s with due := s.clock + pingPeriod }
  | .take => { s with taken := (s.connection.commands.take 1).map (·.ticket) ++ s.taken }
  | .receive => { s with arrivals := s.arrivals.tail }

/-- Time passes when the task has moved what it can move. While the connection is open it does not
pass beyond the next event. -/
def MayElapse (s : Clocked) (n : Nat) : Prop :=
  s.connection.step? .forward = none ∧ s.connection.step? .handOver = none ∧
    (s.connection.phase = .running →
      s.connection.commands = [] ∧ s.clock + n ≤ s.due ∧
        (∀ x ∈ s.arrivals.head?, s.clock + n ≤ x.1) ∧ ∀ x ∈ s.invokes.head?, s.clock + n ≤ x.1)

instance (s : Clocked) (n : Nat) : Decidable (s.MayElapse n) :=
  inferInstanceAs (Decidable (_ ∧ _ ∧ (_ → _ ∧ _ ∧ _ ∧ _)))

def step? (script : Script) (s : Clocked) : Action → Option Clocked
  | .elapse n => if s.MayElapse n then some { s with clock := s.clock + n } else none
  | .event e => do
    let a ← s.action? script e
    (s.connection.step? a).map (s.spend e).becomes
  | .invoke =>
    match s.invokes with
    | (moment, command) :: rest =>
      if moment ≤ s.clock then
        (s.connection.step? (.invoke command)).map { s with invokes := rest }.becomes
      else none
    | [] => none
  | .forward => (s.connection.step? .forward).map s.becomes
  | .handOver => (s.connection.step? .handOver).map s.becomes
  | .next => (s.connection.step? .next).map s.becomes

def moments (s : Clocked) : Action → List (Nat × Event)
  | .event e => [(s.clock, e)]
  | _ => []

def course (script : Script) (s : Clocked) (as : List Action) : List (Nat × Event) :=
  Run.noted (step? script) moments s as

variable {script : Script} {s t : Clocked} {e : Event} {n : Nat} {a : Connection.Action}

section Steps

@[simp] theorem spend_clock (s : Clocked) (e : Event) : (s.spend e).clock = s.clock := by
  cases e <;> rfl

@[simp] theorem spend_connection (s : Clocked) (e : Event) :
    (s.spend e).connection = s.connection := by
  cases e <;> rfl

@[simp] theorem spend_written (s : Clocked) (e : Event) : (s.spend e).written = s.written := by
  cases e <;> rfl

@[simp] theorem spend_lost (s : Clocked) (e : Event) : (s.spend e).lost = s.lost := by
  cases e <;> rfl

theorem elapse_cases (h : s.step? script (.elapse n) = some t) :
    s.MayElapse n ∧ t = { s with clock := s.clock + n } := by
  simp only [step?] at h
  split at h
  · rename_i hmay
    exact ⟨hmay, (Option.some.inj h).symm⟩
  · cases h

theorem event_cases (h : s.step? script (.event e) = some t) :
    ∃ a c, s.action? script e = some a ∧ s.connection.step? a = some c ∧
      t = (s.spend e).becomes c := by
  simp only [step?, bind] at h
  obtain ⟨a, haction, h⟩ := Option.bind_eq_some_iff.mp h
  obtain ⟨c, hstep, h⟩ := Option.map_eq_some_iff.mp h
  exact ⟨a, c, haction, hstep, h.symm⟩

theorem action?_ping (h : s.action? script .ping = some a) :
    s.due ≤ s.clock ∧ a = .ping (s.writes script) := by
  simp only [action?] at h
  split at h
  · rename_i hdue
    exact ⟨hdue, (Option.some.inj h).symm⟩
  · cases h

theorem action?_take (h : s.action? script .take = some a) :
    a = .takeCommand (s.writes script) :=
  (Option.some.inj h).symm

theorem action?_receive (h : s.action? script .receive = some a) :
    ∃ moment i rest, s.arrivals = (moment, i) :: rest ∧ moment ≤ s.clock ∧ a = .receive i := by
  simp only [action?] at h
  split at h
  · rename_i moment i rest harrivals
    split at h
    · rename_i hcome
      exact ⟨moment, i, rest, harrivals, hcome, (Option.some.inj h).symm⟩
    · cases h
  · cases h

/-- The caller asks for its next invocation at that one's moment or later. -/
theorem asking_cases (h : s.step? script .invoke = some t) :
    ∃ moment command rest c, s.invokes = (moment, command) :: rest ∧ moment ≤ s.clock ∧
      s.connection.step? (.invoke command) = some c ∧
      t = { s with invokes := rest }.becomes c := by
  simp only [step?] at h
  split at h
  · rename_i moment command rest hinvokes
    split at h
    · rename_i hcome
      obtain ⟨c, hstep, h⟩ := Option.map_eq_some_iff.mp h
      exact ⟨moment, command, rest, c, hinvokes, hcome, hstep, h.symm⟩
    · cases h
  · cases h

inductive Moves : Action → Connection.Action → Prop where
  | forward : Moves .forward .forward
  | handOver : Moves .handOver .handOver
  | next : Moves .next .next

theorem Moves.cases {a : Action} {b : Connection.Action} (moves : Moves a b)
    (h : s.step? script a = some t) : ∃ c, s.connection.step? b = some c ∧ t = s.becomes c := by
  have hmap : (s.connection.step? b).map s.becomes = some t := by cases moves <;> exact h
  obtain ⟨c, hstep, ht⟩ := Option.map_eq_some_iff.mp hmap
  exact ⟨c, hstep, ht.symm⟩

end Steps

end Clocked
end TokenWatch.Hub
