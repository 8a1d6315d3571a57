import TokenWatch.Checkpoint
import TokenWatch.EventProcessor

/-!
What the push of a Tezos event leads to: an accepted one moves the checkpoint. Events are pushed one
after the other, each with what the surroundings answer.
-/
namespace TokenWatch.Tezos

/-- Goes on after the answer to a push. The result tells whether the checkpoint moved. -/
def settle (p : Progress) (e : Event) (answer : PushResult) : Progress × Except PushError Bool :=
  match answer with
  | .error cause => (p, .error cause)
  | .ok () =>
    match e.level with
    | none => (p, .ok false)
    | some level =>
      let (p, moved) := p.advance level
      (p, .ok moved)

/-- An event that is to be pushed, with what the sink answers, and whether the store can write
then. -/
structure Handout where
  event : Event
  answer : PushResult
  writable : Bool

inductive Effect where
  | push (e : Event) (answer : PushResult)
  | write (key text : String) (written : Bool)

namespace Effect

def push? : Effect → Option (Event × PushResult)
  | push e answer => some (e, answer)
  | write _ _ _ => none

def level? : Effect → Option UInt64
  | push e (.ok ()) => e.level
  | _ => none

def levels (fx : List Effect) : List UInt64 := fx.filterMap level?

/-- Apart from whether a write came through. -/
def attempted : Effect → Effect
  | write key text _ => write key text true
  | push e answer => push e answer

end Effect

namespace Handout

/-- Apart from what becomes of a write. -/
def bare (h : Handout) : Event × PushResult := (h.event, h.answer)

def level? (h : Handout) : Option UInt64 := (Effect.push h.event h.answer).level?

end Handout

def handOut (p : Progress) (h : Handout) : Progress × Except PushError Bool :=
  settle { p with store := { p.store with writable := h.writable } } h.event h.answer

def newWrites (p q : Progress) : List Effect :=
  (q.store.writes.take (q.store.writes.length - p.store.writes.length)).reverse.map
    fun (key, text, written) => .write key text written

def handOuts (p : Progress) : List Handout → Progress
  | [] => p
  | h :: hs => handOuts (handOut p h).1 hs

/-- Whether each event moved the checkpoint, or why it was not accepted. -/
def results (p : Progress) : List Handout → List (Except PushError Bool)
  | [] => []
  | h :: hs => (handOut p h).2 :: results (handOut p h).1 hs

def effects (p : Progress) : List Handout → List Effect
  | [] => []
  | h :: hs =>
    .push h.event h.answer :: newWrites p (handOut p h).1 ++ effects (handOut p h).1 hs

end TokenWatch.Tezos
