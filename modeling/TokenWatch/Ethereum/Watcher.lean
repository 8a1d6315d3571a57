import TokenWatch.Ethereum.Log
import TokenWatch.Retry
import TokenWatch.Shutdown

/-!
The Ethereum watcher on a clock. One task subscribes to logs, again after every failure and every
end of a stream; the other handles the logs. Their actions interleave freely.
-/
namespace TokenWatch.Ethereum

/-- The point that the receiving task has come to. -/
inductive Receiver where
  /-- About to subscribe. -/
  | ready
  /-- Waits for the answer to a subscription. -/
  | calling
  | listen
  /-- Waits for room in the queue. -/
  | sending (log : Log)
  /-- Waits for a moment of the clock before it subscribes again. -/
  | waiting (due : Nat)
  | done
deriving DecidableEq

namespace Receiver

/-- Where a change that does not mean to stop leads: a pending call is made anew, and a wait
ends. -/
def wake : Receiver → Receiver
  | .calling => .ready
  | .waiting _ => .ready
  | r => r

/-- Whether the receiving task looks at the shutdown channel. -/
def heeds : Receiver → Bool
  | .sending _ => false
  | .done => false
  | _ => true

end Receiver

/-- The point that the handling task has come to. -/
inductive Consumer where
  | idle
  | handling (log : Log)
  | done
deriving DecidableEq

structure Watcher where
  retry : RetrySchedule
  /-- Milliseconds since the start. -/
  clock : Nat
  receiver : Receiver
  /-- How many waits there were since the last subscription that succeeded. -/
  attempt : UInt32
  queue : List Log
  consumer : Consumer
  shutdown : Shutdown
  /-- When subscriptions were called for, newest first. -/
  calls : List Nat
  /-- Newest first, as are the handled ones. -/
  received : List Log
  handled : List Log

namespace Watcher

def start (retry : RetrySchedule) (shutdown : Shutdown) : Watcher :=
  { retry, clock := 0, receiver := .ready, attempt := 0, queue := [], consumer := .idle, shutdown,
    calls := [], received := [], handled := [] }

inductive Action where
  | call
  | subscribed (answer : Except String Unit)
  /-- The next log of the stream; `none` is its end. -/
  | hear (log : Option Log)
  | enqueue
  /-- The wait is over. -/
  | resubscribe
  /-- Looks at a change of the shutdown channel. -/
  | notice
  | take
  /-- Is through with a log. -/
  | handle
  | close
  | elapse (millis : Nat)
  | send (value : Bool)
  | dropSender

/-- The number of waits does not grow beyond its type. -/
def nextAttempt (n : UInt32) : UInt32 := if n.toNat + 1 < UInt32.size then n + 1 else n

def await (w : Watcher) : Watcher :=
  { w with
    receiver := .waiting (w.clock + w.retry.delay w.attempt)
    attempt := nextAttempt w.attempt }

def onAnswer (w : Watcher) : Except String Unit → Watcher
  | .ok () => { w with receiver := .listen, attempt := 0 }
  | .error _ => w.await

def onHeard (w : Watcher) : Option Log → Watcher
  | some log => { w with receiver := .sending log, received := log :: w.received }
  | none => w.await

def onNotice (w : Watcher) : Watcher :=
  let (shutdown, stop) := w.shutdown.notice
  { w with shutdown, receiver := if stop then .done else w.receiver.wake }

/-- Whether the clock may go on by some time: not past the end of a wait, and not while something
is to be done at once. -/
def MayElapse (w : Watcher) (millis : Nat) : Prop :=
  match w.receiver with
  | .ready => False
  | .calling => ¬w.shutdown.IsReady
  | .listen => ¬w.shutdown.IsReady
  | .waiting due => ¬w.shutdown.IsReady ∧ w.clock + millis ≤ due
  | .sending _ => True
  | .done => True

instance (w : Watcher) (millis : Nat) : Decidable (w.MayElapse millis) := by
  unfold MayElapse
  split <;> infer_instance

/-- One step, or `none` where the action has to wait. The shutdown channel is looked at before
anything else that has happened. -/
def step? (w : Watcher) : Action → Option Watcher
  | .call =>
    match w.receiver with
    | .ready =>
      if w.shutdown.IsReady then none
      else some { w with receiver := .calling, calls := w.clock :: w.calls }
    | _ => none
  | .subscribed answer =>
    match w.receiver with
    | .calling => if w.shutdown.IsReady then none else some (w.onAnswer answer)
    | _ => none
  | .hear log =>
    match w.receiver with
    | .listen => if w.shutdown.IsReady then none else some (w.onHeard log)
    | _ => none
  | .enqueue =>
    match w.receiver with
    | .sending log =>
      if w.queue.length < queueSlots then
        some { w with receiver := .listen, queue := w.queue ++ [log] }
      else none
    | _ => none
  | .resubscribe =>
    match w.receiver with
    | .waiting due =>
      if w.shutdown.IsReady ∨ w.clock < due then none else some { w with receiver := .ready }
    | _ => none
  | .notice =>
    if w.receiver.heeds ∧ w.shutdown.IsReady then some w.onNotice else none
  | .take =>
    match w.consumer, w.queue with
    | .idle, log :: rest => some { w with consumer := .handling log, queue := rest }
    | _, _ => none
  | .handle =>
    match w.consumer with
    | .handling log => some { w with consumer := .idle, handled := log :: w.handled }
    | _ => none
  | .close =>
    match w.receiver, w.consumer, w.queue with
    | .done, .idle, [] => some { w with consumer := .done }
    | _, _, _ => none
  | .elapse millis =>
    if w.MayElapse millis then some { w with clock := w.clock + millis } else none
  | .send value => some { w with shutdown := w.shutdown.send value }
  | .dropSender => some { w with shutdown := w.shutdown.dropSender }

def IsOver (w : Watcher) : Prop := w.receiver = .done ∧ w.consumer = .done

instance (w : Watcher) : Decidable w.IsOver := inferInstanceAs (Decidable (_ ∧ _))

end Watcher
end TokenWatch.Ethereum
