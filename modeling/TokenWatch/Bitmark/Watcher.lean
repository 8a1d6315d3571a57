import TokenWatch.Bitmark.Handler
import TokenWatch.Shutdown

/-!
The Bitmark watcher. One task listens for notifications, the other handles them; their actions
interleave freely.
-/
namespace TokenWatch.Bitmark

/-- What the listener brings: a notification, word that the connection was lost, or its failure.
After a lost connection the listener connects again by itself. -/
inductive Heard where
  | notification (n : Notification)
  | lost
  | failed (cause : String)
deriving DecidableEq

inductive Receiver where
  | connect
  | listen
  /-- Waits for room in the queue. -/
  | sending (n : Notification)
  | done (result : Except String Unit)

inductive Consumer where
  | idle
  | handling (n : Notification)
  | done
deriving DecidableEq

structure Watcher where
  receiver : Receiver
  queue : List Notification
  consumer : Consumer
  shutdown : Shutdown
  /-- Newest first, as are the handled ones. -/
  received : List Notification
  handled : List Notification

namespace Watcher

def start (shutdown : Shutdown) : Watcher :=
  { receiver := .connect, queue := [], consumer := .idle, shutdown, received := [], handled := [] }

inductive Action where
  /-- Connects and listens on the channel. -/
  | connect (answer : Except String Unit)
  | notice
  | hear (h : Heard)
  | enqueue
  | take
  /-- Is through with a notification. -/
  | handle
  | close
  | send (value : Bool)
  | dropSender

def onHeard (w : Watcher) : Heard → Watcher
  | .notification n => { w with receiver := .sending n, received := n :: w.received }
  | .lost => w
  | .failed cause => { w with receiver := .done (.error cause) }

/-- One step, or `none` where the action has to wait. -/
def step? (w : Watcher) : Action → Option Watcher
  | .connect answer =>
    match w.receiver, answer with
    | .connect, .ok () => some { w with receiver := .listen }
    | .connect, .error cause => some { w with receiver := .done (.error cause) }
    | _, _ => none
  | .notice =>
    match w.receiver with
    | .listen =>
      if w.shutdown.IsReady then
        let (shutdown, stop) := w.shutdown.notice
        some { w with shutdown, receiver := if stop then .done (.ok ()) else .listen }
      else none
    | _ => none
  | .hear h =>
    match w.receiver with
    | .listen => if w.shutdown.IsReady then none else some (w.onHeard h)
    | _ => none
  | .enqueue =>
    match w.receiver with
    | .sending n =>
      if w.queue.length < queueSlots then
        some { w with receiver := .listen, queue := w.queue ++ [n] }
      else none
    | _ => none
  | .take =>
    match w.consumer, w.queue with
    | .idle, n :: rest => some { w with consumer := .handling n, queue := rest }
    | _, _ => none
  | .handle =>
    match w.consumer with
    | .handling n => some { w with consumer := .idle, handled := n :: w.handled }
    | _ => none
  | .close =>
    match w.receiver, w.consumer, w.queue with
    | .done _, .idle, [] => some { w with consumer := .done }
    | _, _, _ => none
  | .send value => some { w with shutdown := w.shutdown.send value }
  | .dropSender => some { w with shutdown := w.shutdown.dropSender }

def result? (w : Watcher) : Option (Except String Unit) :=
  match w.receiver, w.consumer with
  | .done result, .done => some result
  | _, _ => none

end Watcher
end TokenWatch.Bitmark
