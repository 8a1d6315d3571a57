import TokenWatch.Checkpoint
import TokenWatch.EventProcessor
import TokenWatch.Hub.Error
import TokenWatch.Shutdown
import TokenWatch.Tezos.Batch

/-!
The Tezos watcher. One task catches up from the checkpoint, subscribes and receives batches; the
other pushes the events and moves the checkpoint. The answers of the surroundings are part of the
actions, and the actions of both tasks interleave freely.
-/
namespace TokenWatch.Tezos

/-- The most records that one request brings. -/
def pageLimit : Nat := 100

def nextPage (offset : UInt64) : UInt64 := offset + .ofNat pageLimit

/-- What catching up is followed by. -/
inductive Resume where
  | subscribe
  /-- The batch that showed a gap. -/
  | batch (events : List Event)

/-- The point that the receiving task has come to. -/
inductive Receiver where
  | load
  | head (start : UInt64) (after : Resume)
  | level (level head : UInt64) (after : Resume)
  | transfers (level head : UInt64) (offset : UInt64) (after : Resume)
  | updates (level head : UInt64) (offset : UInt64) (after : Resume)
  | subscribe
  | listen
  | done (result : Except Hub.Error Unit)

/-- The point that the pushing task has come to. -/
inductive Consumer where
  | idle
  | pushing (e : Event)
  | storing (level : UInt64)
  | done
deriving DecidableEq

structure Watcher where
  receiver : Receiver
  /-- Events that the receiving task puts into the queue before it goes on. -/
  pending : List Event
  firstTransfers : Bool
  firstUpdates : Bool
  queue : List Event
  consumer : Consumer
  watermark : Watermark
  shutdown : Shutdown
  /-- What stands in the store under the watcher's key. -/
  stored : Option String
  /-- Newest first, as are the pushes. -/
  enqueued : List Event
  pushes : List (Event × PushResult)

namespace Watcher

def start (stored : Option String) (shutdown : Shutdown) : Watcher :=
  { receiver := .load, pending := [], firstTransfers := true, firstUpdates := true, queue := [],
    consumer := .idle, watermark := .fresh, shutdown, stored, enqueued := [], pushes := [] }

inductive Action where
  /-- The store's answer to the read of the checkpoint; `none` is a failure. -/
  | load (answer : Option (Option String))
  | head (answer : Except Http.Error UInt64)
  /-- Looks at the shutdown value before a level. -/
  | check
  | transfersPage (answer : Except Http.Error (List TransferRecord))
  | updatesPage (answer : Except Http.Error (List UpdateRecord))
  | enqueue
  | subscribe (answer : Except Hub.Error Unit)
  /-- Looks at a change of the shutdown channel. -/
  | notice
  | batch (answer : Except Hub.Error Batch)
  | take
  | push (answer : PushResult)
  | store (written : Bool)
  | close
  | send (value : Bool)
  | dropSender

def resume (w : Watcher) : Resume → Watcher
  | .subscribe => { w with receiver := .subscribe }
  | .batch events => { w with receiver := .listen, pending := w.pending ++ events }

/-- Goes on to the next level up to the head. -/
def nextLevel (w : Watcher) (level head : UInt64) (after : Resume) : Watcher :=
  if level < head then { w with receiver := .level (level + 1) head after } else w.resume after

def onHead (w : Watcher) (start : UInt64) (after : Resume) :
    Except Http.Error UInt64 → Watcher
  | .ok head =>
    if start ≤ head then { w with receiver := .level start head after } else w.resume after
  | .error _ => w.resume after

def onTransfers (w : Watcher) (level head : UInt64) (offset : UInt64) (after : Resume) :
    Except Http.Error (List TransferRecord) → Watcher
  | .ok page =>
    { w with
      pending := transferEvents page
      receiver :=
        if pageLimit ≤ page.length then .transfers level head (nextPage offset) after
        else .updates level head 0 after }
  | .error _ => { w with receiver := .updates level head 0 after }

def onUpdates (w : Watcher) (level head : UInt64) (offset : UInt64) (after : Resume) :
    Except Http.Error (List UpdateRecord) → Watcher
  | .ok page =>
    let w := { w with pending := updateEvents page }
    if pageLimit ≤ page.length then
      { w with receiver := .updates level head (nextPage offset) after }
    else w.nextLevel level head after
  | .error _ => w.nextLevel level head after

/-- The first batch of each channel is preceded by catching up from the watermark, unless no level
is known yet. -/
def onEvents (w : Watcher) (first : Bool) (events : List Event) : Watcher :=
  if first ∧ 0 < w.watermark.current then
    { w with receiver := .head w.watermark.current (.batch events) }
  else { w with pending := events }

def onBatch (w : Watcher) : Except Hub.Error Batch → Watcher
  | .error e => { w with receiver := .done (.error e) }
  | .ok .ignored => w
  | .ok (.transfers rs) =>
    { w with firstTransfers := false }.onEvents w.firstTransfers (transferEvents rs)
  | .ok (.updates rs) =>
    { w with firstUpdates := false }.onEvents w.firstUpdates (updateEvents rs)

/-- An accepted event of a level raises the watermark, and a raised watermark is stored. -/
def onPush (w : Watcher) (e : Event) (answer : PushResult) : Watcher :=
  let w := { w with pushes := (e, answer) :: w.pushes }
  match answer, e.level with
  | .ok (), some level =>
    let (watermark, moved) := w.watermark.raise level
    { w with watermark, consumer := if moved then .storing level else .idle }
  | _, _ => { w with consumer := .idle }

/-- A step of the receiving task once its pending events are in the queue. -/
def receive? (w : Watcher) : Action → Option Watcher
  | .load answer =>
    match w.receiver with
    | .load =>
      let (watermark, level) := w.watermark.load answer
      some { w with
        watermark
        receiver := match level with
          | some level => .head level .subscribe
          | none => .subscribe }
    | _ => none
  | .head answer =>
    match w.receiver with
    | .head start after => some (w.onHead start after answer)
    | _ => none
  | .check =>
    match w.receiver with
    | .level level head after =>
      some { w with
        receiver := if w.shutdown.value then .done (.ok ()) else .transfers level head 0 after }
    | _ => none
  | .transfersPage answer =>
    match w.receiver with
    | .transfers level head offset after => some (w.onTransfers level head offset after answer)
    | _ => none
  | .updatesPage answer =>
    match w.receiver with
    | .updates level head offset after => some (w.onUpdates level head offset after answer)
    | _ => none
  | .subscribe answer =>
    match w.receiver, answer with
    | .subscribe, .ok () => some { w with receiver := .listen }
    | .subscribe, .error e => some { w with receiver := .done (.error e) }
    | _, _ => none
  | .notice =>
    match w.receiver with
    | .listen =>
      if w.shutdown.IsReady then
        let (shutdown, stop) := w.shutdown.notice
        some { w with shutdown, receiver := if stop then .done (.ok ()) else .listen }
      else none
    | _ => none
  | .batch answer =>
    match w.receiver with
    | .listen => if w.shutdown.IsReady then none else some (w.onBatch answer)
    | _ => none
  | _ => none

/-- One step, or `none` where the action has to wait. -/
def step? (w : Watcher) : Action → Option Watcher
  | .enqueue =>
    match w.pending with
    | e :: rest =>
      if w.queue.length < queueSlots then
        some { w with pending := rest, queue := w.queue ++ [e], enqueued := e :: w.enqueued }
      else none
    | [] => none
  | .take =>
    match w.consumer, w.queue with
    | .idle, e :: rest => some { w with consumer := .pushing e, queue := rest }
    | _, _ => none
  | .push answer =>
    match w.consumer with
    | .pushing e => some (w.onPush e answer)
    | _ => none
  | .store written =>
    match w.consumer with
    | .storing level =>
      some { w with
        consumer := .idle
        stored := if written then some (Checkpoint.toText level) else w.stored }
    | _ => none
  | .close =>
    match w.receiver, w.pending, w.consumer, w.queue with
    | .done _, [], .idle, [] => some { w with consumer := .done }
    | _, _, _, _ => none
  | .send value => some { w with shutdown := w.shutdown.send value }
  | .dropSender => some { w with shutdown := w.shutdown.dropSender }
  | a => if w.pending = [] then w.receive? a else none

def result? (w : Watcher) : Option (Except Hub.Error Unit) :=
  match w.receiver, w.consumer with
  | .done result, .done => some result
  | _, _ => none

end Watcher
end TokenWatch.Tezos
