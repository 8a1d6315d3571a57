import TokenWatch.Ethereum.Watcher
import TokenWatch.Rehearsal.Blocks

/-!
The Ethereum watcher with scripted subscriptions, signals at set times and a known chain. The
handling task goes first whenever it can take a step, then signals, then the receiving task; the
clock goes on when nothing else is to be done.
-/
namespace TokenWatch.Rehearsal
open Ethereum

inductive Stream where
  | refused
  /-- Logs with the delay before each, and whether the stream stays open after them. -/
  | logs (list : List (Nat × Log)) (staysOpen : Bool)

namespace Stream

def silent : Stream := logs [] true

end Stream

structure Subscription where
  /-- How long the call takes. -/
  hang : Nat
  stream : Stream

inductive Signal where
  | send (value : Bool)
  | dropSender

structure EthereumRun where
  watcher : Ethereum.Watcher
  blocks : Blocks
  /-- The outcomes of calls to come. -/
  script : List Subscription
  /-- Signals to come and their times, in order. -/
  signals : List (Nat × Signal)
  /-- Whether shutdown is signalled once the script is used up. -/
  stopsAtEnd : Bool
  /-- The stream of the last call. -/
  stream : Stream
  /-- When the stream has news. -/
  due : Nat

namespace EthereumRun

def act (r : EthereumRun) (a : Watcher.Action) : Option EthereumRun :=
  (r.watcher.step? a).map fun watcher => { r with watcher }

def schedule (r : EthereumRun) (stream : Stream) : EthereumRun :=
  match stream with
  | .logs ((delay, _) :: _) _ => { r with stream, due := r.watcher.clock + delay }
  | _ => { r with stream, due := r.watcher.clock }

def consume? (r : EthereumRun) : Option EthereumRun :=
  match r.watcher.consumer with
  | .handling log =>
    let (_, blocks) := Handler.handle Blocks.surroundings log r.blocks
    { r with blocks }.act .handle
  | _ => r.act .take <|> r.act .close

def signal? (r : EthereumRun) : Option EthereumRun :=
  match r.signals with
  | (time, signal) :: rest =>
    if time ≤ r.watcher.clock then
      let r := { r with signals := rest }
      match signal with
      | .send value => r.act (.send value)
      | .dropSender => r.act .dropSender
    else none
  | [] => none

/-- Calls for a subscription; a call that is made anew has used up its outcome. -/
def call? (r : EthereumRun) : Option EthereumRun :=
  match r.act .call, r.script with
  | some r, s :: rest =>
    some { r with script := rest, stream := s.stream, due := r.watcher.clock + s.hang }
  | some r, [] =>
    let r := { r with stream := .silent, due := r.watcher.clock }
    if r.stopsAtEnd then r.act (.send true) else some r
  | none, _ => none

def answer? (r : EthereumRun) : Option EthereumRun :=
  if r.due ≤ r.watcher.clock then
    match r.stream with
    | .refused => r.act (.subscribed (.error "refused"))
    | stream => (r.act (.subscribed (.ok ()))).map (·.schedule stream)
  else none

def hear? (r : EthereumRun) : Option EthereumRun :=
  match r.stream with
  | .logs ((_, log) :: rest) staysOpen =>
    if r.due ≤ r.watcher.clock then
      (r.act (.hear (some log))).map (·.schedule (.logs rest staysOpen))
    else none
  | .logs [] true => none
  | _ => r.act (.hear none)

def receive? (r : EthereumRun) : Option EthereumRun :=
  r.act .notice <|>
    match r.watcher.receiver with
    | .ready => r.call?
    | .calling => r.answer?
    | .listen => r.hear?
    | .sending _ => r.act .enqueue
    | .waiting _ => r.act .resubscribe
    | .done => none

def nextTime? (r : EthereumRun) : Option Nat :=
  match r.watcher.receiver, r.stream with
  | .calling, _ => some r.due
  | .listen, .logs (_ :: _) _ => some r.due
  | .waiting due, _ => some due
  | _, _ => none

def elapse? (r : EthereumRun) : Option EthereumRun :=
  match r.watcher.receiver with
  | .done => none
  | _ =>
    match (r.nextTime?.toList ++ (r.signals.map Prod.fst).take 1).min? with
    | some time =>
      if r.watcher.clock < time then r.act (.elapse (time - r.watcher.clock)) else none
    | none => none

def step? (r : EthereumRun) : Option EthereumRun :=
  r.consume? <|> r.signal? <|> r.receive? <|> r.elapse?

end EthereumRun
end TokenWatch.Rehearsal
