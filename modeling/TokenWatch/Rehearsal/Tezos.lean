import TokenWatch.Rehearsal.Sink
import TokenWatch.Tezos.Watcher

/-!
The Tezos watcher with a scripted explorer, feed, store and event processor. The pushing task goes
first whenever it can take a step.
-/
namespace TokenWatch.Rehearsal
open Json Tezos

/-- What the explorer has for one level: generated records, then given ones. Requests from the
offset `failAt` on fail. -/
structure LevelContent where
  count : Nat
  records : List Value
  failAt : Option Nat

inductive FeedItem where
  | invocation (target : String) (arguments : List Value)
  | send (value : Bool)
  | dropSender
  | fail (e : Hub.Error)

inductive PageKind where
  | transfers
  | updates
deriving DecidableEq

inductive TezosTrace where
  | head
  | page (kind : PageKind) (level : UInt64) (offset : Nat)
  | subscribe
  | next
  | push (e : Event) (answer : SinkAnswer)
  | put (value : String) (written : Bool)

structure TezosScript where
  readable : Bool
  writable : Bool
  /-- Successive heads, `none` for a failure; the last one is repeated. -/
  heads : List (Option UInt64)
  transfers : Table LevelContent
  updates : Table LevelContent
  rejection : Option Hub.Error
  feed : List FeedItem
  /-- The request during which shutdown is signalled. -/
  stopAt : Option Nat
  sink : Sink

structure TezosRun where
  watcher : Watcher
  script : TezosScript
  requests : Nat
  /-- Newest first. -/
  trace : List TezosTrace

namespace LevelContent

def generatedTime : Option Time.Moment := Time.Moment.ofText? "2023-05-01T12:00:00Z"

def page? (c : LevelContent) (offset : Nat) (generate : Nat → Option α) (r : Reader α) :
    Option (List α) :=
  if c.failAt.any (· ≤ offset) then none
  else
    let fromGenerated := (List.range' offset (min (c.count - offset) pageLimit)).map generate
    let given := (c.records.drop (offset - c.count)).take (pageLimit - fromGenerated.length)
    (fromGenerated ++ given.map (Reader.ofValue? r)).mapM id

def transferNumber (level : UInt64) (n : Nat) : Option TransferRecord :=
  generatedTime.map fun time =>
    let id := level * 1000 + UInt64.ofNat n
    { id, level, time, contract := "KT1contract", tokenId := toString n, source := some "tz1from",
      target := some "tz1to", transaction := some id, origination := none, migration := none }

def updateNumber (level : UInt64) (n : Nat) : Option UpdateRecord :=
  generatedTime.map fun time =>
    { id := level * 1000 + 500 + UInt64.ofNat n, level, time, contract := "KT1contract",
      action := "update_key",
      content := some ⟨.text (toString n), .ofMembers [("token_id", .text (toString n))]⟩ }

end LevelContent

namespace TezosRun

def unavailable : Http.Error := .http "unavailable"

def act (r : TezosRun) (a : Watcher.Action) : Option TezosRun :=
  (r.watcher.step? a).map fun watcher => { r with watcher }

def note (r : TezosRun) (t : TezosTrace) : TezosRun := { r with trace := t :: r.trace }

/-- Signals shutdown if this is the request to do so at, and counts the request. -/
def request (r : TezosRun) (t : TezosTrace) : TezosRun :=
  let r := if r.script.stopAt = some r.requests then (r.act (.send true)).getD r else r
  { r.note t with requests := r.requests + 1 }

def consume? (r : TezosRun) : Option TezosRun :=
  match r.watcher.consumer with
  | .pushing e =>
    let (sink, answer) := r.script.sink.push e
    { r.note (.push e answer) with script := { r.script with sink } }.act (.push answer.result)
  | .storing level =>
    (r.note (.put (Checkpoint.toText level) r.script.writable)).act (.store r.script.writable)
  | _ => r.act .take <|> r.act .close

def content (t : Table LevelContent) (level : UInt64) : LevelContent :=
  (t.get? (toString level.toNat)).getD ⟨0, [], none⟩

/-- Takes the next item of the feed; a feed that is used up is closed. -/
def listen? (r : TezosRun) : Option TezosRun :=
  if r.watcher.shutdown.IsReady then r.act .notice
  else
    let item := r.script.feed.headD (.fail (.closed none))
    let r := { r.note .next with script := { r.script with feed := r.script.feed.tail } }
    match item with
    | .invocation target arguments => r.act (.batch (.ok (.decode target arguments)))
    | .send value => r.act (.send value)
    | .dropSender => r.act .dropSender
    | .fail e => r.act (.batch (.error e))

def receive? (r : TezosRun) : Option TezosRun :=
  match r.watcher.receiver with
  | .load => r.act (.load (if r.script.readable then some r.watcher.stored else none))
  | .head .. =>
    let heads := r.script.heads
    let rest := if heads.length ≤ 1 then heads else heads.tail
    let answer := match heads.head?.join with
      | some head => .ok head
      | none => .error unavailable
    { r.request .head with script := { r.script with heads := rest } }.act (.head answer)
  | .level .. => r.act .check
  | .transfers level _ offset _ =>
    let page := (content r.script.transfers level).page? offset.toNat
      (LevelContent.transferNumber level) Reader.transferRecord
    (r.request (.page .transfers level offset.toNat)).act
      (.transfersPage (page.elim (.error unavailable) .ok))
  | .updates level _ offset _ =>
    let page := (content r.script.updates level).page? offset.toNat
      (LevelContent.updateNumber level) Reader.updateRecord
    (r.request (.page .updates level offset.toNat)).act
      (.updatesPage (page.elim (.error unavailable) .ok))
  | .subscribe =>
    (r.note .subscribe).act (.subscribe (r.script.rejection.elim (.ok ()) .error))
  | .listen => r.listen?
  | .done _ => none

def step? (r : TezosRun) : Option TezosRun :=
  r.consume? <|> (if r.watcher.pending = [] then r.receive? else r.act .enqueue)

end TezosRun
end TokenWatch.Rehearsal
