import TokenWatch.Ethereum.Handler
import TokenWatch.Rehearsal.Sink

/-!
A chain with known blocks, a cache in memory that can be told to fail, and an event processor.
-/
namespace TokenWatch.Rehearsal
open Time Json

structure Blocks where
  times : Table (Except BlockTime.Error Moment)
  lookUps : Nat
  cache : Table Value
  readable : Bool
  writable : Bool
  sink : Sink

namespace Blocks

def ofTimes (times : Table (Except BlockTime.Error Moment)) (sink : Sink) : Blocks :=
  ⟨times, 0, .empty, true, true, sink⟩

def blockTime (b : Blocks) (hash : BlockHash) : Except BlockTime.Error Moment :=
  (b.times.get? hash.toText).getD (.error (.notFound hash))

def surroundings : Ethereum.Handler.Surroundings (StateM Blocks) where
  cached key := do
    let b ← get
    return if b.readable then some (b.cache.get? key) else none
  lookUp hash := do
    modify fun b => { b with lookUps := b.lookUps + 1 }
    return (← get).blockTime hash
  remember key v := do
    modify fun b => { b with cache := if b.writable then b.cache.put key v else b.cache }
    return (← get).writable
  push e := do
    let (sink, answer) := (← get).sink.push e
    modify fun b => { b with sink }
    return answer.result

end Blocks
end TokenWatch.Rehearsal
