import TokenWatch.BlockTime

/-!
Resolutions of block times by several callers at the same time, over one cache and a chain whose
blocks do not change. Each reads the cache, asks the chain if that was of no use, and writes the
answer to the cache; between these steps the others may go on.
-/
namespace TokenWatch.BlockTime
open Time Json

/-- The point that one caller has come to. -/
inductive Resolution where
  | called (hash : BlockHash)
  /-- The cache was of no use. -/
  | missed (hash : BlockHash)
  /-- The chain's answer is to be written. -/
  | found (hash : BlockHash) (time : Moment)
  | returned (hash : BlockHash) (result : Except BlockTime.Error Moment)

structure Resolutions where
  cache : Table Value
  callers : List Resolution

namespace Resolutions

def start (cache : Table Value) (hashes : List BlockHash) : Resolutions :=
  ⟨cache, hashes.map .called⟩

def read (cache : Table Value) (hash : BlockHash) (works : Bool) : Resolution :=
  match usable? (if works then some (cache.get? (key hash)) else none) with
  | some t => .returned hash (.ok t)
  | none => .missed hash

def answered (hash : BlockHash) : Except BlockTime.Error Moment → Resolution
  | .ok t => .found hash t
  | .error e => .returned hash (.error e)

/-- The next step of one caller, or `none` if there is none. The flag tells whether the cache
works. -/
def step? (chain : BlockHash → Except BlockTime.Error Moment) (s : Resolutions) (caller : Nat)
    (works : Bool) : Option Resolutions :=
  match s.callers[caller]? with
  | some (.called hash) =>
    some { s with callers := s.callers.set caller (read s.cache hash works) }
  | some (.missed hash) =>
    some { s with callers := s.callers.set caller (answered hash (chain hash)) }
  | some (.found hash t) =>
    some {
      cache := if works then s.cache.put (key hash) (toEntry t) else s.cache
      callers := s.callers.set caller (.returned hash (.ok t)) }
  | _ => none

def run? (chain : BlockHash → Except BlockTime.Error Moment) (s : Resolutions)
    (steps : List (Nat × Bool)) : Option Resolutions :=
  steps.foldlM (fun s (caller, works) => s.step? chain caller works) s

end Resolutions
end TokenWatch.BlockTime
