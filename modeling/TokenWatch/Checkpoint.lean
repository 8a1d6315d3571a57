import TokenWatch.Table
import TokenWatch.Text.Numeral
import TokenWatch.Text.Pieces

/-!
The checkpoint of a chain: the highest level of which an event was accepted, in memory and as a
text in a store.
-/
namespace TokenWatch
open Text

namespace Checkpoint

def toText (level : UInt64) : String := String.ofList (Nat.toDigits 10 level.toNat)

/-- A stored level: digits with an optional plus sign, and white space around them. -/
def ofText? (s : String) : Option UInt64 := Numeral.readUnsigned? (trim s.toList)

end Checkpoint

/-- The level in memory. It only ever rises, and all handles share it. -/
structure Watermark where
  current : UInt64
deriving DecidableEq, Inhabited

namespace Watermark

def fresh : Watermark := ⟨0⟩

/-- Takes up a level without storing it. -/
def seed (w : Watermark) (level : UInt64) : Watermark := ⟨max w.current level⟩

/-- Takes up the level that the store answered with. An answer of `none` is a failed read. -/
def load (w : Watermark) (answer : Option (Option String)) : Watermark × Option UInt64 :=
  match answer.join.bind Checkpoint.ofText? with
  | some level => (w.seed level, some level)
  | none => (w, none)

/-- Raises the level; the flag tells whether it moved, and then the new level is to be stored. -/
def raise (w : Watermark) (level : UInt64) : Watermark × Bool :=
  (w.seed level, decide (w.current < level))

end Watermark

/-- A store of texts that can be told to fail, with the writes that were attempted. -/
structure Checkpoint.Store where
  values : Table String
  readable : Bool
  writable : Bool
  /-- Newest first: key, value and whether it was written. -/
  writes : List (String × String × Bool)

namespace Checkpoint.Store

def empty : Checkpoint.Store := ⟨.empty, true, true, []⟩

def get (s : Checkpoint.Store) (key : String) : Option (Option String) :=
  if s.readable then some (s.values.get? key) else none

def put (s : Checkpoint.Store) (key value : String) : Checkpoint.Store :=
  { s with
    values := if s.writable then s.values.put key value else s.values
    writes := (key, value, s.writable) :: s.writes }

end Checkpoint.Store

/-- The watermark of one key together with the store behind it. -/
structure Progress where
  key : String
  watermark : Watermark
  store : Checkpoint.Store

namespace Progress

def start (key : String) : Progress := ⟨key, .fresh, .empty⟩

def load (p : Progress) : Progress × Option UInt64 :=
  let (w, level) := p.watermark.load (p.store.get p.key)
  ({ p with watermark := w }, level)

def seed (p : Progress) (level : UInt64) : Progress :=
  { p with watermark := p.watermark.seed level }

/-- Moves the checkpoint up to `level`. It stays moved when the write fails. -/
def advance (p : Progress) (level : UInt64) : Progress × Bool :=
  let (w, moved) := p.watermark.raise level
  ({ p with
     watermark := w
     store := if moved then p.store.put p.key (Checkpoint.toText level) else p.store }, moved)

/-- A new process on the same store. -/
def restart (p : Progress) : Progress := { p with watermark := .fresh }

end Progress
end TokenWatch
