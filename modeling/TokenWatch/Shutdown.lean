/-!
The channel that tells a watcher to stop.
-/
namespace TokenWatch

/-- What a receiver of the channel can see. Several values sent in a row show as one change, and
the last of them counts. -/
structure Shutdown where
  value : Bool
  /-- Whether a value was sent that has not been looked at. -/
  changed : Bool
  senderGone : Bool
deriving DecidableEq, Inhabited

namespace Shutdown

def start (value : Bool) : Shutdown := ⟨value, false, false⟩

def send (s : Shutdown) (value : Bool) : Shutdown := { s with value, changed := true }

def dropSender (s : Shutdown) : Shutdown := { s with senderGone := true }

/-- Whether one who waits for a change goes on at once. -/
def IsReady (s : Shutdown) : Prop := s.changed = true ∨ s.senderGone = true

instance (s : Shutdown) : Decidable s.IsReady := inferInstanceAs (Decidable (_ ∨ _))

/-- Looks at a change, and tells whether it means to stop: `true` was sent, or nothing new can
be sent any more. -/
def notice (s : Shutdown) : Shutdown × Bool :=
  ({ s with changed := false }, if s.changed then s.value else s.senderGone)

end Shutdown

/-- The items that fit between the two tasks of a watcher. -/
def queueSlots : Nat := 100

end TokenWatch
