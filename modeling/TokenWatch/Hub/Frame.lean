import TokenWatch.Hub.Error

/-!
Frames: pieces of text that each end in a record separator, however the text is cut into messages.
-/
namespace TokenWatch.Hub

def separator : Char := '\x1e'

def byteSize (cs : List Char) : Nat :=
  cs.foldl (fun n c => n + c.utf8Size) 0

/-- The text after the last separator, newest character first. -/
structure OpenFrame where
  tail : List Char
deriving DecidableEq, Inhabited

namespace OpenFrame

def empty : OpenFrame := ⟨[]⟩

/-- Takes one character; a finished frame is put in front of the others unless it is empty. -/
def step (s : List Char × List (List Char)) (c : Char) : List Char × List (List Char) :=
  if c = separator then ([], if s.1 = [] then s.2 else s.1.reverse :: s.2)
  else (c :: s.1, s.2)

/-- Takes a piece of text and returns the frames that it completes. What is left open may not be
longer than a message; otherwise the buffer is emptied and the frames of this piece are lost. -/
def push (b : OpenFrame) (text : List Char) : OpenFrame × Except Error (List (List Char)) :=
  let (tail, frames) := text.foldl step (b.tail, [])
  let size := byteSize tail
  if messageLimit < size then (empty, .error (.frameTooLarge size))
  else (⟨tail⟩, .ok frames.reverse)

end OpenFrame
end TokenWatch.Hub
