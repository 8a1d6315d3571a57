/-!
Bytes read as UTF-8 text, with a replacement character for what is not well formed.
-/
namespace TokenWatch.Text.Utf8

def replacement : Char := '\ufffd'

/-- Which second bytes may follow a lead byte, how many bytes follow it, and its payload. -/
structure Lead where
  low : Nat
  high : Nat
  count : Nat
  bits : Nat

def lead? (b : UInt8) : Option Lead :=
  let n := b.toNat
  if n < 0x80 then some ⟨0x80, 0xBF, 0, n⟩
  else if n < 0xC2 then none
  else if n < 0xE0 then some ⟨0x80, 0xBF, 1, n % 0x20⟩
  else if n = 0xE0 then some ⟨0xA0, 0xBF, 2, 0⟩
  else if n = 0xED then some ⟨0x80, 0x9F, 2, 0xD⟩
  else if n < 0xF0 then some ⟨0x80, 0xBF, 2, n % 0x10⟩
  else if n = 0xF0 then some ⟨0x90, 0xBF, 3, 0⟩
  else if n < 0xF4 then some ⟨0x80, 0xBF, 3, n % 8⟩
  else if n = 0xF4 then some ⟨0x80, 0x8F, 3, 4⟩
  else none

/-- The bytes of a sequence still to come, and the bits so far. -/
inductive Place where
  | between
  | inside (low high : Nat) (left : Nat) (bits : Nat)

def begin (out : List Char) (b : UInt8) : List Char × Place :=
  match lead? b with
  | none => (replacement :: out, .between)
  | some ⟨_, _, 0, bits⟩ => (Char.ofNat bits :: out, .between)
  | some ⟨low, high, left, bits⟩ => (out, .inside low high left bits)

/-- Takes one byte; characters are put in front. A byte that cannot continue a sequence ends it
and starts another one. -/
def step (s : List Char × Place) (b : UInt8) : List Char × Place :=
  match s.2 with
  | .between => begin s.1 b
  | .inside low high left bits =>
    if low ≤ b.toNat ∧ b.toNat ≤ high then
      let bits := bits * 0x40 + b.toNat % 0x40
      if left ≤ 1 then (Char.ofNat bits :: s.1, .between)
      else (s.1, .inside 0x80 0xBF (left - 1) bits)
    else begin (replacement :: s.1) b

def decodeLossy (bytes : List UInt8) : List Char :=
  match bytes.foldl step ([], .between) with
  | (out, .between) => out.reverse
  | (out, .inside ..) => (replacement :: out).reverse

end TokenWatch.Text.Utf8
