/-!
The Keccak-256 hash of short byte strings.
-/
namespace TokenWatch.Ethereum.Keccak

/-- Twenty-five lanes; lane `x + 5 * y` stands in column `x` and row `y`. -/
abbrev Lanes := Vector UInt64 25

def rotate (w : UInt64) (n : Nat) : UInt64 :=
  if n = 0 then w else (w <<< UInt64.ofNat n) ||| (w >>> UInt64.ofNat (64 - n))

def lane (a : Lanes) (x y : Nat) : UInt64 :=
  a.get ⟨x % 5 + 5 * (y % 5), by omega⟩

def roundConstants : List UInt64 :=
  [0x0000000000000001, 0x0000000000008082, 0x800000000000808A, 0x8000000080008000,
   0x000000000000808B, 0x0000000080000001, 0x8000000080008081, 0x8000000000008009,
   0x000000000000008A, 0x0000000000000088, 0x0000000080008009, 0x000000008000000A,
   0x000000008000808B, 0x800000000000008B, 0x8000000000008089, 0x8000000000008003,
   0x8000000000008002, 0x8000000000000080, 0x000000000000800A, 0x800000008000000A,
   0x8000000080008081, 0x8000000000008080, 0x0000000080000001, 0x8000000080008008]

def rotations : List Nat :=
  [0, 1, 62, 28, 27, 36, 44, 6, 55, 20, 3, 10, 43, 25, 39, 41, 45, 15, 21, 8, 18, 2, 61, 56, 14]

/-- Adds to each lane the parities of two neighbouring columns. -/
def mixColumns (a : Lanes) : Lanes :=
  let parity (x : Nat) : UInt64 :=
    lane a x 0 ^^^ lane a x 1 ^^^ lane a x 2 ^^^ lane a x 3 ^^^ lane a x 4
  let effect : Vector UInt64 5 := .ofFn fun x => parity (x + 4) ^^^ rotate (parity (x + 1)) 1
  .ofFn fun i => a[i] ^^^ effect.get ⟨i.val % 5, by omega⟩

/-- Rotates the lanes and moves column `x + 3 * y`, row `x` to column `x`, row `y`. -/
def moveLanes (a : Lanes) : Lanes :=
  .ofFn fun i =>
    let x := i.val % 5
    let y := i.val / 5
    rotate (lane a (x + 3 * y) x) (rotations.getD ((x + 3 * y) % 5 + 5 * x) 0)

def mixRows (a : Lanes) : Lanes :=
  .ofFn fun i =>
    let x := i.val % 5
    let y := i.val / 5
    lane a x y ^^^ (~~~(lane a (x + 1) y) &&& lane a (x + 2) y)

def round (a : Lanes) (constant : UInt64) : Lanes :=
  let b := mixRows (moveLanes (mixColumns a))
  b.set 0 (b[0] ^^^ constant)

def permute (a : Lanes) : Lanes := roundConstants.foldl round a

def rate : Nat := 136

/-- Eight bytes as a lane, lowest byte first. -/
def laneOfBytes (bytes : List UInt8) : UInt64 :=
  bytes.foldr (fun b w => (w <<< 8) ||| b.toUInt64) 0

def absorb (a : Lanes) (block : List UInt8) : Lanes :=
  permute (.ofFn fun i => a[i] ^^^ laneOfBytes ((block.drop (8 * i.val)).take 8))

/-- Fills the last block up with one set bit at each end of the gap. -/
def pad (bytes : List UInt8) : List UInt8 :=
  let gap := rate - bytes.length % rate
  if gap = 1 then bytes ++ [0x81]
  else bytes ++ 0x01 :: (List.replicate (gap - 2) 0 ++ [0x80])

def bytesOfLane (w : UInt64) : List UInt8 :=
  (List.range 8).map fun i => (w >>> UInt64.ofNat (8 * i)).toUInt8

def hash (bytes : List UInt8) : List UInt8 :=
  let padded := pad bytes
  let blocks := (List.range (padded.length / rate)).map fun i => (padded.drop (rate * i)).take rate
  let final := blocks.foldl absorb (Vector.replicate 25 0)
  (final.toList.take 4).flatMap bytesOfLane

end TokenWatch.Ethereum.Keccak
