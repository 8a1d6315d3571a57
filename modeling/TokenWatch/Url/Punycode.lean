/-!
Labels of host names outside ASCII, in the ASCII form that name servers know, and back.
-/
namespace TokenWatch.Url.Punycode

def digit (n : Nat) : Char :=
  if n < 26 then Char.ofNat ('a'.toNat + n) else Char.ofNat ('0'.toNat + (n - 26))

/-- Divides by the span of a bias step until the rest is small, and counts the divisions. -/
def reduce (delta : Nat) (steps : Nat) : Nat × Nat :=
  if 455 < delta then reduce (delta / 35) (steps + 1) else (delta, steps)
termination_by delta

def adapt (delta count : Nat) (first : Bool) : Nat :=
  let delta := if first then delta / 700 else delta / 2
  let (delta, steps) := reduce (delta + delta / count) 0
  36 * steps + 36 * delta / (delta + 38)

def threshold (k bias : Nat) : Nat := min 26 (max 1 (k - bias))

def writeNumber (bias k q : Nat) (fuel : Nat) : List Char :=
  match fuel with
  | 0 => []
  | fuel + 1 =>
    let t := threshold k bias
    if q < t then [digit q]
    else digit (t + (q - t) % (36 - t)) :: writeNumber bias (k + 36) ((q - t) / (36 - t)) fuel

structure State where
  delta : Nat
  bias : Nat
  written : Nat
  output : List Char

/-- Passes over the text once for the code point `n`. -/
def passOver (basic n : Nat) (cs : List Char) (s : State) : State :=
  cs.foldl (fun s c =>
    if c.toNat < n then { s with delta := s.delta + 1 }
    else if c.toNat = n then
      { delta := 0
        bias := adapt s.delta (s.written + 1) (s.written == basic)
        written := s.written + 1
        output := s.output ++ writeNumber s.bias 36 s.delta (s.delta + 1) }
    else s) s

def insertAll (basic : Nat) (cs : List Char) : List Nat → Nat → State → State
  | [], _, s => s
  | m :: rest, n, s =>
    let s := { s with delta := s.delta + (m - n) * (s.written + 1) }
    let s := passOver basic m cs s
    insertAll basic cs rest (m + 1) { s with delta := s.delta + 1 }

def distinct : List Nat → List Nat
  | a :: b :: rest => if a = b then distinct (b :: rest) else a :: distinct (b :: rest)
  | short => short

def mark : List Char := "xn--".toList

/-- A label; one that is ASCII already stays as it is. -/
def encodeLabel (cs : List Char) : List Char :=
  let basic := cs.filter fun c => c.toNat < 0x80
  if basic.length = cs.length then cs
  else
    let others := distinct (((cs.filter fun c => 0x80 ≤ c.toNat).map Char.toNat).mergeSort)
    let start := if basic = [] then [] else basic ++ ['-']
    let s := insertAll basic.length cs others 0x80 ⟨0, 72, basic.length, start⟩
    mark ++ s.output

/-! Reading -/

def digitValue? (c : Char) : Option Nat :=
  if 'a' ≤ c ∧ c ≤ 'z' then some (c.toNat - 'a'.toNat)
  else if c.isDigit then some (c.toNat - '0'.toNat + 26)
  else none

def readNumber? (bias : Nat) : (k weight acc : Nat) → List Char → Option (Nat × List Char)
  | _, _, _, [] => none
  | k, weight, acc, c :: rest =>
    match digitValue? c with
    | none => none
    | some d =>
      let t := threshold k bias
      let acc := acc + d * weight
      if d < t then some (acc, rest) else readNumber? bias (k + 36) (weight * (36 - t)) acc rest

def insertRead? (count : Nat) (n i bias : Nat) (output cs : List Char) : Option (List Char) :=
  match cs with
  | [] => some output
  | cs =>
    match count with
    | 0 => none
    | count + 1 =>
      match readNumber? bias 36 1 0 cs with
      | none => none
      | some (number, rest) =>
        let length := output.length + 1
        let j := i + number
        let n := n + j / length
        if n.isValidChar then
          let place := j % length
          insertRead? count n (place + 1) (adapt number length (i == 0))
            (output.take place ++ Char.ofNat n :: output.drop place) rest
        else none

def decode? (cs : List Char) : Option (List Char) :=
  let tail := (cs.reverse.takeWhile (· ≠ '-')).reverse
  let front := (cs.take (cs.length - tail.length)).dropLast
  insertRead? tail.length 0x80 0 72 front tail

end TokenWatch.Url.Punycode
