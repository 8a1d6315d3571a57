import TokenWatch.Text.LowerCase
import TokenWatch.Text.Pieces
import TokenWatch.Url.Percent
import TokenWatch.Url.Punycode

/-!
Hosts of URLs: names, addresses of four bytes, addresses of sixteen bytes, and texts that the
scheme gives no meaning to.
-/
namespace TokenWatch.Url
open Text

inductive Error where
  | emptyHost
  | invalidDomainName
  | invalidPort
  | invalidIpv4
  | invalidIpv6
  | invalidDomainCharacter
  | relativeWithoutBase
  | relativeWithOpaqueBase
deriving DecidableEq

def Error.message : Error → String
  | emptyHost => "empty host"
  | invalidDomainName => "invalid international domain name"
  | invalidPort => "invalid port number"
  | invalidIpv4 => "invalid IPv4 address"
  | invalidIpv6 => "invalid IPv6 address"
  | invalidDomainCharacter => "invalid domain character"
  | relativeWithoutBase => "relative URL without a base"
  | relativeWithOpaqueBase => "relative URL with a cannot-be-a-base base"

inductive Host where
  | name (s : String)
  | ipv4 (n : Nat)
  /-- Eight numbers of sixteen bits. -/
  | ipv6 (pieces : List Nat)
deriving DecidableEq

namespace Host

/-- Characters that no host holds. -/
def isForbidden (c : Char) : Bool :=
  c == '\x00' || c == '\t' || c == '\n' || c == '\r' || c == ' ' || c == '#' || c == '/' ||
    c == ':' || c == '<' || c == '>' || c == '?' || c == '@' || c == '[' || c == '\\' ||
    c == ']' || c == '^' || c == '|'

def isForbiddenInDomain (c : Char) : Bool :=
  isForbidden c || c.toNat < 0x20 || c == '%' || c.toNat == 0x7F

/-! Addresses of four bytes -/

def digitsValue? (base : Nat) (cs : List Char) : Option Nat :=
  cs.foldlM (fun n c => ((hexValue? c).filter (· < base)).map (base * n + ·)) 0

/-- A part of an address: decimal, octal after `0`, or hexadecimal after `0x`. -/
def ipv4Part? (cs : List Char) : Option Nat :=
  match cs with
  | [] => none
  | '0' :: 'x' :: rest => digitsValue? 16 rest
  | '0' :: 'X' :: rest => digitsValue? 16 rest
  | '0' :: d :: rest => digitsValue? 8 (d :: rest)
  | cs => digitsValue? 10 cs

def ipv4Parts (cs : List Char) : List (List Char) :=
  let parts := pieces '.' cs
  if parts.length > 1 ∧ parts.getLast? = some [] then parts.dropLast else parts

/-- Whether a name has to be an address, since its last part is a number. -/
def endsInNumber (cs : List Char) : Bool :=
  match (ipv4Parts cs).getLast? with
  | none => false
  | some last =>
    (last != [] && last.all Char.isDigit) ||
      (match last with
        | '0' :: 'x' :: rest => (digitsValue? 16 rest).isSome
        | '0' :: 'X' :: rest => (digitsValue? 16 rest).isSome
        | _ => false)

/-- The last part fills the bytes that the others leave. -/
def ipv4? (cs : List Char) : Option Nat := do
  let parts := ipv4Parts cs
  if 4 < parts.length then none
  else
    let numbers ← parts.mapM ipv4Part?
    let last ← numbers.getLast?
    let others := numbers.dropLast
    if others.any (255 < ·) then none
    else if Nat.pow 256 (4 - others.length) ≤ last then none
    else
      let weighted := others.mapIdx fun i n => n * Nat.pow 256 (3 - i)
      some (weighted.foldl (· + ·) last)

def ipv4Text (n : Nat) : List Char :=
  let byte (i : Nat) : List Char := Nat.toDigits 10 (n / Nat.pow 256 i % 256)
  byte 3 ++ '.' :: byte 2 ++ '.' :: byte 1 ++ '.' :: byte 0

/-! Addresses of sixteen bytes -/

def ipv6Piece? (cs : List Char) : Option Nat :=
  if cs = [] ∨ 4 < cs.length then none else digitsValue? 16 cs

/-- Four decimal bytes without leading zeros, as two numbers. -/
def ipv6Tail? (cs : List Char) : Option (List Nat) := do
  let bytes ← (pieces '.' cs).mapM fun part =>
    if part ≠ [] ∧ part.all Char.isDigit ∧ (part = ['0'] ∨ part.head? ≠ some '0') then
      (digitsValue? 10 part).filter (· < 256)
    else none
  match bytes with
  | [a, b, c, d] => some [256 * a + b, 256 * c + d]
  | _ => none

/-- The numbers on one side of a double colon; the last part may have dots. -/
def ipv6Side? (last : Bool) (cs : List Char) : Option (List Nat) :=
  if cs = [] then some []
  else
    let parts := pieces ':' cs
    match parts.getLast? with
    | none => none
    | some tail =>
      if last ∧ '.' ∈ tail then do
        let front ← parts.dropLast.mapM ipv6Piece?
        let back ← ipv6Tail? tail
        return front ++ back
      else parts.mapM ipv6Piece?

def cutDoubleColon : List Char → Option (List Char × List Char)
  | ':' :: ':' :: rest => some ([], rest)
  | c :: rest => (cutDoubleColon rest).map fun (a, b) => (c :: a, b)
  | [] => none

def ipv6? (cs : List Char) : Option (List Nat) :=
  match cutDoubleColon cs with
  | none => (ipv6Side? true cs).filter (·.length = 8)
  | some (left, right) => do
    let front ← ipv6Side? false left
    let back ← ipv6Side? true right
    if front.length + back.length < 8 then
      some (front ++ List.replicate (8 - front.length - back.length) 0 ++ back)
    else none

def zeroRun (ns : List Nat) : Nat := (ns.takeWhile (· == 0)).length

/-- Start and length of the longest run of zeros, the first of several. -/
def longestZeros : Nat → List Nat → Nat × Nat
  | _, [] => (0, 0)
  | i, n :: ns =>
    let here := zeroRun (n :: ns)
    let (j, later) := longestZeros (i + 1) ns
    if later ≤ here then (i, here) else (j, later)

def ipv6Pieces (ns : List Nat) : List Char :=
  (ns.map (Nat.toDigits 16)).intersperse [':'] |>.flatten

/-- Two or more zeros in a row are left out once. -/
def ipv6Text (ns : List Nat) : List Char :=
  let (start, length) := longestZeros 0 ns
  if length < 2 then ipv6Pieces ns
  else ipv6Pieces (ns.take start) ++ ':' :: ':' :: ipv6Pieces (ns.drop (start + length))

/-!
Names of hosts

For a name outside ASCII the mapping that comes before its ASCII form is simplified. Letters are
made lower-case, wide forms plain, the full stops of other scripts to dots, and the most common
characters that do not count are dropped. Nothing is normalised: a letter followed by a combining
accent is not the accented letter, and compatibility forms other than the wide ones stay. Of the
characters that no name may hold only controls are refused, and the rules about joiners and about
the direction of writing are left out. A label that is marked as an ASCII form is checked by the
same mapping; other names in ASCII are mapped in full.
-/

def isIgnored (c : Char) : Bool :=
  c == '\u00ad' || c == '\u200b' || c == '\u2060' || c == '\ufeff' ||
    ('\ufe00' ≤ c && c ≤ '\ufe0f')

def plainForm (c : Char) : Char :=
  if c == '\u3002' || c == '\uff61' then '.'
  else if '\uff01' ≤ c && c ≤ '\uff5e' then Char.ofNat (c.toNat - 0xFEE0)
  else c

def foldChar (c : Char) : Char := lowerCase (plainForm c)

/-- A name in the form in which names are compared. -/
def foldName (cs : List Char) : List Char := (cs.filter fun c => !isIgnored c).map foldChar

def isFolded (c : Char) : Bool :=
  foldChar c == c && !isIgnored c && !(0x80 ≤ c.toNat && c.toNat < 0xA0)

/-- A label in the form that name servers know. One that has that form already has to stand for a
label outside ASCII. -/
def labelToAscii? (cs : List Char) : Option (List Char) :=
  if Punycode.mark.isPrefixOf cs then
    match Punycode.decode? (cs.drop Punycode.mark.length) with
    | some label =>
      if label.all isFolded ∧ label.any (0x80 ≤ ·.toNat) ∧ Punycode.encodeLabel label = cs then
        some cs
      else none
    | none => none
  else if cs.all isFolded then some (Punycode.encodeLabel cs)
  else none

def toAscii (cs : List Char) : Except Error (List Char) :=
  match (pieces '.' (foldName cs)).mapM labelToAscii? with
  | none => .error .invalidDomainName
  | some labels =>
    let ascii := (labels.intersperse ['.']).flatten
    if ascii = [] then .error .emptyHost else .ok ascii

def parseSpecial (cs : List Char) : Except Error Host :=
  match String.fromUTF8? (percentDecode cs).toByteArray with
  | none => .error .invalidDomainName
  | some decoded =>
    match toAscii decoded.toList with
    | .error e => .error e
    | .ok ascii =>
      if ascii.any isForbiddenInDomain then .error .invalidDomainCharacter
      else if endsInNumber ascii then
        match ipv4? ascii with
        | some n => .ok (.ipv4 n)
        | none => .error .invalidIpv4
      else .ok (.name (String.ofList ascii))

def parseOpaque (cs : List Char) : Except Error Host :=
  if cs.any isForbidden then .error .invalidDomainCharacter
  else .ok (.name (String.ofList (percentEncode controlSet cs)))

def parse (isSpecial : Bool) (cs : List Char) : Except Error Host :=
  match cs with
  | '[' :: rest =>
    if rest.getLast? = some ']' then
      match ipv6? rest.dropLast with
      | some ns => .ok (.ipv6 ns)
      | none => .error .invalidIpv6
    else .error .invalidIpv6
  | cs => if isSpecial then parseSpecial cs else parseOpaque cs

def toText : Host → List Char
  | name s => s.toList
  | ipv4 n => ipv4Text n
  | ipv6 ns => '[' :: (ipv6Text ns ++ [']'])

end Host
end TokenWatch.Url
