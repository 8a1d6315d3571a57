import TokenWatch.Json.Number
import TokenWatch.Text.Numeral

/-!
The tokens of a JSON text, cut off one character at a time.
-/
namespace TokenWatch.Json
open Text

/-- A token. A word is a number or a literal name that is not read yet; a quoted text is `none`
when one of its escapes is half a surrogate pair. -/
inductive Token where
  | mark (c : Char)
  | word (cs : List Char)
  | quoted (s : Option String)
deriving DecidableEq

namespace Token

def isMark (c : Char) : Bool :=
  c == '[' || c == ']' || c == '{' || c == '}' || c == ',' || c == ':'

def isSpace (c : Char) : Bool :=
  c == ' ' || c == '\t' || c == '\n' || c == '\r'

def isWordPart (c : Char) : Bool :=
  c.isAlphanum || c == '+' || c == '-' || c == '.'

/-- The part of a quoted text read so far, newest character first. `high` is the first half of a
surrogate pair that still lacks the second. -/
structure Partial where
  chars : List Char
  high : Option Nat
  wellFormed : Bool
deriving DecidableEq

namespace Partial

def empty : Partial := ⟨[], none, true⟩

def push (p : Partial) (c : Char) : Partial :=
  ⟨c :: p.chars, none, p.wellFormed && p.high.isNone⟩

def isHigh (n : Nat) : Bool := 0xD800 ≤ n && n < 0xDC00

def isLow (n : Nat) : Bool := 0xDC00 ≤ n && n < 0xE000

def pushUnit (p : Partial) (n : Nat) : Partial :=
  match p.high with
  | some h =>
    if isLow n then
      ⟨Char.ofNat (0x10000 + (h - 0xD800) * 0x400 + (n - 0xDC00)) :: p.chars, none, p.wellFormed⟩
    else ⟨p.chars, none, false⟩
  | none =>
    if isHigh n then ⟨p.chars, some n, p.wellFormed⟩
    else if isLow n then ⟨p.chars, none, false⟩
    else p.push (Char.ofNat n)

def close (p : Partial) : Option String :=
  if p.wellFormed && p.high.isNone then some (String.ofList p.chars.reverse) else none

end Partial

inductive Place where
  | between
  | word (newestFirst : List Char)
  | quoted (p : Partial)
  | escape (p : Partial)
  | unit (p : Partial) (digitsLeft : Nat) (bits : Nat)
deriving DecidableEq

/-- The tokens read so far, newest first, and the place of the next character. -/
structure Scan where
  tokens : List Token
  place : Place
deriving DecidableEq

def escapeMeaning? (c : Char) : Option Char :=
  if c = '"' then some '"'
  else if c = '\\' then some '\\'
  else if c = '/' then some '/'
  else if c = 'b' then some '\x08'
  else if c = 'f' then some '\x0c'
  else if c = 'n' then some '\n'
  else if c = 'r' then some '\r'
  else if c = 't' then some '\t'
  else none

namespace Scan

def start : Scan := ⟨[], .between⟩

def open? (tokens : List Token) (c : Char) : Option Scan :=
  if isSpace c then some ⟨tokens, .between⟩
  else if isMark c then some ⟨.mark c :: tokens, .between⟩
  else if c = '"' then some ⟨tokens, .quoted .empty⟩
  else if isWordPart c then some ⟨tokens, .word [c]⟩
  else none

def step? (s : Scan) (c : Char) : Option Scan :=
  match s.place with
  | .between => open? s.tokens c
  | .word cs =>
    if isWordPart c then some ⟨s.tokens, .word (c :: cs)⟩
    else open? (.word cs.reverse :: s.tokens) c
  | .quoted p =>
    if c = '"' then some ⟨.quoted p.close :: s.tokens, .between⟩
    else if c = '\\' then some ⟨s.tokens, .escape p⟩
    else if c.toNat < 0x20 then none
    else some ⟨s.tokens, .quoted (p.push c)⟩
  | .escape p =>
    if c = 'u' then some ⟨s.tokens, .unit p 3 0⟩
    else (escapeMeaning? c).map fun meant => ⟨s.tokens, .quoted (p.push meant)⟩
  | .unit p left bits =>
    (Hex.digitValue? c).map fun d =>
      let bits := 16 * bits + d
      match left with
      | 0 => ⟨s.tokens, .quoted (p.pushUnit bits)⟩
      | left + 1 => ⟨s.tokens, .unit p left bits⟩

def close? (s : Scan) : Option (List Token) :=
  match s.place with
  | .between => some s.tokens.reverse
  | .word cs => some (.word cs.reverse :: s.tokens).reverse
  | _ => none

end Scan

def scan? (cs : List Char) : Option (List Token) :=
  cs.foldlM Scan.step? Scan.start >>= Scan.close?

end Token
end TokenWatch.Json
