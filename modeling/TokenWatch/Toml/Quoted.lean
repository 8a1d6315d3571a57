import TokenWatch.Text.Numeral

/-!
Quoted texts of TOML: on one line or on several, with escapes or taken literally. Each reader
starts after the opening quotes and gives what follows the closing ones.
-/
namespace TokenWatch.Toml.Quoted
open Text

def isSpace (c : Char) : Bool := c == ' ' || c == '\t'

def isPlain (c : Char) : Bool := c == '\t' || (0x20 ≤ c.toNat && c.toNat ≠ 0x7F)

def codePoint? (count : Nat) (cs : List Char) : Option Char :=
  let digits := cs.take count
  if digits.length = count then
    (Hex.value? digits).bind fun n => if n.isValidChar then some (Char.ofNat n) else none
  else none

/-- What an escape stands for, and how many characters it has after the backslash. -/
def escape? : List Char → Option (Char × Nat)
  | 'b' :: _ => some ('\x08', 1)
  | 't' :: _ => some ('\t', 1)
  | 'n' :: _ => some ('\n', 1)
  | 'f' :: _ => some ('\x0c', 1)
  | 'r' :: _ => some ('\r', 1)
  | '"' :: _ => some ('"', 1)
  | '\\' :: _ => some ('\\', 1)
  | 'u' :: rest => (codePoint? 4 rest).map (·, 5)
  | 'U' :: rest => (codePoint? 8 rest).map (·, 9)
  | _ => none

def push (c : Char) (r : Option (List Char × List Char)) : Option (List Char × List Char) :=
  r.map fun (text, rest) => (c :: text, rest)

def readBasic? (cs : List Char) : Option (List Char × List Char) :=
  match cs with
  | [] => none
  | '"' :: rest => some ([], rest)
  | '\\' :: rest =>
    match escape? rest with
    | some (c, count) => push c (readBasic? (rest.drop count))
    | none => none
  | c :: rest => if isPlain c then push c (readBasic? rest) else none
termination_by cs.length
decreasing_by all_goals simp [List.length_drop]; try omega

def readLiteral? : List Char → Option (List Char × List Char)
  | [] => none
  | '\'' :: rest => some ([], rest)
  | c :: rest => if isPlain c then push c (readLiteral? rest) else none

/-- Up to two quotes before the closing three belong to the text. -/
def closing (quote : Char) : List Char → List Char × List Char
  | a :: b :: rest =>
    if a = quote then (if b = quote then ([a, b], rest) else ([a], b :: rest))
    else ([], a :: b :: rest)
  | [a] => if a = quote then ([a], []) else ([], [a])
  | [] => ([], [])

def isGap (c : Char) : Bool := isSpace c || c == '\n'

/-- A text in three double quotes. A backslash at the end of a line drops the line's end and the
white space after it. -/
def readLongBasic? (cs : List Char) : Option (List Char × List Char) :=
  match cs with
  | [] => none
  | '"' :: '"' :: '"' :: rest => some (closing '"' rest)
  | '\\' :: rest =>
    if (rest.dropWhile isSpace).head? = some '\n' then readLongBasic? (rest.dropWhile isGap)
    else
      match escape? rest with
      | some (c, count) => push c (readLongBasic? (rest.drop count))
      | none => none
  | c :: rest => if isPlain c || c == '\n' then push c (readLongBasic? rest) else none
termination_by cs.length
decreasing_by
  · have := (List.dropWhile_sublist (l := rest) isGap).length_le
    simp only [List.length_cons]
    omega
  · simp only [List.length_drop, List.length_cons]
    omega
  · simp

def readLongLiteral? : List Char → Option (List Char × List Char)
  | [] => none
  | '\'' :: '\'' :: '\'' :: rest => some (closing '\'' rest)
  | c :: rest => if isPlain c || c == '\n' then push c (readLongLiteral? rest) else none

def dropLineEnd : List Char → List Char
  | '\n' :: rest => rest
  | cs => cs

def read? : List Char → Option (List Char × List Char)
  | '"' :: '"' :: '"' :: rest => readLongBasic? (dropLineEnd rest)
  | '"' :: rest => readBasic? rest
  | '\'' :: '\'' :: '\'' :: rest => readLongLiteral? (dropLineEnd rest)
  | '\'' :: rest => readLiteral? rest
  | _ => none

end TokenWatch.Toml.Quoted
