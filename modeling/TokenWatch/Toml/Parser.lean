import TokenWatch.Toml.Quoted
import TokenWatch.Toml.Scalar

/-!
TOML documents. A document is read as a list of lines, entries and headers, and its tables are
built from them.
-/
namespace TokenWatch.Toml

def unifyLineEnds : List Char → List Char
  | '\r' :: '\n' :: rest => '\n' :: unifyLineEnds rest
  | c :: rest => c :: unifyLineEnds rest
  | [] => []

def skipSpaces (cs : List Char) : List Char := cs.dropWhile Quoted.isSpace

def skipGaps (cs : List Char) : List Char :=
  match cs with
  | [] => []
  | '#' :: rest => skipGaps (rest.dropWhile Quoted.isPlain)
  | c :: rest => if Quoted.isGap c then skipGaps rest else c :: rest
termination_by cs.length
decreasing_by
  · have := (List.dropWhile_sublist (l := rest) Quoted.isPlain).length_le
    simp only [List.length_cons]
    omega
  · simp

def skipLineEnd? (cs : List Char) : Option (List Char) :=
  let rest := match skipSpaces cs with
    | '#' :: rest => rest.dropWhile Quoted.isPlain
    | rest => rest
  match rest with
  | [] => some []
  | '\n' :: rest => some rest
  | _ => none

/-! Keys -/

def isBareKeyPart (c : Char) : Bool := c.isAlphanum || c == '-' || c == '_'

def readSimpleKey? : List Char → Option (String × List Char)
  | '"' :: rest => (Quoted.readBasic? rest).map fun (key, rest) => (String.ofList key, rest)
  | '\'' :: rest => (Quoted.readLiteral? rest).map fun (key, rest) => (String.ofList key, rest)
  | cs =>
    let key := cs.takeWhile isBareKeyPart
    if key = [] then none else some (String.ofList key, cs.dropWhile isBareKeyPart)

/-- The most levels to which arrays and tables between braces nest, and one more than the keys
that dots may join. -/
def maxLevels : Nat := 80

/-- Keys with dots between them, at most `count` of them, and the white space around. -/
def readKeys? (count : Nat) (cs : List Char) : Option (List String × List Char) :=
  match count with
  | 0 => none
  | count + 1 => do
    let (key, rest) ← readSimpleKey? (skipSpaces cs)
    match skipSpaces rest with
    | '.' :: rest =>
      let (keys, rest) ← readKeys? count rest
      some (key :: keys, rest)
    | rest => some ([key], rest)

def readKey? (cs : List Char) : Option (List String × String × List Char) := do
  let (keys, rest) ← readKeys? (maxLevels - 1) cs
  let last ← keys.getLast?
  some (keys.dropLast, last, rest)

/-! Values -/

mutual

/-- Reads a value that may hold `levels` levels of containers. -/
def readValue? (fuel levels : Nat) (cs : List Char) : Option (Value × List Char) :=
  match fuel with
  | 0 => none
  | fuel + 1 =>
    match cs with
    | '[' :: rest =>
      match levels with
      | 0 => none
      | levels + 1 =>
        (readItems? fuel levels rest).map fun (items, rest) => (.array items, rest)
    | '\x7b' :: rest =>
      match levels with
      | 0 => none
      | levels + 1 =>
        match skipSpaces rest with
        | '\x7d' :: rest => some (.table .inline [], rest)
        | rest => do
          let (entries, rest) ← readEntries? fuel levels rest
          let members ← Members.insertAll [] entries
          some (.table .inline members, rest)
    | '"' :: _ => (Quoted.read? cs).map fun (s, rest) => (.text (String.ofList s), rest)
    | '\'' :: _ => (Quoted.read? cs).map fun (s, rest) => (.text (String.ofList s), rest)
    | cs => readWord? cs

/-- The items of an array up to its closing bracket. A comma may follow the last one. -/
def readItems? (fuel levels : Nat) (cs : List Char) : Option (List Value × List Char) :=
  match fuel with
  | 0 => none
  | fuel + 1 =>
    match skipGaps cs with
    | ']' :: rest => some ([], rest)
    | cs => do
      let (v, rest) ← readValue? fuel levels cs
      match skipGaps rest with
      | ',' :: rest =>
        let (vs, rest) ← readItems? fuel levels rest
        some (v :: vs, rest)
      | ']' :: rest => some ([v], rest)
      | _ => none

/-- The entries of a table up to its closing brace, all on one line. -/
def readEntries? (fuel levels : Nat) (cs : List Char) :
    Option (List Members.Entry × List Char) :=
  match fuel with
  | 0 => none
  | fuel + 1 => do
    let (path, key, rest) ← readKey? cs
    match rest with
    | '=' :: rest =>
      let (v, rest) ← readValue? fuel levels (skipSpaces rest)
      match skipSpaces rest with
      | ',' :: rest =>
        let (entries, rest) ← readEntries? fuel levels rest
        some ((path, key, v) :: entries, rest)
      | '\x7d' :: rest => some ([(path, key, v)], rest)
      | _ => none
    | _ => none

end

/-! Lines -/

inductive Line where
  | entry (e : Members.Entry)
  /-- The path to a table, its key, and whether it is one of several. -/
  | header (path : List String) (key : String) (several : Bool)

/-- A call that has read no character is followed by one that has, so the fuel is enough. -/
def readPair? (cs : List Char) : Option (Members.Entry × List Char) := do
  let (path, key, rest) ← readKey? cs
  match rest with
  | '=' :: rest =>
    let (v, rest) ← readValue? (2 * rest.length + 2) maxLevels (skipSpaces rest)
    some ((path, key, v), rest)
  | _ => none

def readLine? : List Char → Option (Line × List Char)
  | '[' :: '[' :: rest => do
    let (path, key, rest) ← readKey? rest
    match rest with
    | ']' :: ']' :: rest => some (.header path key true, rest)
    | _ => none
  | '[' :: rest => do
    let (path, key, rest) ← readKey? rest
    match rest with
    | ']' :: rest => some (.header path key false, rest)
    | _ => none
  | cs => (readPair? cs).map fun (e, rest) => (.entry e, rest)

def readLines? (count : Nat) (cs : List Char) : Option (List Line) :=
  match skipGaps cs with
  | [] => some []
  | cs =>
    match count with
    | 0 => none
    | count + 1 => do
      let (line, rest) ← readLine? cs
      let rest ← skipLineEnd? rest
      let lines ← readLines? count rest
      some (line :: lines)

/-! Documents -/

/-- A header with the entries below it. -/
structure Section where
  path : List String
  key : String
  several : Bool
  entries : List Members.Entry

/-- The entries above the first header, and the sections. -/
def sections : List Line → List Members.Entry × List Section
  | [] => ([], [])
  | .entry e :: rest =>
    let (entries, later) := sections rest
    (e :: entries, later)
  | .header path key several :: rest =>
    let (entries, later) := sections rest
    ([], ⟨path, key, several, entries⟩ :: later)

def addSection (members : Members) (s : Section) : Option Members :=
  let fill := if s.several then Members.appendTable else Members.fillTable
  members.descend (fill s.key s.entries) s.path

def build? (lines : List Line) : Option Members :=
  let (entries, rest) := sections lines
  (Members.insertAll [] entries).bind fun root => rest.foldlM addSection root

/-- A byte order mark in front does not count. -/
def dropMark : List Char → List Char
  | '\ufeff' :: rest => rest
  | cs => cs

def parse? (text : List Char) : Option Members :=
  let cs := unifyLineEnds (dropMark text)
  readLines? cs.length cs >>= build?

end TokenWatch.Toml
