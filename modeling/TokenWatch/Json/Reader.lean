import TokenWatch.Json.Node

/-!
Reading parsed JSON at a type. A reader gets the number of containers that may still be entered,
so that a text nested too deeply is refused; what no reader looks at may nest to any depth.
-/
namespace TokenWatch.Json

/-- Reads a node within the given number of levels of nesting. -/
abbrev Reader (α : Type) := Nat → Node → Option α

/-- The levels that a text may use. -/
def maxLevels : Nat := 127

namespace Reader

def text : Reader String
  | _, .text (some s) => some s
  | _, _ => none

def bool : Reader Bool
  | _, .bool b => some b
  | _, _ => none

def integer : Reader Integer
  | _, .number (some (.whole n)) => some n
  | _, _ => none

def uint64 : Reader UInt64 := fun levels node =>
  (integer levels node).bind Integer.toUInt64?

def natBelow (bound : Nat) : Reader Nat := fun levels node =>
  (integer levels node).bind fun n =>
    if 0 ≤ n.value ∧ n.value < bound then some n.value.toNat else none

def intWithin (low high : Int) : Reader Int := fun levels node =>
  (integer levels node).bind fun n =>
    if low ≤ n.value ∧ n.value < high then some n.value else none

def map (f : α → β) (r : Reader α) : Reader β := fun levels node => (r levels node).map f

def andThen (r : Reader α) (f : α → Option β) : Reader β := fun levels node =>
  (r levels node).bind f

/-- `null` stands for an absent value. -/
def orNull (r : Reader α) : Reader (Option α) := fun levels node =>
  match node with
  | .null => some none
  | _ => (r levels node).map some

def list (r : Reader α) : Reader (List α) := fun levels node =>
  match levels, node with
  | levels + 1, .array items => items.mapM (r levels)
  | _, _ => none

mutual

def value (levels : Nat) : Node → Option Value
  | .null => some .null
  | .bool b => some (.bool b)
  | .number n => n.map .number
  | .text s => s.map .text
  | .array items =>
    match levels with
    | 0 => none
    | levels + 1 => (values levels items).map .array
  | .object members =>
    match levels with
    | 0 => none
    | levels + 1 => (members? levels members).map Value.ofMembers

def values (levels : Nat) : List Node → Option (List Value)
  | [] => some []
  | node :: rest =>
    match value levels node with
    | some v => (values levels rest).map (v :: ·)
    | none => none

def members? (levels : Nat) : List (Option String × Node) → Option (List (String × Value))
  | [] => some []
  | (some k, node) :: rest =>
    match value levels node with
    | some v => (members? levels rest).map ((k, v) :: ·)
    | none => none
  | (none, _) :: _ => none

end

/-- A name out of a fixed list, given as a text or as the only key of an object with the value
`null`. -/
def choice (table : List (String × α)) : Reader α := fun levels node =>
  match node with
  | .text (some s) => table.lookup s
  | .object [(some s, .null)] => if levels = 0 then none else table.lookup s
  | _ => none

/-- What was given for the declared fields of a record, and whether by position. -/
structure Parts where
  given : List (String × Node)
  positional : Bool
  levels : Nat

/-- A record is an object, in which unknown members are passed over and no declared field is given
twice, or an array of the fields in declared order, of which the last may be missing. -/
def parts (names : List String) : Reader Parts := fun levels node =>
  match levels, node with
  | levels + 1, .array items =>
    if items.length ≤ names.length then some ⟨names.zip items, true, levels⟩ else none
  | levels + 1, .object members =>
    match members.mapM fun (k, node) => k.map fun k => (k, node) with
    | some members =>
      let known := members.filter fun (k, _) => names.contains k
      if (known.map Prod.fst).Nodup then some ⟨known, false, levels⟩ else none
    | none => none
  | _, _ => none

namespace Parts

def get? (p : Parts) (name : String) : Option Node := p.given.lookup name

def required (p : Parts) (name : String) (r : Reader α) : Option α :=
  p.get? name >>= r p.levels

def withDefault (p : Parts) (name : String) (default : α) (r : Reader α) : Option α :=
  match p.get? name with
  | some node => r p.levels node
  | none => some default

/-- A field that may be `null`, or missing from an object. -/
def optional (p : Parts) (name : String) (r : Reader α) : Option (Option α) :=
  match p.get? name with
  | some node => orNull r p.levels node
  | none => if p.positional then none else some none

end Parts

def ofText? (r : Reader α) (s : List Char) : Option α :=
  Node.parse? s >>= r maxLevels

/-- Reads a value at a type; its own nesting is no reason to refuse it. -/
def ofValue? (r : Reader α) (v : Value) : Option α :=
  r v.depth (Node.ofValue v)

end Reader

def Value.parse? (s : List Char) : Option Value := Reader.ofText? Reader.value s

end TokenWatch.Json
