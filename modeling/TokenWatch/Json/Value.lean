import TokenWatch.Json.Number

/-!
JSON values with well-formed texts and finite numbers. Objects list their members by increasing
key, one member for each key.
-/
namespace TokenWatch.Json

inductive Value where
  | null
  | bool (b : Bool)
  | number (n : Number)
  | text (s : String)
  | array (items : List Value)
  | object (members : List (String × Value))
deriving Inhabited

namespace Value

/-- Adds a member at its place in the order of keys; a member of that key gives way. -/
def insert (key : String) (v : α) : List (String × α) → List (String × α)
  | [] => [(key, v)]
  | (k, w) :: rest =>
    if key < k then (key, v) :: (k, w) :: rest
    else if key = k then (key, v) :: rest
    else (k, w) :: insert key v rest

/-- The object with the given members; of several with one key the last stays. -/
def ofMembers (members : List (String × Value)) : Value :=
  object (members.foldl (fun acc (k, v) => insert k v acc) [])

def ofNat (n : Nat) : Value :=
  match Integer.ofInt? n with
  | some i => number (.whole i)
  | none => null

def ofUInt64 (n : UInt64) : Value := number (.whole (.ofUInt64 n))

def ofOption (f : α → Value) : Option α → Value
  | some a => f a
  | none => null

def get? (key : String) : Value → Option Value
  | object members => members.lookup key
  | _ => none

mutual

/-- How many arrays and objects stand inside each other at most. -/
def depth : Value → Nat
  | array items => itemsDepth items + 1
  | object members => membersDepth members + 1
  | _ => 0

def itemsDepth : List Value → Nat
  | [] => 0
  | v :: vs => max v.depth (itemsDepth vs)

def membersDepth : List (String × Value) → Nat
  | [] => 0
  | (_, v) :: vs => max v.depth (membersDepth vs)

end

end Value
end TokenWatch.Json
