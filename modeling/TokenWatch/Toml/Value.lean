/-!
Values of TOML documents, and tables that grow entry by entry.
-/
namespace TokenWatch.Toml

/-- How a table came into being, which decides what may still be put into it. -/
inductive Origin where
  /-- Written out between braces. -/
  | inline
  /-- Named by a header of its own. -/
  | header
  /-- Named on the way to the table of a longer header. -/
  | implied
  /-- Named on the way to the value of a dotted key. -/
  | dotted
deriving DecidableEq

/-- Numbers with a fraction and dates are kept as they are written. -/
inductive Value where
  | text (s : String)
  | integer (n : Int)
  | float (written : String)
  | bool (b : Bool)
  | date (written : String)
  | array (items : List Value)
  | table (origin : Origin) (members : List (String × Value))
  /-- Tables that share a header in double brackets. -/
  | tables (elements : List (List (String × Value)))
deriving Inhabited

abbrev Members := List (String × Value)

namespace Members

def put (key : String) (v : Value) : Members → Members
  | [] => [(key, v)]
  | (k, w) :: rest => if k = key then (key, v) :: rest else (k, w) :: put key v rest

/-- Enters a value under a dotted key. Tables on the way must have come from dotted keys too, or
from longer headers as long as they do not hold the value themselves. -/
def insert (path : List String) (key : String) (v : Value) (members : Members) :
    Option Members :=
  match path with
  | [] => if (members.lookup key).isSome then none else some (members.put key v)
  | k :: rest =>
    match members.lookup k with
    | none => (insert rest key v []).map fun inner => members.put k (.table .dotted inner)
    | some (.table .dotted inner) =>
      (insert rest key v inner).map fun inner => members.put k (.table .dotted inner)
    | some (.table .implied inner) =>
      if rest = [] then none
      else (insert rest key v inner).map fun inner => members.put k (.table .implied inner)
    | some (.tables elements) =>
      match rest, elements.getLast? with
      | _ :: _, some last =>
        (insert rest key v last).map fun last =>
          members.put k (.tables (elements.dropLast ++ [last]))
      | _, _ => none
    | some _ => none

/-- A path, the last key of it, and a value. -/
abbrev Entry := List String × String × Value

def insertAll (members : Members) (entries : List Entry) : Option Members :=
  entries.foldlM (fun members (path, key, v) => members.insert path key v) members

/-- Fills the table at the end of a header. It may exist only if longer headers implied it. -/
def fillTable (key : String) (entries : List Entry) (members : Members) : Option Members :=
  match members.lookup key with
  | none => (insertAll [] entries).map fun inner => members.put key (.table .header inner)
  | some (.table .implied inner) =>
    (insertAll inner entries).map fun inner => members.put key (.table .header inner)
  | some _ => none

def appendTable (key : String) (entries : List Entry) (members : Members) : Option Members :=
  match members.lookup key with
  | none => (insertAll [] entries).map fun inner => members.put key (.tables [inner])
  | some (.tables elements) =>
    (insertAll [] entries).map fun inner => members.put key (.tables (elements ++ [inner]))
  | some _ => none

/-- Changes the table that a header's path leads to. A path leads on through the last of several
tables, and implies tables that do not exist. -/
def descend (change : Members → Option Members) (path : List String) (members : Members) :
    Option Members :=
  match path with
  | [] => change members
  | k :: rest =>
    match members.lookup k with
    | none => (descend change rest []).map fun inner => members.put k (.table .implied inner)
    | some (.table .inline _) => none
    | some (.table origin inner) =>
      (descend change rest inner).map fun inner => members.put k (.table origin inner)
    | some (.tables elements) =>
      match elements.getLast? with
      | some last =>
        (descend change rest last).map fun last =>
          members.put k (.tables (elements.dropLast ++ [last]))
      | none => none
    | some _ => none

end Members
end TokenWatch.Toml
