import TokenWatch.Json.Token
import TokenWatch.Json.Value

/-!
Parsed JSON texts as they stand: members in the order written, repeated keys kept, numbers out of
range and texts with half a surrogate pair kept as holes. What is unusable shows only where it is
read.
-/
namespace TokenWatch.Json
open Text

inductive Node where
  | null
  | bool (b : Bool)
  | number (n : Option Number)
  | text (s : Option String)
  | array (items : List Node)
  | object (members : List (Option String × Node))
deriving Inhabited

namespace Node

def ofWord? (cs : List Char) : Option Node :=
  if cs = "null".toList then some null
  else if cs = "true".toList then some (bool true)
  else if cs = "false".toList then some (bool false)
  else (Number.Written.read? cs).map fun w => number w.toNumber?

/-- A container that is still open, its parts newest first. In an object the key of the member
being read is held apart. -/
inductive Frame where
  | items (read : List Node)
  | members (read : List (Option String × Node)) (key : Option String)

/-- What may come next, and the containers around it. -/
inductive Parse where
  | value (outer : List Frame)
  | firstItem (outer : List Frame)
  | firstKey (outer : List Frame)
  | key (read : List (Option String × Node)) (outer : List Frame)
  | colon (read : List (Option String × Node)) (key : Option String) (outer : List Frame)
  | after (node : Node) (outer : List Frame)

namespace Parse

def start : Parse := value []

def beginValue? (outer : List Frame) : Token → Option Parse
  | .word cs => (ofWord? cs).map (after · outer)
  | .quoted s => some (after (.text s) outer)
  | .mark c =>
    if c = '[' then some (firstItem outer)
    else if c = '\x7b' then some (firstKey outer)
    else none

def beginKey? (read : List (Option String × Node)) (outer : List Frame) : Token → Option Parse
  | .quoted s => some (colon read s outer)
  | _ => none

def step? (p : Parse) (t : Token) : Option Parse :=
  match p with
  | value outer => beginValue? outer t
  | firstItem outer =>
    if t = .mark ']' then some (after (.array []) outer)
    else beginValue? (.items [] :: outer) t
  | firstKey outer =>
    if t = .mark '\x7d' then some (after (.object []) outer)
    else beginKey? [] outer t
  | key read outer => beginKey? read outer t
  | colon read k outer =>
    if t = .mark ':' then some (value (.members read k :: outer)) else none
  | after node (.items read :: outer) =>
    if t = .mark ',' then some (value (.items (node :: read) :: outer))
    else if t = .mark ']' then some (after (.array (node :: read).reverse) outer)
    else none
  | after node (.members read k :: outer) =>
    if t = .mark ',' then some (key ((k, node) :: read) outer)
    else if t = .mark '\x7d' then some (after (.object ((k, node) :: read).reverse) outer)
    else none
  | after _ [] => none

def close? : Parse → Option Node
  | after node [] => some node
  | _ => none

end Parse

def ofTokens? (ts : List Token) : Option Node :=
  ts.foldlM Parse.step? Parse.start >>= Parse.close?

def parse? (cs : List Char) : Option Node :=
  Token.scan? cs >>= ofTokens?

mutual

def ofValue : Value → Node
  | .null => null
  | .bool b => bool b
  | .number n => number (some n)
  | .text s => text (some s)
  | .array items => array (ofItems items)
  | .object members => object (ofMembers members)

def ofItems : List Value → List Node
  | [] => []
  | v :: vs => ofValue v :: ofItems vs

def ofMembers : List (String × Value) → List (Option String × Node)
  | [] => []
  | (k, v) :: vs => (some k, ofValue v) :: ofMembers vs

end

end Node
end TokenWatch.Json
