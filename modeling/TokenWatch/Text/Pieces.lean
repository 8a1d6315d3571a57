/-!
Taking texts apart: white space at both ends, and the pieces around a separator.
-/
namespace TokenWatch.Text

/-- The characters with the Unicode property `White_Space`. -/
def isBlank (c : Char) : Bool :=
  let n := c.toNat
  (9 ≤ n && n ≤ 13) || n == 0x20 || n == 0x85 || n == 0xA0 || n == 0x1680 ||
    (0x2000 ≤ n && n ≤ 0x200A) || n == 0x2028 || n == 0x2029 || n == 0x202F ||
    n == 0x205F || n == 0x3000

def dropEndWhile (p : Char → Bool) (cs : List Char) : List Char :=
  (cs.reverse.dropWhile p).reverse

def trim (cs : List Char) : List Char :=
  dropEndWhile isBlank (cs.dropWhile isBlank)

def IsBlank (s : String) : Prop :=
  ∀ c ∈ s.toList, isBlank c = true

instance (s : String) : Decidable (IsBlank s) :=
  decidable_of_iff (s.toList.all isBlank = true) List.all_eq_true

def consPiece (sep c : Char) : List Char × List (List Char) → List Char × List (List Char)
  | (first, rest) => if c = sep then ([], first :: rest) else (c :: first, rest)

/-- The pieces of a text around the separator: one more than there are separators. -/
def pieces (sep : Char) (cs : List Char) : List (List Char) :=
  let (first, rest) := cs.foldr (consPiece sep) ([], [])
  first :: rest

end TokenWatch.Text
