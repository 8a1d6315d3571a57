/-!
Finite tables from texts to values.
-/
namespace TokenWatch

/-- One entry for each key, in the order in which the keys came. -/
structure Table (α : Type) where
  entries : List (String × α)

namespace Table

def empty : Table α := ⟨[]⟩

instance : Inhabited (Table α) := ⟨empty⟩

def get? (t : Table α) (key : String) : Option α := t.entries.lookup key

def putEntry (key : String) (v : α) : List (String × α) → List (String × α)
  | [] => [(key, v)]
  | (k, w) :: rest => if k = key then (key, v) :: rest else (k, w) :: putEntry key v rest

def put (t : Table α) (key : String) (v : α) : Table α := ⟨putEntry key v t.entries⟩

theorem lookup_putEntry (key k : String) (v : α) (entries : List (String × α)) :
    (putEntry key v entries).lookup k = if k = key then some v else entries.lookup k := by
  induction entries with
  | nil =>
    by_cases h : k = key
    · simp [putEntry, h]
    · simp [putEntry, List.lookup_cons, h, beq_false_of_ne h]
  | cons e rest ih =>
    obtain ⟨a, w⟩ := e
    by_cases ha : a = key
    · by_cases h : k = key
      · simp [putEntry, ha, h]
      · simp [putEntry, ha, List.lookup_cons, h, beq_false_of_ne h]
    · by_cases hk : k = a
      · simp [putEntry, ha, hk]
      · simp [putEntry, ha, List.lookup_cons, beq_false_of_ne hk, ih]

@[simp] theorem get?_put (t : Table α) (key k : String) (v : α) :
    (t.put key v).get? k = if k = key then some v else t.get? k :=
  lookup_putEntry key k v t.entries

@[simp] theorem get?_empty (k : String) : (empty : Table α).get? k = none := rfl

end Table
end TokenWatch
