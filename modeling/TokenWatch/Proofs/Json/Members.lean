import TokenWatch.Json.Printer
import TokenWatch.Json.Reader
import TokenWatch.Proofs.Json.RoundTrip

/-!
The members of objects: in which order they stand is of no account to a reader that asks for them by
name.
-/
namespace TokenWatch.Json

variable {α : Type} {key : String} {v : α} {l : List (String × α)}

theorem lookup_of_mem (nodup : (l.map Prod.fst).Nodup) (h : (key, v) ∈ l) :
    l.lookup key = some v := by
  induction l with
  | nil => cases h
  | cons m rest ih =>
    obtain ⟨k, w⟩ := m
    rw [List.map_cons, List.nodup_cons] at nodup
    rcases List.mem_cons.mp h with heq | hrest
    · cases heq
      exact List.lookup_cons_self
    · have hne : key ≠ k := by
        rintro rfl
        exact nodup.1 (List.mem_map.mpr ⟨(key, v), hrest, rfl⟩)
      rw [List.lookup_cons, beq_false_of_ne hne]
      exact ih nodup.2 hrest

namespace Value

theorem insert_perm (h : key ∉ l.map Prod.fst) : (insert key v l).Perm ((key, v) :: l) := by
  induction l with
  | nil => exact .refl _
  | cons m rest ih =>
    obtain ⟨k, w⟩ := m
    rw [List.map_cons, List.mem_cons, not_or] at h
    unfold insert
    split
    · exact .refl _
    · rw [if_neg h.1]
      exact ((ih h.2).cons (k, w)).trans (.swap _ _ _)

/-- An object holds the members that it was made of, if no two have one key. -/
theorem ofMembers_perm {members : List (String × Value)} (nodup : (members.map Prod.fst).Nodup) :
    ∃ sorted, ofMembers members = object sorted ∧ sorted.Perm members := by
  refine ⟨_, rfl, ?_⟩
  have hgeneral : ∀ (ms acc : List (String × Value)), ((ms ++ acc).map Prod.fst).Nodup →
      (ms.foldl (fun acc m => insert m.1 m.2 acc) acc).Perm (ms ++ acc) := by
    intro ms
    induction ms with
    | nil => exact fun acc _ => .refl _
    | cons m ms ih =>
      intro acc h
      obtain ⟨k, v⟩ := m
      rw [List.cons_append, List.map_cons, List.nodup_cons, List.map_append, List.mem_append,
        not_or] at h
      have hinsert : (insert k v acc).Perm ((k, v) :: acc) := insert_perm h.1.2
      have hperm : (ms ++ insert k v acc).Perm ((k, v) :: (ms ++ acc)) :=
        (hinsert.append_left ms).trans List.perm_middle
      have hnodup : ((ms ++ insert k v acc).map Prod.fst).Nodup := by
        rw [(hperm.map Prod.fst).nodup_iff, List.map_cons, List.nodup_cons, List.map_append,
          List.mem_append, not_or]
        exact h
      rw [List.foldl_cons]
      exact (ih _ hnodup).trans hperm
  have hall := hgeneral members [] (by rwa [List.append_nil])
  rwa [List.append_nil] at hall

theorem membersWhole_iff {members : List (String × Value)} :
    MembersWhole members ↔ ∀ m ∈ members, m.2.IsWhole := by
  induction members with
  | nil => exact ⟨fun _ => List.forall_mem_nil _, fun _ => trivial⟩
  | cons m rest ih =>
    rw [List.forall_mem_cons, ← ih]
    exact Iff.rfl

end Value

namespace Node

theorem ofMembers_eq_map (members : List (String × Value)) :
    ofMembers members = members.map fun m => (some m.1, ofValue m.2) := by
  induction members with
  | nil => rfl
  | cons m rest ih => rw [ofMembers, ih, List.map_cons]

end Node

namespace Reader

def declared (names : List String) (members : List (String × Value)) : List (String × Value) :=
  members.filter fun m => names.contains m.1

theorem parts_object (names : List String) (members : List (String × Value)) (levels : Nat) :
    parts names (levels + 1) (Node.ofValue (.object members)) =
      if ((declared names members).map Prod.fst).Nodup then
        some ⟨(declared names members).map fun m => (m.1, Node.ofValue m.2), false, levels⟩
      else none := by
  let known := declared names members
  let given : List (String × Node) := members.map fun m => (m.1, Node.ofValue m.2)
  have hgiven : (Node.ofMembers members).mapM
      (fun (m : Option String × Node) => m.1.map fun k => (k, m.2)) = some given := by
    rw [Node.ofMembers_eq_map, List.mapM_map]
    exact List.mapM_pure
  have hfilter : given.filter (fun m => names.contains m.1) =
      known.map fun m => (m.1, Node.ofValue m.2) := List.filter_map
  have hkeys : (known.map fun m => (m.1, Node.ofValue m.2)).map Prod.fst = known.map Prod.fst := by
    rw [List.map_map]
    rfl
  simp only [parts, Node.ofValue, hgiven, hfilter, hkeys, known]

theorem parts_ofValue {names : List String} {members : List (String × Value)}
    (nodup : (members.map Prod.fst).Nodup) (known : ∀ m ∈ members, m.1 ∈ names) (levels : Nat) :
    parts names (levels + 1) (Node.ofValue (.object members)) =
      some ⟨members.map fun m => (m.1, Node.ofValue m.2), false, levels⟩ := by
  have hall : declared names members = members :=
    List.filter_eq_self.mpr fun m hm => List.contains_iff_mem.mpr (known m hm)
  rw [parts_object, hall, if_pos nodup]

theorem lookup_declared {names : List String} {key : String} (h : key ∈ names)
    (members : List (String × Value)) :
    ((declared names members).map fun m => (m.1, Node.ofValue m.2)).lookup key =
      (members.lookup key).map Node.ofValue := by
  unfold declared
  induction members with
  | nil => rfl
  | cons m rest ih =>
    obtain ⟨k, v⟩ := m
    by_cases hk : key = k
    · subst hk
      rw [List.filter_cons, if_pos (List.contains_iff_mem.mpr h), List.map_cons,
        List.lookup_cons_self, List.lookup_cons_self, Option.map_some]
    · rw [List.lookup_cons, beq_false_of_ne hk, ← ih, List.filter_cons]
      split
      · rw [List.map_cons, List.lookup_cons, beq_false_of_ne hk]
      · rfl

/-- A record finds its fields by name, whatever else the object holds. -/
theorem exists_parts_lookup (names : List String) {members : List (String × Value)}
    (nodup : (members.map Prod.fst).Nodup) (levels : Nat) :
    ∃ p, parts names (levels + 1) (Node.ofValue (.object members)) = some p ∧ p.levels = levels ∧
      ∀ key ∈ names, p.get? key = (members.lookup key).map Node.ofValue := by
  have hdeclared : ((declared names members).map Prod.fst).Nodup :=
    nodup.sublist (List.filter_sublist.map _)
  have hparts := parts_object names members levels
  rw [if_pos hdeclared] at hparts
  exact ⟨_, hparts, rfl, fun key hkey => lookup_declared hkey members⟩

/-- A record finds its fields by name, in whatever order they stand. -/
theorem exists_parts {names : List String} {members : List (String × Value)}
    (nodup : (members.map Prod.fst).Nodup) (known : ∀ m ∈ members, m.1 ∈ names) (levels : Nat) :
    ∃ p, parts names (levels + 1) (Node.ofValue (.object members)) = some p ∧ p.levels = levels ∧
      ∀ k v, (k, v) ∈ members → p.get? k = some (Node.ofValue v) := by
  obtain ⟨p, hparts, hlevels, hget⟩ := exists_parts_lookup names nodup levels
  refine ⟨p, hparts, hlevels, fun k v hmem => ?_⟩
  rw [hget k (known _ hmem), lookup_of_mem nodup hmem, Option.map_some]

namespace Parts

variable {p : Parts} {name : String} {node : Node}

theorem required_of_get? (h : p.get? name = some node) (r : Reader α) :
    p.required name r = r p.levels node := by
  rw [required, h]
  rfl

theorem withDefault_of_get? (h : p.get? name = some node) (default : α) (r : Reader α) :
    p.withDefault name default r = r p.levels node := by
  simp only [withDefault, h]

theorem withDefault_of_none (h : p.get? name = none) (default : α) (r : Reader α) :
    p.withDefault name default r = some default := by
  simp only [withDefault, h]

end Parts
end Reader
end TokenWatch.Json
