import TokenWatch.Proofs.Json.Members

/-!
Values as they are held, with the members of every object by increasing key. All values that are
read are held like this, and a reader that takes any value gives them back as they are.
-/
namespace TokenWatch.Json

namespace Value

section Insert

variable {α : Type} {key : String} {v : α} {l ms : List (String × α)} {m : String × α}

def Increasing (l : List (String × α)) : Prop := l.Pairwise fun m n => m.1 < n.1

theorem insert_of_forall_lt (h : ∀ m ∈ l, m.1 < key) : insert key v l = l ++ [(key, v)] := by
  induction l with
  | nil => rfl
  | cons m rest ih =>
    obtain ⟨k, w⟩ := m
    obtain ⟨hlt, hrest⟩ := List.forall_mem_cons.mp h
    have hne : key ≠ k := by
      rintro rfl
      exact String.lt_irrefl key hlt
    rw [insert, if_neg (String.lt_asymm hlt), if_neg hne, ih hrest]
    rfl

theorem foldl_insert (h : Increasing (l ++ ms)) :
    ms.foldl (fun acc m => insert m.1 m.2 acc) l = l ++ ms := by
  induction ms generalizing l with
  | nil => exact (List.append_nil l).symm
  | cons m ms ih =>
    have hlt : ∀ n ∈ l, n.1 < m.1 := fun n hn =>
      (List.pairwise_append.mp h).2.2 n hn m List.mem_cons_self
    rw [List.append_cons] at h
    rw [List.foldl_cons, insert_of_forall_lt hlt, ih h, ← List.append_cons]

theorem of_mem_insert (h : m ∈ insert key v l) : m = (key, v) ∨ m ∈ l := by
  induction l with
  | nil => exact .inl (List.mem_singleton.mp h)
  | cons n rest ih =>
    obtain ⟨k, w⟩ := n
    unfold insert at h
    split at h
    · exact List.mem_cons.mp h
    · split at h
      · exact (List.mem_cons.mp h).imp_right (List.mem_cons_of_mem _)
      · rcases List.mem_cons.mp h with rfl | h
        · exact .inr List.mem_cons_self
        · exact (ih h).imp_right (List.mem_cons_of_mem _)

/-- A member is added at its place. -/
theorem Increasing.insert (h : Increasing l) (key : String) (v : α) :
    Increasing (insert key v l) := by
  induction l with
  | nil => exact List.pairwise_singleton _ _
  | cons n rest ih =>
    obtain ⟨k, w⟩ := n
    obtain ⟨hfirst, hrest⟩ := List.pairwise_cons.mp h
    unfold Value.insert
    split
    · rename_i hlt
      refine List.pairwise_cons.mpr ⟨List.forall_mem_cons.mpr ⟨hlt, ?_⟩, h⟩
      exact fun m hm => String.lt_trans hlt (hfirst m hm)
    · rename_i hle
      split
      · rename_i heq
        subst heq
        exact List.pairwise_cons.mpr ⟨hfirst, hrest⟩
      · rename_i hne
        have hlt : k < key := by
          by_contra hge
          exact hne (String.le_antisymm (String.not_lt.mp hge) (String.not_lt.mp hle))
        refine List.pairwise_cons.mpr ⟨fun m hm => ?_, ih hrest⟩
        rcases of_mem_insert hm with rfl | hm
        · exact hlt
        · exact hfirst m hm

end Insert

mutual

/-- The members of all objects stand by increasing key. -/
def Ordered : Value → Prop
  | array items => AllOrdered items
  | object members => Increasing members ∧ MembersOrdered members
  | _ => True

def AllOrdered : List Value → Prop
  | [] => True
  | v :: vs => v.Ordered ∧ AllOrdered vs

def MembersOrdered : List (String × Value) → Prop
  | [] => True
  | (_, v) :: vs => v.Ordered ∧ MembersOrdered vs

end

variable {members : List (String × Value)}

theorem membersOrdered_iff : MembersOrdered members ↔ ∀ m ∈ members, m.2.Ordered := by
  induction members with
  | nil => exact ⟨fun _ => List.forall_mem_nil _, fun _ => trivial⟩
  | cons m rest ih =>
    rw [List.forall_mem_cons, ← ih]
    exact Iff.rfl

theorem ofMembers_of_increasing (h : Increasing members) : ofMembers members = object members :=
  congrArg object (foldl_insert (l := []) h)

/-- An object is ordered, whatever the order in which its members were given. -/
theorem ordered_ofMembers (h : MembersOrdered members) : (ofMembers members).Ordered := by
  have hfold : ∀ (ms acc : List (String × Value)), Increasing acc → (∀ m ∈ acc, m.2.Ordered) →
      (∀ m ∈ ms, m.2.Ordered) →
      Increasing (ms.foldl (fun acc m => insert m.1 m.2 acc) acc) ∧
        ∀ m ∈ ms.foldl (fun acc m => insert m.1 m.2 acc) acc, m.2.Ordered := by
    intro ms
    induction ms with
    | nil => exact fun acc hacc hmem _ => ⟨hacc, hmem⟩
    | cons m ms ih =>
      intro acc hacc hmem hms
      obtain ⟨hm, hms⟩ := List.forall_mem_cons.mp hms
      refine ih _ (hacc.insert m.1 m.2) (fun n hn => ?_) hms
      rcases of_mem_insert hn with rfl | hn
      · exact hm
      · exact hmem n hn
  obtain ⟨hincreasing, hmem⟩ :=
    hfold members [] List.Pairwise.nil (List.forall_mem_nil _) (membersOrdered_iff.mp h)
  exact ⟨hincreasing, membersOrdered_iff.mpr hmem⟩

end Value

namespace Reader
open Value

mutual

/-- A value that is not nested too deeply is read as it is held. -/
theorem value_ofValue : ∀ (v : Value) (levels : Nat), v.Ordered → v.depth ≤ levels →
    value levels (Node.ofValue v) = some v
  | .null, levels, _, _ => by rw [Node.ofValue, value]
  | .bool b, levels, _, _ => by rw [Node.ofValue, value]
  | .number n, levels, _, _ => by rw [Node.ofValue, value, Option.map_some]
  | .text s, levels, _, _ => by rw [Node.ofValue, value, Option.map_some]
  | .array items, 0, _, hdepth => absurd hdepth (Nat.not_succ_le_zero _)
  | .array items, levels + 1, h, hdepth => by
    rw [Node.ofValue, value, values_ofItems items levels h (Nat.le_of_succ_le_succ hdepth),
      Option.map_some]
  | .object members, 0, _, hdepth => absurd hdepth (Nat.not_succ_le_zero _)
  | .object members, levels + 1, h, hdepth => by
    rw [Node.ofValue, value,
      members?_ofMembers members levels h.2 (Nat.le_of_succ_le_succ hdepth), Option.map_some,
      ofMembers_of_increasing h.1]

theorem values_ofItems : ∀ (items : List Value) (levels : Nat), AllOrdered items →
    itemsDepth items ≤ levels → values levels (Node.ofItems items) = some items
  | [], levels, _, _ => by rw [Node.ofItems, values]
  | v :: vs, levels, h, hdepth => by
    have hfirst := value_ofValue v levels h.1 (Nat.le_trans (Nat.le_max_left _ _) hdepth)
    have hrest := values_ofItems vs levels h.2 (Nat.le_trans (Nat.le_max_right _ _) hdepth)
    simp only [Node.ofItems, values, hfirst, hrest, Option.map_some]

theorem members?_ofMembers : ∀ (members : List (String × Value)) (levels : Nat),
    MembersOrdered members → membersDepth members ≤ levels →
    members? levels (Node.ofMembers members) = some members
  | [], levels, _, _ => by rw [Node.ofMembers, members?]
  | (k, v) :: vs, levels, h, hdepth => by
    have hfirst := value_ofValue v levels h.1 (Nat.le_trans (Nat.le_max_left _ _) hdepth)
    have hrest := members?_ofMembers vs levels h.2 (Nat.le_trans (Nat.le_max_right _ _) hdepth)
    simp only [Node.ofMembers, members?, hfirst, hrest, Option.map_some]

end

mutual

/-- Whatever is read is held with the members of its objects in order. -/
theorem ordered_of_value : ∀ (node : Node) (levels : Nat) (v : Value),
    value levels node = some v → v.Ordered
  | .null, levels, v, h => by
    rw [value] at h
    cases h
    trivial
  | .bool b, levels, v, h => by
    rw [value] at h
    cases h
    trivial
  | .number n, levels, v, h => by
    rw [value] at h
    obtain ⟨x, -, rfl⟩ := Option.map_eq_some_iff.mp h
    trivial
  | .text s, levels, v, h => by
    rw [value] at h
    obtain ⟨x, -, rfl⟩ := Option.map_eq_some_iff.mp h
    trivial
  | .array items, 0, v, h => by
    rw [value] at h
    cases h
  | .array items, levels + 1, v, h => by
    rw [value] at h
    obtain ⟨vs, hvs, rfl⟩ := Option.map_eq_some_iff.mp h
    exact ordered_of_values items levels vs hvs
  | .object members, 0, v, h => by
    rw [value] at h
    cases h
  | .object members, levels + 1, v, h => by
    rw [value] at h
    obtain ⟨ms, hms, rfl⟩ := Option.map_eq_some_iff.mp h
    exact ordered_ofMembers (ordered_of_members? members levels ms hms)

theorem ordered_of_values : ∀ (nodes : List Node) (levels : Nat) (vs : List Value),
    values levels nodes = some vs → AllOrdered vs
  | [], levels, vs, h => by
    rw [values] at h
    cases h
    trivial
  | node :: rest, levels, vs, h => by
    rw [values] at h
    split at h
    · rename_i v hv
      obtain ⟨ws, hws, rfl⟩ := Option.map_eq_some_iff.mp h
      exact ⟨ordered_of_value node levels v hv, ordered_of_values rest levels ws hws⟩
    · cases h

theorem ordered_of_members? : ∀ (members : List (Option String × Node)) (levels : Nat)
    (ms : List (String × Value)), members? levels members = some ms → MembersOrdered ms
  | [], levels, ms, h => by
    rw [members?] at h
    cases h
    trivial
  | (some k, node) :: rest, levels, ms, h => by
    rw [members?] at h
    split at h
    · rename_i v hv
      obtain ⟨ws, hws, rfl⟩ := Option.map_eq_some_iff.mp h
      exact ⟨ordered_of_value node levels v hv, ordered_of_members? rest levels ws hws⟩
    · cases h
  | (none, _) :: _, levels, ms, h => by
    rw [members?] at h
    cases h

end

end Reader

end TokenWatch.Json
