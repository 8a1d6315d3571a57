import TokenWatch.Proofs.Json.Members

/-!
Readers of values do not depend on how many levels of nesting they may enter, as long as these are
no fewer than the value has. So a part of a value reads as it does alone.
-/
namespace TokenWatch.Json

variable {α β : Type} {given : List (String × Node)} {names : List String} {name : String}
  {members : List (String × Value)} {items : List Value} {v : Value} {m n : Nat}

namespace Value

theorem depth_le_itemsDepth (h : v ∈ items) : v.depth ≤ itemsDepth items := by
  induction items with
  | nil => cases h
  | cons w rest ih =>
    rw [itemsDepth]
    rcases List.mem_cons.mp h with rfl | h
    · exact Nat.le_max_left _ _
    · exact Nat.le_trans (ih h) (Nat.le_max_right _ _)

theorem depth_le_membersDepth (h : (name, v) ∈ members) : v.depth ≤ membersDepth members := by
  induction members with
  | nil => cases h
  | cons w rest ih =>
    obtain ⟨k, w⟩ := w
    rw [membersDepth]
    rcases List.mem_cons.mp h with heq | h
    · cases heq
      exact Nat.le_max_left _ _
    · exact Nat.le_trans (ih h) (Nat.le_max_right _ _)

end Value

theorem Node.ofItems_eq_map (items : List Value) : ofItems items = items.map ofValue := by
  induction items with
  | nil => rfl
  | cons v rest ih => rw [ofItems, ih, List.map_cons]

namespace Reader

/-- More levels than a value has come to the same. -/
def Saturates (r : Reader α) : Prop :=
  ∀ (v : Value) (m n : Nat), v.depth ≤ m → v.depth ≤ n →
    r m (Node.ofValue v) = r n (Node.ofValue v)

variable {r : Reader α}

theorem Saturates.ofValue? (h : Saturates r) (hdepth : v.depth ≤ n) :
    r n (Node.ofValue v) = Reader.ofValue? r v :=
  h v n v.depth hdepth (Nat.le_refl _)

section Simple

theorem saturates_text : Saturates text := fun v _ _ _ _ => by cases v <;> rfl

theorem saturates_integer : Saturates integer := fun v _ _ _ _ => by
  cases v with
  | number n => cases n <;> rfl
  | _ => rfl

theorem Saturates.andThen (h : Saturates r) (f : α → Option β) : Saturates (r.andThen f) :=
  fun v m n hm hn => congrArg (·.bind f) (h v m n hm hn)

theorem Saturates.orNull (h : Saturates r) : Saturates r.orNull := fun v m n hm hn => by
  cases v with
  | null => rfl
  | _ => exact congrArg (·.map some) (h _ m n hm hn)

theorem saturates_uint64 : Saturates uint64 := saturates_integer.andThen Integer.toUInt64?

end Simple

section Values

mutual

theorem value_saturates : ∀ (v : Value) (m n : Nat), v.depth ≤ m → v.depth ≤ n →
    value m (Node.ofValue v) = value n (Node.ofValue v)
  | .null, _, _, _, _ => by rw [Node.ofValue, value, value]
  | .bool _, _, _, _, _ => by rw [Node.ofValue, value, value]
  | .number _, _, _, _, _ => by rw [Node.ofValue, value, value]
  | .text _, _, _, _, _ => by rw [Node.ofValue, value, value]
  | .array _, 0, _, hm, _ => absurd hm (Nat.not_succ_le_zero _)
  | .array _, _ + 1, 0, _, hn => absurd hn (Nat.not_succ_le_zero _)
  | .array items, m + 1, n + 1, hm, hn => by
    rw [Node.ofValue, value, value,
      values_saturates items m n (Nat.le_of_succ_le_succ hm) (Nat.le_of_succ_le_succ hn)]
  | .object _, 0, _, hm, _ => absurd hm (Nat.not_succ_le_zero _)
  | .object _, _ + 1, 0, _, hn => absurd hn (Nat.not_succ_le_zero _)
  | .object members, m + 1, n + 1, hm, hn => by
    rw [Node.ofValue, value, value,
      members?_saturates members m n (Nat.le_of_succ_le_succ hm) (Nat.le_of_succ_le_succ hn)]

theorem values_saturates : ∀ (items : List Value) (m n : Nat), Value.itemsDepth items ≤ m →
    Value.itemsDepth items ≤ n →
    values m (Node.ofItems items) = values n (Node.ofItems items)
  | [], _, _, _, _ => by rw [Node.ofItems, values, values]
  | v :: vs, m, n, hm, hn => by
    rw [Node.ofItems, values, values,
      value_saturates v m n (Nat.le_trans (Nat.le_max_left _ _) hm)
        (Nat.le_trans (Nat.le_max_left _ _) hn),
      values_saturates vs m n (Nat.le_trans (Nat.le_max_right _ _) hm)
        (Nat.le_trans (Nat.le_max_right _ _) hn)]

theorem members?_saturates : ∀ (members : List (String × Value)) (m n : Nat),
    Value.membersDepth members ≤ m → Value.membersDepth members ≤ n →
    members? m (Node.ofMembers members) = members? n (Node.ofMembers members)
  | [], _, _, _, _ => by rw [Node.ofMembers, members?, members?]
  | (_, v) :: vs, m, n, hm, hn => by
    rw [Node.ofMembers, members?, members?,
      value_saturates v m n (Nat.le_trans (Nat.le_max_left _ _) hm)
        (Nat.le_trans (Nat.le_max_left _ _) hn),
      members?_saturates vs m n (Nat.le_trans (Nat.le_max_right _ _) hm)
        (Nat.le_trans (Nat.le_max_right _ _) hn)]

end

theorem saturates_value : Saturates value := value_saturates

end Values

section Lists

theorem mapM_congr_mem {γ δ : Type} {f g : γ → Option δ} {l : List γ} (h : ∀ x ∈ l, f x = g x) :
    l.mapM f = l.mapM g := by
  induction l with
  | nil => rfl
  | cons x rest ih =>
    obtain ⟨hx, hrest⟩ := List.forall_mem_cons.mp h
    rw [List.mapM_cons, List.mapM_cons, hx, ih hrest]

/-- The items of an array read as they do alone. -/
theorem Saturates.list_ofValue (h : Saturates r) (hdepth : (Value.array items).depth ≤ n) :
    list r n (Node.ofValue (.array items)) = items.mapM (Reader.ofValue? r) := by
  cases n with
  | zero => exact absurd hdepth (Nat.not_succ_le_zero _)
  | succ n =>
    have hitems : list r (n + 1) (Node.ofValue (.array items)) = (Node.ofItems items).mapM (r n) :=
      rfl
    rw [hitems, Node.ofItems_eq_map, List.mapM_map]
    exact mapM_congr_mem fun v hv => h.ofValue?
      (Nat.le_trans (Value.depth_le_itemsDepth hv) (Nat.le_of_succ_le_succ hdepth))

end Lists

section Records

theorem parts_array (names : List String) (items : List Value) (levels : Nat) :
    parts names (levels + 1) (Node.ofValue (.array items)) =
      if items.length ≤ names.length then
        some ⟨names.zip (items.map Node.ofValue), true, levels⟩
      else none := by
  simp only [parts, Node.ofValue, Node.ofItems_eq_map, List.length_map]

def Shared (given : List (String × Node)) (m n : Nat) : Prop :=
  ∀ x ∈ given, ∃ v, x.2 = Node.ofValue v ∧ v.depth ≤ m ∧ v.depth ≤ n

/-- The parts of a record but for its levels. -/
theorem parts_saturates (names : List String) {v : Value} (hm : v.depth ≤ m) (hn : v.depth ≤ n) :
    (parts names m (Node.ofValue v) = none ∧ parts names n (Node.ofValue v) = none) ∨
    ∃ given positional m' n', parts names m (Node.ofValue v) = some ⟨given, positional, m'⟩ ∧
      parts names n (Node.ofValue v) = some ⟨given, positional, n'⟩ ∧ Shared given m' n' := by
  cases v with
  | array items =>
    cases m with
    | zero => exact absurd hm (Nat.not_succ_le_zero _)
    | succ m =>
      cases n with
      | zero => exact absurd hn (Nat.not_succ_le_zero _)
      | succ n =>
        rw [parts_array, parts_array]
        split
        · refine .inr ⟨_, _, _, _, rfl, rfl, fun x hx => ?_⟩
          obtain ⟨w, hw, heq⟩ := List.mem_map.mp (List.of_mem_zip hx).2
          have hdepth := Value.depth_le_itemsDepth hw
          exact ⟨w, heq.symm, Nat.le_trans hdepth (Nat.le_of_succ_le_succ hm),
            Nat.le_trans hdepth (Nat.le_of_succ_le_succ hn)⟩
        · exact .inl ⟨rfl, rfl⟩
  | object members =>
    cases m with
    | zero => exact absurd hm (Nat.not_succ_le_zero _)
    | succ m =>
      cases n with
      | zero => exact absurd hn (Nat.not_succ_le_zero _)
      | succ n =>
        rw [parts_object, parts_object]
        split
        · refine .inr ⟨_, _, _, _, rfl, rfl, fun x hx => ?_⟩
          obtain ⟨⟨k, w⟩, hw, rfl⟩ := List.mem_map.mp hx
          have hdepth := Value.depth_le_membersDepth (List.mem_filter.mp hw).1
          exact ⟨w, rfl, Nat.le_trans hdepth (Nat.le_of_succ_le_succ hm),
            Nat.le_trans hdepth (Nat.le_of_succ_le_succ hn)⟩
        · exact .inl ⟨rfl, rfl⟩
  | _ => exact .inl ⟨by cases m <;> rfl, by cases n <;> rfl⟩

/-- A record is read as its fields are. -/
theorem saturates_record (names : List String) {k : Parts → Option α}
    (h : ∀ given positional m n, Shared given m n →
      k ⟨given, positional, m⟩ = k ⟨given, positional, n⟩) :
    Saturates fun levels node => parts names levels node >>= k := by
  intro v m n hm hn
  rcases parts_saturates names hm hn with ⟨hm, hn⟩ | ⟨given, positional, m', n', hm, hn, shared⟩
  · simp only [hm, hn]
  · simp only [hm, hn]
    exact h given positional m' n' shared

namespace Parts

variable {positional : Bool} {node : Node}

/-- A field is read alike within either number of levels. -/
theorem read_congr (h : Saturates r) (shared : Shared given m n)
    (hget : given.lookup name = some node) : r m node = r n node := by
  obtain ⟨before, after, rfl, -⟩ := List.lookup_eq_some_iff.mp hget
  obtain ⟨v, rfl, hm, hn⟩ := shared (name, node) (List.mem_append_right _ List.mem_cons_self)
  exact h v m n hm hn

theorem required_congr (h : Saturates r) (shared : Shared given m n) (name : String) :
    required ⟨given, positional, m⟩ name r = required ⟨given, positional, n⟩ name r := by
  simp only [required, get?]
  cases hget : given.lookup name with
  | none => rfl
  | some node => exact read_congr h shared hget

theorem withDefault_congr (h : Saturates r) (shared : Shared given m n) (name : String)
    (default : α) :
    withDefault ⟨given, positional, m⟩ name default r =
      withDefault ⟨given, positional, n⟩ name default r := by
  simp only [withDefault, get?]
  cases hget : given.lookup name with
  | none => rfl
  | some node => exact read_congr h shared hget

end Parts

end Records

end Reader
end TokenWatch.Json
