/-!
Functions that may fail, one after the other and along lists.
-/
namespace TokenWatch

variable {α β : Type} {f : α → Option β} {l : List α} {r : List β}

theorem mapM_eq_ite (f : α → Option β) (l : List α) :
    l.mapM f = if ∀ x ∈ l, (f x).isSome then some (l.filterMap f) else none := by
  induction l with
  | nil => rfl
  | cons x rest ih =>
    rw [List.mapM_cons, ih]
    cases hx : f x with
    | none => simp [hx]
    | some y =>
      by_cases hall : ∀ x ∈ rest, (f x).isSome
      · have hevery : ∀ z ∈ x :: rest, (f z).isSome :=
          List.forall_mem_cons.mpr ⟨hx ▸ rfl, hall⟩
        rw [if_pos hall, if_pos hevery, List.filterMap_cons_some hx]
        rfl
      · have hnot : ¬∀ z ∈ x :: rest, (f z).isSome := fun h =>
          hall (List.forall_mem_cons.mp h).2
        rw [if_neg hall, if_neg hnot]
        rfl

theorem mapM_eq_some_iff : l.mapM f = some r ↔ l.map f = r.map some := by
  induction l generalizing r with
  | nil => cases r <;> simp
  | cons x rest ih =>
    rw [List.mapM_cons, List.map_cons]
    cases r with
    | nil =>
      cases hx : f x with
      | none => simp
      | some y => cases rest.mapM f <;> simp
    | cons y ys =>
      rw [List.map_cons, List.cons_eq_cons, ← ih]
      cases hx : f x with
      | none => simp
      | some z => cases rest.mapM f <;> simp

theorem exists_of_mem_mapM {y : β} (h : l.mapM f = some r) (hy : y ∈ r) :
    ∃ x ∈ l, f x = some y := by
  have hsome : some y ∈ l.map f := mapM_eq_some_iff.mp h ▸ List.mem_map_of_mem hy
  exact List.mem_map.mp hsome

theorem length_of_mapM (h : l.mapM f = some r) : r.length = l.length := by
  have hlength := congrArg List.length (mapM_eq_some_iff.mp h)
  rw [List.length_map, List.length_map] at hlength
  exact hlength.symm

theorem mapM_map_some {γ : Type} {g : γ → Option β} {l : List β} (write : β → γ)
    (h : ∀ x ∈ l, g (write x) = some x) : (l.map write).mapM g = some l := by
  rw [mapM_eq_some_iff, List.map_map]
  exact List.map_congr_left h

/-- What came of two computations came of the first one. -/
theorem exists_of_bind_ok {ε : Type} {x : Except ε α} {g : α → Except ε β} {y : β}
    (h : x >>= g = .ok y) : ∃ a, x = .ok a ∧ g a = .ok y := by
  cases x with
  | error e => cases h
  | ok a => exact ⟨a, rfl, h⟩

section Ends

variable {ε : Type} {x : Except ε α} {g : α → Except ε β} {good good' : α → Prop}
  {bad bad' : ε → Prop} {y : α}

/-- What comes of a computation: a value with one property, or an error with another. -/
def Ends (x : Except ε α) (good : α → Prop) (bad : ε → Prop) : Prop :=
  match x with
  | .ok a => good a
  | .error e => bad e

theorem Ends.of_ok (h : Ends x good bad) (hx : x = .ok y) : good y := by
  rw [hx] at h
  exact h

theorem Ends.cases (h : Ends x good bad) :
    (∃ a, x = .ok a ∧ good a) ∨ ∃ e, x = .error e ∧ bad e := by
  cases x with
  | ok a => exact .inl ⟨a, rfl, h⟩
  | error e => exact .inr ⟨e, rfl, h⟩

theorem Ends.bind {next : β → Prop} (h : Ends x good bad)
    (each : ∀ a, good a → Ends (g a) next bad) : Ends (x >>= g) next bad := by
  cases x with
  | ok a => exact each a h
  | error e => exact h

theorem Ends.imp (h : Ends x good bad) (hgood : ∀ a, good a → good' a)
    (hbad : ∀ e, bad e → bad' e) : Ends x good' bad' := by
  cases x with
  | ok a => exact hgood a h
  | error e => exact hbad e h

end Ends

end TokenWatch
