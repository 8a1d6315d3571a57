/-!
Runs of a system whose steps are partial functions of a state and an action. What the surroundings
may do at a state is a predicate beside the step function.
-/
namespace TokenWatch

variable {State Action : Type} {step? : State → Action → Option State}
  {allowed : State → Action → Prop} {s t u : State} {a : Action} {as bs : List Action}

/-- The actions that lead from one state to another, each allowed where it is taken. -/
inductive Run (step? : State → Action → Option State) (allowed : State → Action → Prop) :
    State → List Action → State → Prop where
  | nil (s : State) : Run step? allowed s [] s
  | cons {s t u : State} {a : Action} {as : List Action} (ok : allowed s a)
      (step : step? s a = some t) (rest : Run step? allowed t as u) :
      Run step? allowed s (a :: as) u

abbrev Anything (_ : State) (_ : Action) : Prop := True

namespace Run

theorem single (ok : allowed s a) (step : step? s a = some t) : Run step? allowed s [a] t :=
  .cons ok step (.nil t)

theorem append (h : Run step? allowed s as t) (h' : Run step? allowed t bs u) :
    Run step? allowed s (as ++ bs) u := by
  induction h with
  | nil => exact h'
  | cons ok step _ ih => exact .cons ok step (ih h')

/-- What each step preserves holds after the run. -/
theorem preserves {P : State → Prop}
    (each : ∀ s a t, P s → allowed s a → step? s a = some t → P t)
    (h : Run step? allowed s as t) (start : P s) : P t := by
  induction h with
  | nil => exact start
  | cons ok step _ ih => exact ih (each _ _ _ start ok step)

/-- Where all actions are possible there is a run. -/
theorem of_foldlM (h : as.foldlM step? s = some t) : Run step? Anything s as t := by
  induction as generalizing s with
  | nil =>
    cases h
    exact .nil _
  | cons a as ih =>
    rw [List.foldlM_cons] at h
    obtain ⟨u, hstep, hrest⟩ := Option.bind_eq_some_iff.mp h
    exact .cons trivial hstep (ih hrest)

/-- A first step that is possible is taken. -/
theorem foldlM_cons (step : step? s a = some t) (as : List Action) :
    (a :: as).foldlM step? s = as.foldlM step? t := by
  rw [List.foldlM_cons, step]
  rfl

theorem foldlM_append (h : as.foldlM step? s = some t) (bs : List Action) :
    (as ++ bs).foldlM step? s = bs.foldlM step? t := by
  rw [List.foldlM_append, h]
  rfl

/-- What is noted of a run whose steps may each note something. -/
def noted {Note : Type} (step? : State → Action → Option State)
    (note : State → Action → List Note) : State → List Action → List Note
  | _, [] => []
  | s, a :: as =>
    note s a ++
      match step? s a with
      | some t => noted step? note t as
      | none => []

theorem noted_cons {Note : Type} {note : State → Action → List Note} (step : step? s a = some t)
    (as : List Action) : noted step? note s (a :: as) = note s a ++ noted step? note t as := by
  simp only [noted, step]

theorem noted_append {Note : Type} {note : State → Action → List Note}
    (run : Run step? allowed s as t) (bs : List Action) :
    noted step? note s (as ++ bs) = noted step? note s as ++ noted step? note t bs := by
  induction run with
  | nil => rfl
  | cons _ step _ ih =>
    rw [List.cons_append, noted_cons step, noted_cons step, ih, List.append_assoc]

/-- What was noted was noted by a step. -/
theorem exists_of_noted {Note : Type} {note : State → Action → List Note} {past later : List Note}
    {n : Note} (run : Run step? allowed s as t)
    (h : noted step? note s as = past ++ n :: later) :
    ∃ xs a ys u v before after, Run step? allowed s xs u ∧ step? u a = some v ∧
      Run step? allowed v ys t ∧ note u a = before ++ n :: after ∧
      past = noted step? note s xs ++ before := by
  induction run generalizing past with
  | nil => simp [noted] at h
  | @cons s v t a as ok step rest ih =>
    rw [noted_cons step] at h
    rcases List.append_eq_append_iff.mp h with ⟨middle, rfl, hlater⟩ | ⟨middle, hnote, hlater⟩
    · obtain ⟨xs, b, ys, u, w, before, after, hrun, hstep, hrest, hnoted, rfl⟩ := ih hlater
      refine ⟨a :: xs, b, ys, u, w, before, after, .cons ok step hrun, hstep, hrest, hnoted, ?_⟩
      rw [noted_cons step, List.append_assoc]
    · cases middle with
      | nil =>
        have hfirst : noted step? note v as = [] ++ n :: later := hlater.symm
        obtain ⟨xs, b, ys, u, w, before, after, hrun, hstep, hrest, hnoted, hpast⟩ := ih hfirst
        refine ⟨a :: xs, b, ys, u, w, before, after, .cons ok step hrun, hstep, hrest, hnoted, ?_⟩
        rw [List.append_nil] at hnote
        rw [noted_cons step, List.append_assoc, ← hpast, List.append_nil, hnote]
      | cons m after =>
        obtain ⟨rfl, -⟩ := List.cons.inj hlater
        exact ⟨[], a, as, s, v, past, after, .nil s, step, rest, hnote, rfl⟩

/-- What each step preserves together with what it notes holds after the run. -/
theorem preserves_noted {Note : Type} {note : State → Action → List Note}
    {P : List Note → State → Prop} {ns : List Note}
    (each : ∀ ns s a t, P ns s → allowed s a → step? s a = some t → P (ns ++ note s a) t)
    (h : Run step? allowed s as t) (start : P ns s) : P (ns ++ noted step? note s as) t := by
  induction h generalizing ns with
  | nil => rwa [noted, List.append_nil]
  | cons ok step _ ih =>
    rw [noted_cons step, ← List.append_assoc]
    exact ih (each _ _ _ _ start ok step)

/-- What each step preserves together with the actions so far holds after the run. -/
theorem preserves_along {P : List Action → State → Prop}
    (each : ∀ bs s a t, P bs s → allowed s a → step? s a = some t → P (bs ++ [a]) t)
    (h : Run step? allowed s as t) (start : P bs s) : P (bs ++ as) t := by
  induction h generalizing bs with
  | nil => rwa [List.append_nil]
  | cons ok step _ ih =>
    have hrest := ih (each _ _ _ _ start ok step)
    rwa [List.append_assoc] at hrest

/-- One of the callers that take steps in turn, among the others. -/
theorem exists_split {α : Type} {callers : List α} {i : Nat} {c : α} (h : callers[i]? = some c)
    (next : α) :
    ∃ before after,
      callers = before ++ c :: after ∧ callers.set i next = before ++ next :: after := by
  obtain ⟨hlt, rfl⟩ := List.getElem?_eq_some_iff.mp h
  obtain ⟨before, after, hcallers, -, hset⟩ := @List.exists_of_set _ _ next _ hlt
  exact ⟨before, after, hcallers, hset⟩

/-- One computation on a state after the other. -/
theorem bind_state {σ α β : Type} (x : StateM σ α) (f : α → StateM σ β) (s : σ) :
    (x >>= f) s = f (x s).1 (x s).2 := rfl

end Run
end TokenWatch
