import TokenWatch.Shutdown

/-!
What a task knows of the shutdown channel that it looks at.
-/
namespace TokenWatch.Shutdown

variable {s : Shutdown} {p q : Prop}

/-- A value `true` that was sent can still be seen, unless it was heeded. -/
def SeenOr (s : Shutdown) (heeded : Prop) : Prop := s.value = true → s.changed = true ∨ heeded

theorem seenOr_start (p : Prop) : (start false).SeenOr p := by
  intro hvalue
  cases hvalue

theorem seenOr_send (s : Shutdown) (value : Bool) (p : Prop) : (s.send value).SeenOr p :=
  fun _ => .inl rfl

/-- A look at the channel stops the task if the last value that was sent is `true`. -/
theorem seenOr_notice (ready : s.IsReady) (stops : s.notice.2 = true → p) :
    s.notice.1.SeenOr p := by
  intro hvalue
  refine .inr (stops ?_)
  have hvalue : s.value = true := hvalue
  simp only [notice]
  split
  · exact hvalue
  · rename_i hchanged
    exact ready.resolve_left hchanged

/-- What was not heeded is still to be seen. -/
theorem SeenOr.of_not (h : s.SeenOr p) (hp : ¬p) : s.SeenOr q :=
  fun hvalue => .inl ((h hvalue).resolve_right hp)

theorem SeenOr.isReady (h : s.SeenOr p) (hvalue : s.value = true) (hp : ¬p) : s.IsReady :=
  .inl ((h hvalue).resolve_right hp)

section Signals

inductive Signal where
  | sent (value : Bool)
  | dropped
deriving DecidableEq

def Signal.value? : Signal → Option Bool
  | sent value => some value
  | dropped => none

def lastSent? (signals : List Signal) : Option Bool := (signals.filterMap Signal.value?).getLast?

/-- The last value sent was `true`, or nobody is left to send one. -/
def ToldToStop (signals : List Signal) : Prop := lastSent? signals = some true ∨ .dropped ∈ signals

structure Shows (signals : List Signal) (s : Shutdown) : Prop where
  changed : s.changed = true → lastSent? signals = some s.value
  gone : s.senderGone = true → .dropped ∈ signals

variable {signals : List Signal}

theorem shows_start (value : Bool) : Shows [] (start value) := ⟨nofun, nofun⟩

theorem Shows.send (h : Shows signals s) (value : Bool) :
    Shows (signals ++ [.sent value]) (s.send value) where
  changed _ := by
    rw [lastSent?, List.filterMap_append]
    exact List.getLast?_concat
  gone hgone := List.mem_append_left _ (h.gone hgone)

theorem Shows.dropSender (h : Shows signals s) : Shows (signals ++ [.dropped]) s.dropSender where
  changed hchanged := by
    rw [lastSent?, List.filterMap_append]
    exact (congrArg List.getLast? (List.append_nil _)).trans (h.changed hchanged)
  gone _ := List.mem_append_right _ (List.mem_singleton_self _)

theorem Shows.notice (h : Shows signals s) : Shows signals s.notice.1 := ⟨nofun, h.gone⟩

/-- A look at the channel stops the task only if it was told to stop. -/
theorem Shows.toldToStop (h : Shows signals s) (stop : s.notice.2 = true) : ToldToStop signals := by
  cases hchanged : s.changed with
  | true =>
    have hvalue : s.value = true := by simpa [Shutdown.notice, hchanged] using stop
    exact .inl (hvalue ▸ h.changed hchanged)
  | false =>
    have hgone : s.senderGone = true := by simpa [Shutdown.notice, hchanged] using stop
    exact .inr (h.gone hgone)

end Signals

end TokenWatch.Shutdown
