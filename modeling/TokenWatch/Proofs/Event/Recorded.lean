import TokenWatch.EventProcessor

/-!
Computations in a world in which the events that are handed to the sink are recorded.
-/
namespace TokenWatch

structure Recorded (σ : Type) where
  world : σ
  pushed : List Event

namespace Recorded

variable {σ α β : Type} {Q : Event → Prop}

def lift (x : StateM σ α) : StateM (Recorded σ) α := fun r =>
  ((x r.world).1, { r with world := (x r.world).2 })

def push (sink : Event → StateM σ PushResult) (e : Event) : StateM (Recorded σ) PushResult :=
  fun r => ((sink e r.world).1, ⟨(sink e r.world).2, e :: r.pushed⟩)

/-- Whether a computation hands over no events but those with a property. -/
def Pushes (Q : Event → Prop) (x : StateM (Recorded σ) α) : Prop :=
  ∀ r, ∃ es, (x r).2.pushed = es ++ r.pushed ∧ ∀ e ∈ es, Q e

theorem pushes_pure (a : α) : Pushes Q (pure a : StateM (Recorded σ) α) :=
  fun _ => ⟨[], rfl, List.forall_mem_nil _⟩

theorem pushes_lift (x : StateM σ α) : Pushes Q (lift x) :=
  fun _ => ⟨[], rfl, List.forall_mem_nil _⟩

theorem pushes_push {sink : Event → StateM σ PushResult} {e : Event} (h : Q e) :
    Pushes Q (push sink e) :=
  fun _ => ⟨[e], rfl, List.forall_mem_singleton.mpr h⟩

theorem Pushes.bind {x : StateM (Recorded σ) α} {f : α → StateM (Recorded σ) β}
    (hx : Pushes Q x) (hf : ∀ r, Pushes Q (f (x r).1)) : Pushes Q (x >>= f) := by
  intro r
  obtain ⟨es, hes, hQ⟩ := hx r
  obtain ⟨fs, hfs, hR⟩ := hf r (x r).2
  refine ⟨fs ++ es, ?_, ?_⟩
  · rw [List.append_assoc, ← hes]
    exact hfs
  · intro e he
    rcases List.mem_append.mp he with he | he
    · exact hR e he
    · exact hQ e he

/-- What was handed over before and after a computation. -/
theorem Pushes.of_mem {x : StateM (Recorded σ) α} {r : Recorded σ} {e : Event} (h : Pushes Q x)
    (he : e ∈ (x r).2.pushed) : Q e ∨ e ∈ r.pushed := by
  obtain ⟨es, hes, hQ⟩ := h r
  rw [hes] at he
  exact (List.mem_append.mp he).imp_left (hQ e)

end Recorded
end TokenWatch
