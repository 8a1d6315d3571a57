import TokenWatch.Checkpoint.Advances
import TokenWatch.Proofs.Checkpoint
import TokenWatch.Proofs.Run

/-!
Advances of one watermark at the same time, when every write succeeds. Callers raise the level in
memory in one order and write to the store in another. The store ends with the level that was
written last, which is the level in memory only if its own caller was the last to write.
-/
namespace TokenWatch

namespace Watermark

theorem seed_right_comm (w : Watermark) (a b : UInt64) :
    (w.seed a).seed b = (w.seed b).seed a := by
  have h : ((w.seed a).seed b).current = ((w.seed b).seed a).current := by
    apply UInt64.toNat_inj.mp
    simp only [toNat_seed]
    omega
  exact congrArg Watermark.mk h

theorem foldl_seed_middle (w : Watermark) (before after : List UInt64) (level : UInt64) :
    (before ++ level :: after).foldl seed w = (before ++ after).foldl seed (w.seed level) := by
  induction before generalizing w with
  | nil => rfl
  | cons first before ih =>
    simp only [List.cons_append, List.foldl_cons]
    rw [ih, seed_right_comm]

theorem current_foldl_seed (w : Watermark) (levels : List UInt64) :
    (levels.foldl seed w).current = levels.foldl max w.current := by
  induction levels generalizing w with
  | nil => rfl
  | cons level levels ih => exact ih (w.seed level)

end Watermark

namespace Checkpoint

theorem toText_injective {a b : UInt64} (h : toText a = toText b) : a = b := by
  have hread := congrArg ofText? h
  rw [ofText?_toText, ofText?_toText] at hread
  exact Option.some.inj hread

namespace Advance

/-- The level of a caller that has not looked at the level in memory yet. -/
def called? : Advance → Option UInt64
  | called level => some level
  | _ => none

def pending? : Advance → Option UInt64
  | raised level => some level
  | _ => none

end Advance

namespace Advances

inductive Note where
  | raised (level : UInt64)
  | wrote (level : UInt64)

namespace Note

def raised? : Note → Option UInt64
  | raised level => some level
  | wrote _ => none

def wrote? : Note → Option UInt64
  | raised _ => none
  | wrote level => some level

def raises (ns : List Note) : List UInt64 := ns.filterMap raised?

def writes (ns : List Note) : List UInt64 := ns.filterMap wrote?

end Note

variable {s t : Advances} {caller : Nat} {w : Watermark} {stored : Option String}
  {levels : List UInt64} {order : List Nat} {ns : List Note}

def note (s : Advances) (caller : Nat) : List Note :=
  match s.callers[caller]? with
  | some (.called level) => if s.watermark.current < level then [.raised level] else []
  | some (.raised level) => [.wrote level]
  | _ => []

abbrev writing? (s : Advances) (caller : Nat) : Option Advances := s.step? caller true

/-- A caller raises the level, or finds it raised, or writes it. -/
theorem writing_cases (h : s.writing? caller = some t) :
    ∃ before after level,
      s.callers = before ++ .called level :: after ∧ s.watermark.current < level ∧
        s.note caller = [.raised level] ∧
        t = ⟨s.watermark.seed level, s.stored, before ++ .raised level :: after⟩ ∨
      s.callers = before ++ .called level :: after ∧ ¬s.watermark.current < level ∧
        s.note caller = [] ∧
        t = ⟨s.watermark, s.stored, before ++ .returned false :: after⟩ ∨
      s.callers = before ++ .raised level :: after ∧ s.note caller = [.wrote level] ∧
        t = ⟨s.watermark, some (toText level), before ++ .returned true :: after⟩ := by
  unfold writing? step? at h
  split at h
  · rename_i level hc
    by_cases hlt : s.watermark.current < level
    · obtain ⟨before, after, hcallers, hset⟩ := Run.exists_split hc (.raised level)
      rw [Watermark.raise_of_lt hlt] at h
      refine ⟨before, after, level, .inl ⟨hcallers, hlt, by simp [note, hc, hlt], ?_⟩⟩
      rw [Watermark.seed_of_lt hlt, ← hset]
      exact (Option.some.inj h).symm
    · obtain ⟨before, after, hcallers, hset⟩ := Run.exists_split hc (.returned false)
      rw [Watermark.raise_of_not_lt hlt] at h
      refine ⟨before, after, level, .inr (.inl ⟨hcallers, hlt, by simp [note, hc, hlt], ?_⟩)⟩
      rw [← hset]
      exact (Option.some.inj h).symm
  · rename_i level hc
    obtain ⟨before, after, hcallers, hset⟩ := Run.exists_split hc (.returned true)
    refine ⟨before, after, level, .inr (.inr ⟨hcallers, by simp [note, hc], ?_⟩)⟩
    rw [← hset]
    exact (Option.some.inj h).symm
  · cases h

/-- What memory, store and callers have come to after some raises and writes. -/
structure Racing (w : Watermark) (stored : Option String) (levels : List UInt64) (ns : List Note)
    (s : Advances) : Prop where
  level : (s.callers.filterMap Advance.called?).foldl Watermark.seed s.watermark =
    levels.foldl Watermark.seed w
  rising : (w.current :: Note.raises ns).Pairwise (· < ·)
  reached : ∀ level ∈ w.current :: Note.raises ns, level ≤ s.watermark.current
  last : (Note.raises ns).getLast?.getD w.current = s.watermark.current
  pending : (Note.writes ns ++ s.callers.filterMap Advance.pending?).Perm (Note.raises ns)
  written : s.stored = ((Note.writes ns).getLast?.map toText).or stored

theorem racing_start (w : Watermark) (stored : Option String) (levels : List UInt64) :
    Racing w stored levels [] (start w stored levels) where
  level := by
    have h : (levels.map Advance.called).filterMap Advance.called? = levels := by
      simp [List.filterMap_map, Function.comp_def, Advance.called?]
    rw [start, h]
  rising := List.pairwise_singleton _ _
  reached := by simp [start, Note.raises]
  last := rfl
  pending := by
    have h : (levels.map Advance.called).filterMap Advance.pending? = [] := by
      simp [List.filterMap_map, Function.comp_def, Advance.pending?]
    rw [start, h]
    exact .nil
  written := rfl

theorem Racing.raise {before after : List Advance} {level : UInt64}
    (h : Racing w stored levels ns s) (hcallers : s.callers = before ++ .called level :: after)
    (hlt : s.watermark.current < level) :
    Racing w stored levels (ns ++ [.raised level])
      ⟨s.watermark.seed level, s.stored, before ++ .raised level :: after⟩ := by
  have hlevel := h.level
  have hpending := h.pending
  simp only [hcallers, List.filterMap_append, List.filterMap_cons, Advance.called?,
    Advance.pending?] at hlevel hpending
  have hraises : Note.raises (ns ++ [.raised level]) = Note.raises ns ++ [level] := by
    simp [Note.raises, Note.raised?]
  have hwrites : Note.writes (ns ++ [.raised level]) = Note.writes ns := by
    simp [Note.writes, Note.wrote?]
  constructor
  · simp only [List.filterMap_append, List.filterMap_cons, Advance.called?]
    rw [← Watermark.foldl_seed_middle, hlevel]
  · rw [hraises, ← List.cons_append, List.pairwise_append]
    refine ⟨h.rising, List.pairwise_singleton _ _, fun a ha b hb => ?_⟩
    obtain rfl := List.mem_singleton.mp hb
    exact UInt64.lt_of_le_of_lt (h.reached a ha) hlt
  · rw [hraises, ← List.cons_append]
    intro a ha
    rcases List.mem_append.mp ha with ha | ha
    · exact UInt64.le_trans (h.reached a ha) (Watermark.le_seed _ _)
    · obtain rfl := List.mem_singleton.mp ha
      exact Watermark.self_le_seed _ _
  · rw [hraises, List.getLast?_concat, Option.getD_some, Watermark.seed_of_lt hlt]
  · rw [hraises, hwrites]
    simp only [List.filterMap_append, List.filterMap_cons, Advance.pending?]
    rw [← List.append_assoc] at hpending ⊢
    have hfirst := List.perm_middle.trans (hpending.cons level)
    exact hfirst.trans (List.perm_append_singleton level _).symm
  · rw [hwrites]
    exact h.written

theorem Racing.find {before after : List Advance} {level : UInt64}
    (h : Racing w stored levels ns s) (hcallers : s.callers = before ++ .called level :: after)
    (hlt : ¬s.watermark.current < level) :
    Racing w stored levels ns
      ⟨s.watermark, s.stored, before ++ .returned false :: after⟩ := by
  have hlevel := h.level
  have hpending := h.pending
  simp only [hcallers, List.filterMap_append, List.filterMap_cons, Advance.called?,
    Advance.pending?] at hlevel hpending
  rw [Watermark.foldl_seed_middle, Watermark.seed_of_not_lt hlt] at hlevel
  refine ⟨?_, h.rising, h.reached, h.last, ?_, h.written⟩
  · simpa only [List.filterMap_append, List.filterMap_cons, Advance.called?] using hlevel
  · simpa only [List.filterMap_append, List.filterMap_cons, Advance.pending?] using hpending

theorem Racing.write {before after : List Advance} {level : UInt64}
    (h : Racing w stored levels ns s) (hcallers : s.callers = before ++ .raised level :: after) :
    Racing w stored levels (ns ++ [.wrote level])
      ⟨s.watermark, some (toText level), before ++ .returned true :: after⟩ := by
  have hlevel := h.level
  have hpending := h.pending
  simp only [hcallers, List.filterMap_append, List.filterMap_cons, Advance.called?,
    Advance.pending?] at hlevel hpending
  have hraises : Note.raises (ns ++ [.wrote level]) = Note.raises ns := by
    simp [Note.raises, Note.raised?]
  have hwrites : Note.writes (ns ++ [.wrote level]) = Note.writes ns ++ [level] := by
    simp [Note.writes, Note.wrote?]
  constructor
  · simpa only [List.filterMap_append, List.filterMap_cons, Advance.called?] using hlevel
  · rw [hraises]
    exact h.rising
  · rw [hraises]
    exact h.reached
  · rw [hraises]
    exact h.last
  · rw [hraises, hwrites]
    simp only [List.filterMap_append, List.filterMap_cons, Advance.pending?]
    refine .trans ?_ hpending
    rw [List.append_assoc, List.singleton_append]
    exact List.Perm.append_left _ List.perm_middle.symm
  · rw [hwrites, List.getLast?_concat]
    rfl

theorem Racing.step (h : Racing w stored levels ns s) (step : s.writing? caller = some t) :
    Racing w stored levels (ns ++ s.note caller) t := by
  obtain ⟨before, after, level, ⟨hcallers, hlt, hnote, rfl⟩ | ⟨hcallers, hlt, hnote, rfl⟩ |
    ⟨hcallers, hnote, rfl⟩⟩ := writing_cases step
  · rw [hnote]
    exact h.raise hcallers hlt
  · rw [hnote, List.append_nil]
    exact h.find hcallers hlt
  · rw [hnote]
    exact h.write hcallers

theorem racing_of_run (run : Run writing? Anything (start w stored levels) order s) :
    Racing w stored levels (Run.noted writing? note (start w stored levels) order) s :=
  run.preserves_noted (fun _ _ _ _ h _ step => h.step step) (racing_start w stored levels)

/-- Once all callers have returned, all levels were looked at and all raises were written. -/
theorem Racing.of_isOver (h : Racing w stored levels ns s) (ended : s.IsOver) :
    s.watermark = levels.foldl Watermark.seed w ∧ (Note.writes ns).Perm (Note.raises ns) := by
  have hcalled : s.callers.filterMap Advance.called? = [] := by
    apply List.filterMap_eq_nil_iff.mpr
    intro c hc
    rcases ended c hc with rfl | rfl <;> rfl
  have hpending : s.callers.filterMap Advance.pending? = [] := by
    apply List.filterMap_eq_nil_iff.mpr
    intro c hc
    rcases ended c hc with rfl | rfl <;> rfl
  have hlevel := h.level
  have hperm := h.pending
  rw [hcalled] at hlevel
  rw [hpending, List.append_nil] at hperm
  exact ⟨hlevel, hperm⟩

/-- Writes that came in rising order came in the order of the raises. -/
theorem Racing.rising_iff (h : Racing w stored levels ns s)
    (perm : (Note.writes ns).Perm (Note.raises ns)) {first : UInt64} (hfirst : first ≤ w.current) :
    (first :: Note.writes ns).Pairwise (· ≤ ·) ↔ Note.writes ns = Note.raises ns := by
  obtain ⟨habove, hraises⟩ := List.pairwise_cons.mp h.rising
  have hsorted : (Note.raises ns).Pairwise (· ≤ ·) := hraises.imp UInt64.le_of_lt
  constructor
  · intro hwrites
    exact perm.eq_of_pairwise (fun _ _ _ _ => UInt64.le_antisymm)
      (List.pairwise_cons.mp hwrites).2 hsorted
  · intro heq
    rw [heq, List.pairwise_cons]
    exact ⟨fun level hlevel => UInt64.le_trans hfirst (UInt64.le_of_lt (habove level hlevel)),
      hsorted⟩

/-- Any number of advances of one watermark at the same time, when every write succeeds. The store
holds the level that was written last. Memory rises with every raise, and ends at the highest of
all levels; each raise is written once. So the store ends with the level in memory exactly if the
last raise is also the last write, and the stored level never falls exactly if the writes come in
the order of the raises. -/
theorem stored_follows_writes (run : Run writing? Anything (start w stored levels) order s) :
    let ns := Run.noted writing? note (start w stored levels) order
    s.stored = ((Note.writes ns).getLast?.map toText).or stored ∧
    (w.current :: Note.raises ns).Pairwise (· < ·) ∧
    (s.IsOver →
      s.watermark.current = levels.foldl max w.current ∧
      (Note.writes ns).Perm (Note.raises ns) ∧
      (Note.raises ns ≠ [] →
        (s.stored = some (toText s.watermark.current) ↔
          (Note.writes ns).getLast? = (Note.raises ns).getLast?)) ∧
      ∀ first, first ≤ w.current →
        ((first :: Note.writes ns).Pairwise (· ≤ ·) ↔ Note.writes ns = Note.raises ns)) := by
  intro ns
  have hracing : Racing w stored levels ns s := racing_of_run run
  refine ⟨hracing.written, hracing.rising, fun ended => ?_⟩
  obtain ⟨hlevel, hperm⟩ := hracing.of_isOver ended
  refine ⟨?_, hperm, fun moved => ?_, fun first => hracing.rising_iff hperm⟩
  · rw [hlevel, Watermark.current_foldl_seed]
  · have written : Note.writes ns ≠ [] := fun hnil => moved (List.nil_perm.mp (hnil ▸ hperm))
    have hlast := List.getLast?_eq_some_getLast moved
    have hfinal := List.getLast?_eq_some_getLast written
    have hcurrent := hracing.last
    rw [hlast, Option.getD_some] at hcurrent
    rw [hracing.written, hlast, hfinal, hcurrent]
    constructor
    · intro h
      exact congrArg some (toText_injective (Option.some.inj h))
    · intro h
      rw [Option.some.inj h]
      rfl

/-- Two advances, to 10 and to 20. The first is the last to write, and the store ends with 10. -/
theorem stored_follows_writes_reordered :
    ∃ s, Run writing? Anything (start .fresh none [10, 20]) [0, 1, 1, 0] s ∧ s.IsOver ∧
      s.watermark.current = 20 ∧ s.stored = some "10" ∧
      s.stored ≠ some (toText s.watermark.current) := by
  have run : Run writing? Anything (start .fresh none [10, 20]) [0, 1, 1, 0]
      ⟨⟨20⟩, some "10", [.returned true, .returned true]⟩ := .of_foldlM rfl
  have ended : IsOver ⟨⟨20⟩, some "10", [.returned true, .returned true]⟩ := by decide
  obtain ⟨-, -, hover⟩ := stored_follows_writes run
  obtain ⟨-, -, hlast, -⟩ := hover ended
  refine ⟨_, run, ended, rfl, rfl, fun heq => ?_⟩
  exact absurd ((hlast (by decide)).mp heq) (by decide)

end Advances
end Checkpoint
end TokenWatch
