import TokenWatch.Proofs.Checkpoint

/-!
Calls on the handles of one watermark, one after the other, over a store whose reads and writes may
fail. What the calls came to stands in a journal, and memory and store are what the journal says.
-/
namespace TokenWatch.Progress
open Text

/-- A call on one of the handles, and whether the store does what it is asked. -/
inductive Call where
  | load (readable : Bool)
  | seed (level : UInt64)
  | advance (level : UInt64) (writable : Bool)

inductive Entry where
  | loaded (answer : Option UInt64)
  | seeded (level : UInt64)
  | advanced (level : UInt64) (moved written : Bool)

namespace Entry

/-- The level that was taken up, or was already reached. -/
def level? : Entry → Option UInt64
  | loaded answer => answer
  | seeded level => some level
  | advanced level _ _ => some level

def attempt? : Entry → Option (UInt64 × Bool)
  | advanced level true written => some (level, written)
  | _ => none

def levels (js : List Entry) : List UInt64 := js.filterMap level?

def attempts (js : List Entry) : List (UInt64 × Bool) := js.filterMap attempt?

def written (js : List Entry) : List UInt64 := ((attempts js).filter Prod.snd).map Prod.fst

end Entry

variable {p q : Progress} {level : UInt64} {js : List Entry} {e : Entry} {call : Call}

def stored? (p : Progress) : Option String := p.store.values.get? p.key

def storedLevel? (p : Progress) : Option UInt64 := p.stored?.bind Checkpoint.ofText?

def perform (p : Progress) : Call → Progress × Entry
  | .load readable =>
    let (q, answer) := { p with store := { p.store with readable } }.load
    (q, .loaded answer)
  | .seed level => (p.seed level, .seeded level)
  | .advance level writable =>
    let (q, moved) := { p with store := { p.store with writable } }.advance level
    (q, .advanced level moved writable)

def after (p : Progress) : List Call → Progress
  | [] => p
  | call :: calls => (p.perform call).1.after calls

def journal (p : Progress) : List Call → List Entry
  | [] => []
  | call :: calls => (p.perform call).2 :: (p.perform call).1.journal calls

/-- What each call preserves, together with what it came to, a sequence of calls preserves. -/
theorem after_preserves {P : List Entry → Progress → Prop}
    (each : ∀ js p call, P js p → P (js ++ [(p.perform call).2]) (p.perform call).1)
    (calls : List Call) (start : P js p) : P (js ++ p.journal calls) (p.after calls) := by
  induction calls generalizing js p with
  | nil => rwa [journal, List.append_nil]
  | cons call calls ih =>
    have h := ih (each js p call start)
    rwa [List.append_assoc] at h

section Performing

theorem perform_load (p : Progress) (readable : Bool) :
    p.perform (.load readable) =
      ({ p with
         watermark := (if readable then p.storedLevel? else none).elim p.watermark p.watermark.seed
         store := { p.store with readable } },
        .loaded (if readable then p.storedLevel? else none)) := by
  cases readable with
  | false => rfl
  | true =>
    cases h : p.storedLevel? with
    | none =>
      have hread : (p.store.values.get? p.key).bind Checkpoint.ofText? = none := h
      simp [perform, load, Watermark.load, Checkpoint.Store.get, hread]
    | some level =>
      have hread : (p.store.values.get? p.key).bind Checkpoint.ofText? = some level := h
      simp [perform, load, Watermark.load, Checkpoint.Store.get, hread]

theorem perform_advance_of_lt (h : p.watermark.current < level) (writable : Bool) :
    p.perform (.advance level writable) =
      ({ p with
         watermark := p.watermark.seed level
         store := { p.store with writable }.put p.key (Checkpoint.toText level) },
        .advanced level true writable) := by
  simp [perform, advance, Watermark.raise, h]

theorem perform_advance_of_not_lt (h : ¬p.watermark.current < level) (writable : Bool) :
    p.perform (.advance level writable) =
      ({ p with
         watermark := p.watermark.seed level
         store := { p.store with writable } },
        .advanced level false writable) := by
  simp [perform, advance, Watermark.raise, h]

end Performing

section Recording

def writeOf (key : String) (a : UInt64 × Bool) : String × String × Bool :=
  (key, Checkpoint.toText a.1, a.2)

/-- What the journal `js` says of a process `q` that was started on the store of `p`. -/
structure Recorded (p : Progress) (js : List Entry) (q : Progress) : Prop where
  key : q.key = p.key
  level : q.watermark.current = (Entry.levels js).foldl max 0
  writes : q.store.writes = (Entry.attempts js).reverse.map (writeOf p.key) ++ p.store.writes
  rising : (Entry.attempts js).Pairwise (·.1 < ·.1)
  reached : ∀ a ∈ Entry.attempts js, a.1 ≤ q.watermark.current
  stored : q.stored? = ((Entry.written js).getLast?.map Checkpoint.toText).or p.stored?

theorem recorded_restart (p : Progress) : Recorded p [] p.restart where
  key := rfl
  level := rfl
  writes := rfl
  rising := .nil
  reached := nofun
  stored := rfl

/-- A call that attempts no write. -/
theorem Recorded.quiet {r : Progress} (h : Recorded p js q) (attempt : e.attempt? = none)
    (level : r.watermark = e.level?.elim q.watermark q.watermark.seed) (key : r.key = q.key)
    (values : r.store.values = q.store.values) (writes : r.store.writes = q.store.writes) :
    Recorded p (js ++ [e]) r := by
  have hattempts : Entry.attempts (js ++ [e]) = Entry.attempts js := by
    simp [Entry.attempts, attempt]
  have hle : q.watermark.current ≤ r.watermark.current := by
    rw [level]
    cases e.level? with
    | none => exact UInt64.le_refl _
    | some level => exact Watermark.le_seed _ _
  constructor
  · rw [key, h.key]
  · rw [level, Entry.levels, List.filterMap_append, List.foldl_append]
    cases he : e.level? with
    | none => simpa [he, Entry.levels] using h.level
    | some level => simp [he, Watermark.seed, h.level, Entry.levels]
  · rw [writes, h.writes, hattempts]
  · rw [hattempts]
    exact h.rising
  · rw [hattempts]
    exact fun a ha => UInt64.le_trans (h.reached a ha) hle
  · rw [Entry.written, hattempts, ← Entry.written, ← h.stored, stored?, values, key, stored?]

/-- A call that moves the watermark attempts to write the new level. -/
theorem Recorded.moved (h : Recorded p js q) (hlt : q.watermark.current < level)
    (writable : Bool) :
    Recorded p (js ++ [.advanced level true writable])
      (q.perform (.advance level writable)).1 := by
  have hattempts : Entry.attempts (js ++ [.advanced level true writable]) =
      Entry.attempts js ++ [(level, writable)] := by
    simp [Entry.attempts, Entry.attempt?]
  rw [perform_advance_of_lt hlt]
  constructor
  · exact h.key
  · simp [Entry.levels, Entry.level?, Watermark.seed, h.level]
  · rw [hattempts]
    simp [Checkpoint.Store.put, h.writes, h.key, writeOf]
  · rw [hattempts, List.pairwise_append]
    refine ⟨h.rising, List.pairwise_singleton _ _, fun a ha b hb => ?_⟩
    obtain rfl := List.mem_singleton.mp hb
    exact UInt64.lt_of_le_of_lt (h.reached a ha) hlt
  · rw [hattempts]
    intro a ha
    rcases List.mem_append.mp ha with ha | ha
    · exact UInt64.le_trans (h.reached a ha) (Watermark.le_seed _ _)
    · obtain rfl := List.mem_singleton.mp ha
      exact Watermark.self_le_seed _ _
  · have hstored := h.stored
    rw [Entry.written, hattempts, List.filter_append, List.map_append, ← Entry.written]
    cases writable with
    | false => simpa [stored?, Checkpoint.Store.put] using hstored
    | true => simp [stored?, Checkpoint.Store.put]

theorem Recorded.perform (h : Recorded p js q) (call : Call) :
    Recorded p (js ++ [(q.perform call).2]) (q.perform call).1 := by
  cases call with
  | load readable =>
    rw [perform_load]
    exact h.quiet rfl rfl rfl rfl rfl
  | seed level => exact h.quiet rfl rfl rfl rfl rfl
  | advance level writable =>
    by_cases hlt : q.watermark.current < level
    · have hmoved := h.moved hlt writable
      rw [perform_advance_of_lt hlt] at hmoved ⊢
      exact hmoved
    · rw [perform_advance_of_not_lt hlt]
      exact h.quiet rfl rfl rfl rfl rfl

theorem recorded_after (p : Progress) (calls : List Call) :
    Recorded p (p.restart.journal calls) (p.restart.after calls) :=
  after_preserves (fun _ _ call h => h.perform call) calls (recorded_restart p)

end Recording

section Stored

/-- The store is not ahead of memory. -/
def Bounded (p : Progress) : Prop :=
  ∀ level, p.storedLevel? = some level → level ≤ p.watermark.current

theorem le_perform (p : Progress) (call : Call) :
    p.watermark.current ≤ (p.perform call).1.watermark.current := by
  cases call with
  | load readable =>
    rw [perform_load]
    cases (if readable then p.storedLevel? else none) with
    | none => exact UInt64.le_refl _
    | some level => exact Watermark.le_seed _ _
  | seed level => exact Watermark.le_seed _ _
  | advance level writable =>
    by_cases hlt : p.watermark.current < level
    · rw [perform_advance_of_lt hlt]
      exact Watermark.le_seed _ _
    · rw [perform_advance_of_not_lt hlt]
      exact Watermark.le_seed _ _

theorem le_after (p : Progress) (calls : List Call) :
    p.watermark.current ≤ (p.after calls).watermark.current := by
  induction calls generalizing p with
  | nil => exact UInt64.le_refl _
  | cons call calls ih => exact UInt64.le_trans (le_perform p call) (ih _)

/-- A call leaves the store as it is, or writes a level that memory had not reached. -/
theorem storedLevel?_perform (p : Progress) (call : Call) :
    (p.perform call).1.storedLevel? = p.storedLevel? ∨
      ∃ level, p.watermark.current < level ∧ level ≤ (p.perform call).1.watermark.current ∧
        (p.perform call).1.storedLevel? = some level := by
  cases call with
  | load readable =>
    rw [perform_load]
    exact .inl rfl
  | seed level => exact .inl rfl
  | advance level writable =>
    by_cases hlt : p.watermark.current < level
    · rw [perform_advance_of_lt hlt]
      cases writable with
      | false => exact .inl rfl
      | true =>
        refine .inr ⟨level, hlt, Watermark.self_le_seed _ _, ?_⟩
        simp [storedLevel?, stored?, Checkpoint.Store.put, Checkpoint.ofText?_toText]
    · rw [perform_advance_of_not_lt hlt]
      exact .inl rfl

theorem Bounded.perform (h : p.Bounded) (call : Call) :
    (p.perform call).1.Bounded ∧ ∀ level, p.storedLevel? = some level →
      ∃ level', (p.perform call).1.storedLevel? = some level' ∧ level ≤ level' := by
  rcases storedLevel?_perform p call with hsame | ⟨new, hlt, hle, hnew⟩
  · constructor
    · intro level hlevel
      exact UInt64.le_trans (h level (hsame ▸ hlevel)) (le_perform p call)
    · exact fun level hlevel => ⟨level, hsame.trans hlevel, UInt64.le_refl _⟩
  · constructor
    · intro level hlevel
      obtain rfl := Option.some.inj (hnew.symm.trans hlevel)
      exact hle
    · intro level hlevel
      exact ⟨new, hnew, UInt64.le_of_lt (UInt64.lt_of_le_of_lt (h level hlevel) hlt)⟩

theorem Bounded.after (h : p.Bounded) (calls : List Call) :
    (p.after calls).Bounded ∧ ∀ level, p.storedLevel? = some level →
      ∃ level', (p.after calls).storedLevel? = some level' ∧ level ≤ level' := by
  induction calls generalizing p with
  | nil => exact ⟨h, fun level hlevel => ⟨level, hlevel, UInt64.le_refl _⟩⟩
  | cons call calls ih =>
    obtain ⟨hbounded, hgrows⟩ := h.perform call
    obtain ⟨hafter, hgrows'⟩ := ih hbounded
    refine ⟨hafter, fun level hlevel => ?_⟩
    obtain ⟨next, hnext, hle⟩ := hgrows level hlevel
    obtain ⟨last, hlast, hle'⟩ := hgrows' next hnext
    exact ⟨last, hlast, UInt64.le_trans hle hle'⟩

/-- Memory is not behind the store any more once a level was loaded. -/
theorem bounded_of_loaded (h : (p.perform call).2 = .loaded (some level)) :
    (p.perform call).1.Bounded := by
  cases call with
  | load readable =>
    rw [perform_load] at h ⊢
    cases readable with
    | false => cases h
    | true =>
      have hlevel : p.storedLevel? = some level := Entry.loaded.inj h
      intro stored hstored
      have heq : stored = level := Option.some.inj (hstored.symm.trans hlevel)
      subst heq
      simp only [if_true, hlevel]
      exact Watermark.self_le_seed _ _
  | seed other => cases h
  | advance other writable =>
    by_cases hlt : p.watermark.current < other
    · rw [perform_advance_of_lt hlt] at h
      cases h
    · rw [perform_advance_of_not_lt hlt] at h
      cases h

theorem bounded_of_mem_journal {calls : List Call} (p : Progress)
    (h : .loaded (some level) ∈ p.journal calls) : (p.after calls).Bounded := by
  induction calls generalizing p with
  | nil => cases h
  | cons call calls ih =>
    rcases List.mem_cons.mp h with h | h
    · exact ((bounded_of_loaded h.symm).after calls).1
    · exact ih _ h

end Stored

/-- A level that was written is read back, and without one the text that stood there before. -/
theorem Recorded.storedLevel? (h : Recorded p js q) :
    q.storedLevel? = (Entry.written js).getLast?.or p.storedLevel? := by
  rw [Progress.storedLevel?, h.stored]
  cases (Entry.written js).getLast? with
  | none => rfl
  | some level => exact Checkpoint.ofText?_toText level

theorem storedLevel?_eq_none_iff (p : Progress) :
    p.storedLevel? = none ↔ p.stored? = none ∨
      ∃ text, p.stored? = some text ∧ ¬Numeral.IsUnsigned (trim text.toList) := by
  unfold storedLevel?
  cases p.stored? with
  | none => simp
  | some text => simp [Checkpoint.ofText?, Numeral.readUnsigned?_eq_none_iff]

/-- Calls on the handles of one watermark, one after the other, in a process `q` that was started on
the store of `p`. The level in memory is the highest that was loaded, seeded or advanced to, and
never falls. An advance moves it exactly if its level is above, and then attempts one write of that
level, so that attempted writes rise. From the first load on that yields a level, or from the start
on a store without one, the stored level never falls and is never ahead of memory. A process that is
started afterwards loads the level that was written last, or else what stood in the store before,
and nothing only if the read fails or no level stands there. -/
theorem checkpoint_follows_calls (p : Progress) (calls : List Call) :
    let q := p.restart.after calls
    let js := p.restart.journal calls
    q.watermark.current = (Entry.levels js).foldl max 0 ∧
    (∀ more, q.watermark.current ≤ (q.after more).watermark.current) ∧
    (∀ level writable, (q.perform (.advance level writable)).2 =
      .advanced level (decide (q.watermark.current < level)) writable) ∧
    q.store.writes = (Entry.attempts js).reverse.map (writeOf p.key) ++ p.store.writes ∧
    (Entry.attempts js).Pairwise (·.1 < ·.1) ∧
    ((p.storedLevel? = none ∨ ∃ level, .loaded (some level) ∈ js) →
      ∀ level, q.storedLevel? = some level → level ≤ q.watermark.current ∧
        ∀ more, ∃ next, (q.after more).storedLevel? = some next ∧ level ≤ next ∧
          next ≤ (q.after more).watermark.current) ∧
    (∀ readable, (q.restart.perform (.load readable)).2 =
      .loaded (if readable then (Entry.written js).getLast?.or p.storedLevel? else none)) ∧
    ∀ readable, (q.restart.perform (.load readable)).2 = .loaded none ↔
      readable = false ∨ q.stored? = none ∨
        ∃ text, q.stored? = some text ∧ ¬Numeral.IsUnsigned (trim text.toList) := by
  intro q js
  have hrecorded : Recorded p js q := recorded_after p calls
  have hload (readable : Bool) : (q.restart.perform (.load readable)).2 =
      .loaded (if readable then q.storedLevel? else none) := by
    rw [perform_load]
    rfl
  refine ⟨hrecorded.level, le_after q, fun level writable => ?_, hrecorded.writes,
    hrecorded.rising, fun started level hlevel => ?_, fun readable => ?_, fun readable => ?_⟩
  · by_cases hlt : q.watermark.current < level
    · rw [perform_advance_of_lt hlt, decide_eq_true hlt]
    · rw [perform_advance_of_not_lt hlt, decide_eq_false hlt]
  · have hbounded : q.Bounded := by
      rcases started with hnone | ⟨loaded, hloaded⟩
      · have hstart : p.restart.Bounded := fun level hlevel => by cases hnone.symm.trans hlevel
        exact (hstart.after calls).1
      · exact bounded_of_mem_journal _ hloaded
    refine ⟨hbounded level hlevel, fun more => ?_⟩
    obtain ⟨hafter, hgrows⟩ := hbounded.after more
    obtain ⟨next, hnext, hle⟩ := hgrows level hlevel
    exact ⟨next, hnext, hle, hafter next hnext⟩
  · rw [hload, hrecorded.storedLevel?]
  · rw [hload]
    cases readable with
    | false => simp
    | true => simpa using storedLevel?_eq_none_iff q

end TokenWatch.Progress
