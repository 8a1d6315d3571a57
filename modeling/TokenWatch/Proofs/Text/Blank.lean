import Mathlib.Data.List.DropRight
import TokenWatch.Text.Pieces

/-!
White space at the ends of a text: taking it away leaves a text that has none there, and white space
that is put there makes no difference.
-/
namespace TokenWatch.Text

variable {before after cs : List Char}

structure IsTrimmed (cs : List Char) : Prop where
  start : ∀ c, cs.head? = some c → isBlank c = false
  finish : ∀ c, cs.getLast? = some c → isBlank c = false

theorem isTrimmed_of_forall (h : ∀ c ∈ cs, isBlank c = false) : IsTrimmed cs :=
  ⟨fun c hc => h c (List.mem_of_head? hc), fun c hc => h c (List.mem_of_getLast? hc)⟩

theorem trim_append_left (h : ∀ c ∈ before, isBlank c = true) (cs : List Char) :
    trim (before ++ cs) = trim cs := by
  unfold trim
  rw [List.dropWhile_append_of_pos h]

theorem trim_append_right (h : ∀ c ∈ after, isBlank c = true) (cs : List Char) :
    trim (cs ++ after) = trim cs := by
  have hreverse : ∀ c ∈ after.reverse, isBlank c = true := fun c hc => h c (List.mem_reverse.mp hc)
  unfold trim dropEndWhile
  by_cases hblank : cs.dropWhile isBlank = []
  · have hafter : after.dropWhile isBlank = [] := List.dropWhile_eq_nil_iff.mpr h
    simp [List.dropWhile_append, hblank, hafter]
  · have hsome : (cs.dropWhile isBlank).isEmpty = false := by simpa using hblank
    rw [List.dropWhile_append, hsome, if_neg Bool.false_ne_true, List.reverse_append,
      List.dropWhile_append_of_pos hreverse]

/-- What trimming takes away is white space. -/
theorem exists_eq_around_trim (cs : List Char) :
    ∃ before after, (∀ c ∈ before, isBlank c = true) ∧ (∀ c ∈ after, isBlank c = true) ∧
      cs = before ++ trim cs ++ after := by
  refine ⟨cs.takeWhile isBlank, (cs.dropWhile isBlank).rtakeWhile isBlank, ?_, ?_, ?_⟩
  · exact fun c => List.mem_takeWhile_imp
  · exact fun c => List.mem_rtakeWhile_imp
  · have hend : trim cs ++ (cs.dropWhile isBlank).rtakeWhile isBlank = cs.dropWhile isBlank :=
      List.rdropWhile_append_rtakeWhile
    rw [List.append_assoc, hend, List.takeWhile_append_dropWhile]

theorem isTrimmed_trim (cs : List Char) : IsTrimmed (trim cs) := by
  constructor
  · intro c hc
    obtain ⟨rest, hrest⟩ := List.rdropWhile_prefix isBlank (cs.dropWhile isBlank)
    have hfirst : (cs.dropWhile isBlank).head? = some c := by
      rw [← hrest]
      exact List.head?_append.trans (congrArg (Option.or · _) hc)
    have hstop := List.head?_dropWhile_not isBlank cs
    rw [hfirst] at hstop
    exact hstop
  · intro c hc
    have hsome : trim cs ≠ [] := by
      intro hnil
      simp [hnil] at hc
    have hlast := List.rdropWhile_last_not isBlank (cs.dropWhile isBlank) hsome
    rw [List.getLast?_eq_some_getLast hsome] at hc
    rw [← Option.some.inj hc]
    exact Bool.not_eq_true _ ▸ hlast

theorem trim_of_isTrimmed (h : IsTrimmed cs) : trim cs = cs := by
  have hkept : ∀ ds : List Char, (∀ c, ds.head? = some c → isBlank c = false) →
      ds.dropWhile isBlank = ds := by
    intro ds hds
    cases ds with
    | nil => rfl
    | cons d ds => simp [hds d rfl]
  have hback : cs.reverse.dropWhile isBlank = cs.reverse :=
    hkept _ fun c hc => h.finish c (by simpa using hc)
  unfold trim dropEndWhile
  rw [hkept cs h.start, hback, List.reverse_reverse]

end TokenWatch.Text
