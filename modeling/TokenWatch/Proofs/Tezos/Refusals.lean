import Mathlib.Data.List.Dedup
import TokenWatch.Proofs.Tezos.Archive

/-!
Requests for pages that an explorer refuses. A page that is refused is as good as an empty one, so
that refusals come to no more than a smaller archive: of each level and kind it has only the records
before the first page that is refused.
-/
namespace TokenWatch.Tezos

/-- Which requests are refused, each for a page of one kind of records of a level from an offset
on. -/
abbrev Refusals := Channel → UInt64 → Nat → Bool

namespace Archive

section Page

variable {α : Type} {refused : Nat → Bool} {rs : List α} {k : Nat}

/-- The number of the first refused page among those of `n` records, of which the last is not
full. -/
def firstRefusal? (refused : Nat → Bool) (n : Nat) : Option Nat :=
  (List.range (n / pageLimit + 1)).find? fun i => refused (i * pageLimit)

/-- The records before the first page that is refused. -/
def untilRefusal (refused : Nat → Bool) (rs : List α) : List α :=
  match firstRefusal? refused rs.length with
  | some i => rs.take (i * pageLimit)
  | none => rs

theorem untilRefusal_isPrefix (refused : Nat → Bool) (rs : List α) :
    untilRefusal refused rs <+: rs := by
  unfold untilRefusal
  split
  · exact List.take_prefix _ rs
  · exact List.prefix_rfl

theorem page_eq_nil {offset : Nat} (h : rs.length ≤ offset) : page offset rs = [] := by
  rw [page, List.drop_eq_nil_of_le h, List.take_nil]

/-- From a refused page on there is nothing. -/
theorem page_untilRefusal_of_refused (h : refused (k * pageLimit) = true) :
    page (k * pageLimit) (untilRefusal refused rs) = [] := by
  apply page_eq_nil
  unfold untilRefusal
  split
  · rename_i i hfirst
    obtain ⟨-, -, hbefore⟩ := List.find?_range_eq_some.mp hfirst
    have hle : i ≤ k := by
      by_contra hlt
      have hk := hbefore k (Nat.lt_of_not_le hlt)
      simp [h] at hk
    rw [List.length_take]
    exact Nat.le_trans (Nat.min_le_left _ _) (Nat.mul_le_mul_right pageLimit hle)
  · rename_i hnone
    have hbeyond : rs.length / pageLimit < k := by
      by_contra hle
      have hk := List.find?_range_eq_none.mp hnone k (by omega)
      simp [h] at hk
    exact Nat.le_of_lt (Nat.lt_mul_of_div_lt hbeyond (by decide))

/-- A page is as it was, if neither it nor a page before it is refused. -/
theorem page_untilRefusal (h : ∀ j ≤ k, refused (j * pageLimit) = false) :
    page (k * pageLimit) (untilRefusal refused rs) = page (k * pageLimit) rs := by
  unfold untilRefusal
  split
  · rename_i i hfirst
    obtain ⟨hrefused, -, -⟩ := List.find?_range_eq_some.mp hfirst
    have hlt : k < i := by
      by_contra hle
      have hi := h i (Nat.le_of_not_lt hle)
      simp [hrefused] at hi
    have hroom : pageLimit ≤ i * pageLimit - k * pageLimit := by
      have hnext := Nat.mul_le_mul_right pageLimit (Nat.succ_le_of_lt hlt)
      rw [Nat.succ_mul] at hnext
      omega
    rw [page, List.drop_take, List.take_take, Nat.min_eq_left hroom]
    rfl
  · rfl

end Page

section Smaller

variable {α : Type} {levelOf idOf : α → UInt64} {part : UInt64 → List α} {levels : List UInt64}
  {level : UInt64}

/-- What a level contributes to a list made of parts, one for each level. -/
theorem filter_flatMap_level (h : ∀ l, ∀ r ∈ part l, levelOf r = l) (nodup : levels.Nodup) :
    (levels.flatMap part).filter (fun r => levelOf r = level) =
      if level ∈ levels then part level else [] := by
  induction levels with
  | nil => rfl
  | cons l rest ih =>
    obtain ⟨hnew, hrest⟩ := List.nodup_cons.mp nodup
    rw [List.flatMap_cons, List.filter_append, ih hrest]
    by_cases hl : level = l
    · subst hl
      have hall : (part level).filter (fun r => levelOf r = level) = part level :=
        List.filter_eq_self.mpr fun r hr => decide_eq_true (h level r hr)
      simp [hall, hnew]
    · have hnone : (part l).filter (fun r => levelOf r = level) = [] :=
        List.filter_eq_nil_iff.mpr fun r hr => by simp [h l r hr, Ne.symm hl]
      simp [hnone, hl]

def byId (levelOf idOf : α → UInt64) (rs : List α) (level : UInt64) : List α :=
  (rs.filter fun r => levelOf r = level).mergeSort fun r s => idOf r ≤ idOf s

/-- Of every level the records before the first page that is refused. -/
def spared (levelOf idOf : α → UInt64) (refused : UInt64 → Nat → Bool) (rs : List α) : List α :=
  (rs.map levelOf).dedup.flatMap fun level =>
    untilRefusal (refused level) (byId levelOf idOf rs level)

theorem byId_spared (refused : UInt64 → Nat → Bool) (rs : List α) (level : UInt64) :
    byId levelOf idOf (spared levelOf idOf refused rs) level =
      untilRefusal (refused level) (byId levelOf idOf rs level) := by
  have hlevel : ∀ l, ∀ r ∈ untilRefusal (refused l) (byId levelOf idOf rs l), levelOf r = l := by
    intro l r hr
    have hmem := (untilRefusal_isPrefix (refused l) _).subset hr
    simp only [byId, List.mem_mergeSort, List.mem_filter, decide_eq_true_eq] at hmem
    exact hmem.2
  have hfilter : (spared levelOf idOf refused rs).filter (fun r => levelOf r = level) =
      untilRefusal (refused level) (byId levelOf idOf rs level) := by
    rw [spared, filter_flatMap_level hlevel (List.nodup_dedup _)]
    split
    · rfl
    · rename_i hnone
      have hempty : byId levelOf idOf rs level = [] := by
        rw [byId, List.filter_eq_nil_iff.mpr, List.mergeSort_nil]
        intro r hr hl
        exact hnone (List.mem_dedup.mpr (List.mem_map.mpr ⟨r, hr, of_decide_eq_true hl⟩))
      rw [hempty]
      exact (List.prefix_nil.mp (untilRefusal_isPrefix (refused level) [])).symm
  have hsorted :
      (byId levelOf idOf rs level).Pairwise fun r s => decide (idOf r ≤ idOf s) = true := by
    apply List.pairwise_mergeSort
    · intro r s t hrs hst
      exact decide_eq_true (UInt64.le_trans (of_decide_eq_true hrs) (of_decide_eq_true hst))
    · intro r s
      simpa using UInt64.le_total (idOf r) (idOf s)
  rw [byId, hfilter]
  exact List.mergeSort_of_pairwise (hsorted.sublist (untilRefusal_isPrefix _ _).sublist)

/-- No level has more records than before. -/
theorem length_spared_le (refused : UInt64 → Nat → Bool) (rs : List α) (level : UInt64) :
    ((spared levelOf idOf refused rs).filter fun r => levelOf r = level).length ≤
      (rs.filter fun r => levelOf r = level).length := by
  have hlength (rs : List α) :
      (byId levelOf idOf rs level).length = (rs.filter fun r => levelOf r = level).length :=
    List.length_mergeSort _
  rw [← hlength, ← hlength, byId_spared]
  exact (untilRefusal_isPrefix _ _).length_le

end Smaller

section Despite

variable {a : Archive} {refusals : Refusals} {level : UInt64}

/-- What is left of an archive if some requests are refused. -/
def despite (a : Archive) (refusals : Refusals) : Archive where
  transfers := spared TransferRecord.level TransferRecord.id (refusals .transfers) a.transfers
  updates := spared UpdateRecord.level UpdateRecord.id (refusals .updates) a.updates
  transfers_fit level := Nat.lt_of_le_of_lt (length_spared_le _ _ level) (a.transfers_fit level)
  updates_fit level := Nat.lt_of_le_of_lt (length_spared_le _ _ level) (a.updates_fit level)

theorem transfersAt_despite (a : Archive) (refusals : Refusals) (level : UInt64) :
    (a.despite refusals).transfersAt level =
      untilRefusal (refusals .transfers level) (a.transfersAt level) :=
  byId_spared (refusals .transfers) a.transfers level

theorem updatesAt_despite (a : Archive) (refusals : Refusals) (level : UInt64) :
    (a.despite refusals).updatesAt level =
      untilRefusal (refusals .updates level) (a.updatesAt level) :=
  byId_spared (refusals .updates) a.updates level

def recordsDespite (a : Archive) (refusals : Refusals) (level : UInt64) : List Record :=
  (untilRefusal (refusals .transfers level) (a.transfersAt level)).map .transfer ++
    (untilRefusal (refusals .updates level) (a.updatesAt level)).map .update

/-- The records that come through of the levels from `start` to the head, the head included. -/
def replayDespite (a : Archive) (refusals : Refusals) (start head : UInt64) : List Record :=
  (List.range' start.toNat (head.toNat + 1 - start.toNat)).flatMap fun level =>
    a.recordsDespite refusals (.ofNat level)

/-- The records that catching up from `start` brings after an answer with the head. Without a head
there are none. -/
def broughtDespite (a : Archive) (refusals : Refusals) (start : UInt64) :
    Except Http.Error UInt64 → List Record
  | .ok head => a.replayDespite refusals start head
  | .error _ => []

theorem replay_despite (a : Archive) (refusals : Refusals) (start head : UInt64) :
    (a.despite refusals).replay start head = a.replayDespite refusals start head := by
  simp only [replay, span, recordsAt, transfersAt_despite, updatesAt_despite, replayDespite,
    recordsDespite]

end Despite
end Archive
end TokenWatch.Tezos
